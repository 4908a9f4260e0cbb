import XlaModel.Indexing.Map
import XlaModel.Indexing.Theorems.Interval
import XlaModel.Symbolic.Theorems.Divisor
import XlaModel.Lib.Fallible

namespace Indexing.IndexingMap

open Symbolic SymbolicExpr Fallible

variable {m : IndexingMap} {uc : Bool} {ρ : Nat → Int} {e : SymbolicExpr}

-- The assignment lies in the bounds of the variables.
def InBounds (m : IndexingMap) (ρ : Nat → Int) : Prop :=
  ∀ id i, m.variableBound id = some i → ρ id ∈ i

def ConstraintsSatisfied (m : IndexingMap) (ρ : Nat → Int) : Prop :=
  ∀ c ∈ m.constraints, c.1.eval ρ ∈ c.2

-- The points of the domain.
structure Domain (m : IndexingMap) (ρ : Nat → Int) : Prop where
  notEmpty    : m.isKnownEmpty = false
  inBounds    : m.InBounds ρ
  constraints : m.ConstraintsSatisfied ρ

theorem lt_of_variableBound {id : Nat} (h : m.variableBound id = some i) :
    id < m.symbolicMap.numDims + (m.rangeVars.length + m.rtVars.length) := by
  simp only [variableBound, getDimensionBound, getSymbolBound] at h
  split_ifs at h
  case pos   => omega
  case pos _ => omega
  case neg   =>
    have := (List.getElem?_eq_some_iff.mp h).1
    omega

instance : Decidable (m.InBounds ρ) :=
  decidable_of_iff
    (∀ id < m.symbolicMap.numDims + (m.rangeVars.length + m.rtVars.length),
      ∀ i ∈ m.variableBound id, ρ id ∈ i)
    ⟨fun h id i hi => h id (lt_of_variableBound hi) i hi, fun h id _ i hi => h id i hi⟩

instance : Decidable (m.ConstraintsSatisfied ρ) :=
  inferInstanceAs (Decidable (∀ c ∈ m.constraints, c.1.eval ρ ∈ c.2))

instance : Decidable (m.Domain ρ) :=
  decidable_of_iff (m.isKnownEmpty = false ∧ m.InBounds ρ ∧ m.ConstraintsSatisfied ρ)
    ⟨fun h => ⟨h.1, h.2.1, h.2.2⟩, fun h => ⟨h.1, h.2, h.3⟩⟩

section Fits

def AddFits (lhs rhs : Interval) : Prop :=
  ¬overflows (lhs.lower + rhs.lower) ∧ ¬overflows (lhs.upper + rhs.upper)

def MulFits (lhs rhs : Interval) : Prop :=
  (¬overflows (lhs.lower * rhs.lower) ∧ ¬overflows (lhs.upper * rhs.lower)) ∧
  (¬overflows (lhs.lower * rhs.upper) ∧ ¬overflows (lhs.upper * rhs.upper))

instance : Decidable (AddFits lhs rhs) :=
  inferInstanceAs (Decidable (_ ∧ _))

instance : Decidable (MulFits lhs rhs) :=
  inferInstanceAs (Decidable ((_ ∧ _) ∧ (_ ∧ _)))

-- The endpoints of the range of an operation do not leave the range of the integer type.
def opFits : BinaryOp → Interval → Interval → Bool
  | .add, lhs, rhs => AddFits lhs rhs
  | .mul, lhs, rhs => MulFits lhs rhs
  | _,    _,   _   => true

def fits (m : IndexingMap) (uc : Bool) : SymbolicExpr → Bool
  | const _       => true
  | var _         => true
  | binary op l r =>
    m.fits uc l && m.fits uc r &&
      match m.computeExpressionRange uc l, m.computeExpressionRange uc r with
      | some lhs, some rhs => opFits op lhs rhs
      | _,        _        => true

-- The range evaluator, cut off where an endpoint leaves the range of the integer type.
def checkedRange (m : IndexingMap) (uc : Bool) (e : SymbolicExpr) : Option Interval :=
  if m.fits uc e then m.computeExpressionRange uc e else none

theorem checkedRange_refines (m : IndexingMap) (uc : Bool) (e : SymbolicExpr) :
    Refines (m.checkedRange uc e) (m.computeExpressionRange uc e) := by
  rw [checkedRange]
  split <;> [exact .refl; exact .none]

end Fits

section ModPositive

-- The divisors of the remainders are positive.
def ModPositive (ρ : Nat → Int) : SymbolicExpr → Prop
  | var _         => True
  | const _       => True
  | binary op l r => ModPositive ρ l ∧ ModPositive ρ r ∧ (op = .mod → 0 < r.eval ρ)

theorem modPositive_mulConst (h : ModPositive ρ e) (c : Int) : ModPositive ρ (e.mulConst c) := by
  induction e generalizing c
  case var id =>
    simp only [mulConst]
    split <;> [trivial; split <;> simp [ModPositive]]
  case const => trivial
  case binary op l r hl _ =>
    obtain hc | ⟨_, hc⟩ | ⟨_, hc⟩ | ⟨l', c₁, he, hc⟩ | ⟨_, _, hc⟩ := mulConst_cases (binary op l r) c
    case inl =>
      obtain ⟨_, he, _⟩ := hc
      contradiction
    case inr.inl          => simp [hc, ModPositive]
    case inr.inr.inl      =>
      rw [hc]
      exact h
    case inr.inr.inr.inl  =>
      cases he
      exact hc ▸ hl h.1 _
    case inr.inr.inr.inr  => exact hc ▸ ⟨h, trivial, by simp⟩

theorem modPositive_of_created (hc : Created op l r e) (h : ModPositive ρ (binary op l r)) :
    ModPositive ρ e := by
  obtain ⟨hl, hr, hm⟩ := h
  cases hc
  case raw           => exact ⟨hl, hr, hm⟩
  case swapped ho _  => exact ⟨hr, hl, fun hm => by simp [hm, BinaryOp.isCommutative] at ho⟩
  case fold          => trivial
  case left          => exact hl
  case right         => exact hr
  case mulConst      => exact modPositive_mulConst hl _
  case constMul      => exact modPositive_mulConst hr _

theorem modPositive_createBinaryOp (h : ModPositive ρ (binary op l r)) :
    ModPositive ρ (createBinaryOp op l r) :=
  modPositive_of_created (createBinaryOp_cases op l r) h

theorem modPositive_of_wf (h : e.Wf True ρ) : ModPositive ρ e := by
  induction e
  case var   => trivial
  case const => trivial
  case binary op l r hl hr =>
    refine ⟨hl h.1, hr h.2.1, fun ho => ?_⟩
    obtain ⟨c, hc, rfl⟩ := h.2.2.positive trivial (.inl ho)
    exact hc

end ModPositive

section Sound

variable {op : BinaryOp} {lhs rhs i : Interval} {a b : Int}

theorem not_overflows_add (h : AddFits lhs rhs) (hl : a ∈ lhs) (hr : b ∈ rhs) :
    ¬overflows (a + b) := by
  simp only [AddFits, overflows] at h
  simp only [Interval.mem_def] at hl hr
  simp only [overflows]
  omega

theorem not_overflows_mul (h : MulFits lhs rhs) (hl : a ∈ lhs) (hr : b ∈ rhs) :
    ¬overflows (a * b) := by
  simp only [MulFits, overflows] at h
  simp only [overflows]
  have hlow (p : Int) : min (lhs.lower * p) (lhs.upper * p) ≤ a * p ∧ a * p ≤ max (lhs.lower * p) (lhs.upper * p) := by
    cases le_total 0 p
    case inl hp =>
      have h₁ := mul_le_mul_of_nonneg_right hl.1 hp
      have h₂ := mul_le_mul_of_nonneg_right hl.2 hp
      omega
    case inr hp =>
      have h₁ := mul_le_mul_of_nonpos_right hl.1 hp
      have h₂ := mul_le_mul_of_nonpos_right hl.2 hp
      omega
  have h₁ := hlow rhs.lower
  have h₂ := hlow rhs.upper
  cases le_total 0 a
  case inl ha =>
    have h₃ := mul_le_mul_of_nonneg_left hr.1 ha
    have h₄ := mul_le_mul_of_nonneg_left hr.2 ha
    omega
  case inr ha =>
    have h₃ := mul_le_mul_of_nonpos_left hr.1 ha
    have h₄ := mul_le_mul_of_nonpos_left hr.2 ha
    omega

theorem not_overflows_of_opFits (h : opFits op lhs rhs) (hl : a ∈ lhs) (hr : b ∈ rhs)
    (ho : op = .add ∨ op = .mul) : ¬overflows (op.eval a b) := by
  cases ho
  case inl ho =>
    subst ho
    exact not_overflows_add (by simpa [opFits] using h) hl hr
  case inr ho =>
    subst ho
    exact not_overflows_mul (by simpa [opFits] using h) hl hr

theorem fdiv_mem_range (hb : b ≠ 0) (hl : a ∈ lhs) :
    min (lhs.lower.fdiv b) (lhs.upper.fdiv b) ≤ a.fdiv b ∧
      a.fdiv b ≤ max (lhs.lower.fdiv b) (lhs.upper.fdiv b) := by
  cases lt_or_gt_of_ne hb
  case inr hb =>
    have h₁ := Int.ediv_le_ediv hb hl.1
    have h₂ := Int.ediv_le_ediv hb hl.2
    simp only [Int.fdiv_eq_ediv_of_nonneg _ hb.le]
    omega
  case inl hb =>
    have hb := Int.neg_pos.mpr hb
    have h₁ := Int.ediv_le_ediv hb (Int.neg_le_neg hl.1)
    have h₂ := Int.ediv_le_ediv hb (Int.neg_le_neg hl.2)
    have hneg (x : Int) : x.fdiv b = (-x) / (-b) := by
      rw [← Int.neg_fdiv_neg, Int.fdiv_eq_ediv_of_nonneg _ hb.le]
    simp only [hneg]
    omega

theorem mem_computeOpRange (hf : op = .add ∨ op = .mul → ¬overflows (op.eval a b)) (hl : a ∈ lhs)
    (hr : b ∈ rhs) (hp : op = .mod → 0 < b) (h : computeOpRange op lhs rhs = some i) :
    op.eval a b ∈ i := by
  cases op <;> simp only [computeOpRange] at h
  case add     => exact Option.some.inj h ▸ Interval.mem_add (hf <| .inl rfl) hl hr
  case mul     => exact Option.some.inj h ▸ Interval.mem_mul (hf <| .inr rfl) hl hr
  case min     => exact Option.some.inj h ▸ Interval.mem_min hl hr
  case max     => exact Option.some.inj h ▸ Interval.mem_max hl hr
  case ceilDiv => contradiction
  case mod =>
    have hb := hp rfl
    split at h
    case isFalse => contradiction
    case isTrue hpt =>
      obtain rfl := Interval.eq_of_isPoint hpt hr
      cases h
      have hm := Int.emod_nonneg a hb.ne'
      have hm' := Int.emod_lt_of_pos a hb
      rw [BinaryOp.eval, modulo_eq_emod hb.ne', Interval.mem_def]
      split
      case isTrue h =>
        rw [Interval.mem_def] at hl
        rw [Int.emod_eq_of_lt (by omega) (by omega)]
        exact hl
      case isFalse => exact ⟨hm, by simp only; omega⟩
  case floorDiv =>
    split at h
    case isFalse => contradiction
    case isTrue hpt =>
      obtain rfl := Interval.eq_of_isPoint hpt.1 hr
      cases h
      exact fdiv_mem_range hpt.2 hl

theorem divisor_pos (h : DivisorOk True ρ op r) (ho : op = .mod ∨ op = .floorDiv) :
    0 < r.eval ρ := by
  have ⟨c, hc, he⟩ := h.positive trivial ho
  exact he ▸ hc

-- The values of the subexpressions that are sums or products do not overflow.
def ValuesFit (ρ : Nat → Int) : SymbolicExpr → Prop
  | var _         => True
  | const _       => True
  | binary op l r =>
    ValuesFit ρ l ∧ ValuesFit ρ r ∧ (op = .add ∨ op = .mul → ¬overflows ((binary op l r).eval ρ))

theorem mem_computeExpressionRange (hb : m.InBounds ρ) (hc : uc → m.ConstraintsSatisfied ρ)
    (hw : ModPositive ρ e) (hf : ValuesFit ρ e) (h : m.computeExpressionRange uc e = some i) :
    e.eval ρ ∈ i := by
  induction e generalizing i
  case var id  => exact hb id i h
  case const v =>
    cases h
    simp [Interval.mem_def]
  case binary op l r hil hir =>
    obtain ⟨lhs, hlhs, h⟩ := Option.bind_eq_some_iff.mp h
    obtain ⟨rhs, hrhs, h⟩ := Option.bind_eq_some_iff.mp h
    obtain ⟨result, hresult, h⟩ := Option.bind_eq_some_iff.mp h
    have hv : (binary op l r).eval ρ ∈ result :=
      mem_computeOpRange hf.2.2 (hil hw.1 hf.1 hlhs) (hir hw.2.1 hf.2.1 hrhs) hw.2.2 hresult
    split at h
    case isFalse => exact Option.some.inj h ▸ hv
    case isTrue hu =>
      split at h
      case h_2 => exact Option.some.inj h ▸ hv
      case h_1 range hl =>
        obtain ⟨l₁, l₂, hm, _⟩ := List.lookup_eq_some_iff.mp hl
        have hr := hc hu (binary op l r, range) (by simp [hm])
        exact Option.some.inj h ▸ Interval.mem_intersect hv hr

-- Endpoints that fit bound the values of the subexpressions.
theorem valuesFit_of_fits (hb : m.InBounds ρ) (hc : uc → m.ConstraintsSatisfied ρ)
    (hw : ModPositive ρ e) (hf : m.fits uc e) (hi : (m.computeExpressionRange uc e).isSome) :
    ValuesFit ρ e := by
  induction e
  case var   => trivial
  case const => trivial
  case binary op l r hil hir =>
    obtain ⟨i, h⟩ := Option.isSome_iff_exists.mp hi
    obtain ⟨lhs, hlhs, h⟩ := Option.bind_eq_some_iff.mp h
    obtain ⟨rhs, hrhs, h⟩ := Option.bind_eq_some_iff.mp h
    simp only [fits, hlhs, hrhs, Bool.and_eq_true] at hf
    have hl := hil hw.1 hf.1.1 (hlhs ▸ rfl)
    have hr := hir hw.2.1 hf.1.2 (hrhs ▸ rfl)
    exact ⟨hl, hr, not_overflows_of_opFits hf.2 (mem_computeExpressionRange hb hc hw.1 hl hlhs)
      (mem_computeExpressionRange hb hc hw.2.1 hr hrhs)⟩

theorem mem_checkedRange (hb : m.InBounds ρ) (hc : uc → m.ConstraintsSatisfied ρ)
    (hw : ModPositive ρ e) (h : m.checkedRange uc e = some i) : e.eval ρ ∈ i := by
  rw [checkedRange] at h
  split at h
  case isTrue hf => exact mem_computeExpressionRange hb hc hw (valuesFit_of_fits hb hc hw hf (h ▸ rfl)) h
  case isFalse   => contradiction

end Sound

section Supported

-- The expressions over the variables of the map that are supported by the range evaluator.
def Supported (m : IndexingMap) : SymbolicExpr → Prop
  | var id        => (m.variableBound id).isSome
  | const _       => True
  | binary op l r => m.Supported l ∧ m.Supported r ∧ op ≠ .ceilDiv

theorem wf_of_computeExpressionRange (hp : e.PositiveDivisors)
    (h : (m.computeExpressionRange uc e).isSome) : e.Wf True ρ := by
  induction e
  case var   => trivial
  case const => trivial
  case binary op l r hil hir =>
    obtain ⟨i, h⟩ := Option.isSome_iff_exists.mp h
    obtain ⟨lhs, hlhs, h⟩ := Option.bind_eq_some_iff.mp h
    obtain ⟨rhs, hrhs, h⟩ := Option.bind_eq_some_iff.mp h
    obtain ⟨result, hresult, h⟩ := Option.bind_eq_some_iff.mp h
    refine ⟨hil hp.1 (hlhs ▸ rfl), hir hp.2.1 (hrhs ▸ rfl), ?_, fun _ => hp.2.2⟩
    intro ho
    cases op <;> simp [BinaryOp.isDivision] at ho
    case ceilDiv => simp [computeOpRange] at hresult
    all_goals
      obtain ⟨c, hc, rfl⟩ := hp.2.2 (by simp)
      exact hc.ne'

theorem computeOpRange_isSome (ho : op ≠ .ceilDiv)
    (h : op = .mod ∨ op = .floorDiv → ∃ c > 0, rhs = ⟨c, c⟩) :
    (computeOpRange op lhs rhs).isSome := by
  cases op <;> simp [computeOpRange] at ho h ⊢
  case mod =>
    obtain ⟨c, _, rfl⟩ := h
    exact Interval.isPoint_iff.mpr rfl
  case floorDiv =>
    obtain ⟨c, hc, rfl⟩ := h
    exact ⟨Interval.isPoint_iff.mpr rfl, hc.ne'⟩

theorem computeExpressionRange_isSome (hp : e.PositiveDivisors) (hs : m.Supported e) :
    (m.computeExpressionRange uc e).isSome := by
  induction e
  case var   => exact hs
  case const => rfl
  case binary op l r hil hir =>
    obtain ⟨lhs, hlhs⟩ := Option.isSome_iff_exists.mp (hil hp.1 hs.1)
    obtain ⟨rhs, hrhs⟩ := Option.isSome_iff_exists.mp (hir hp.2.1 hs.2.1)
    have hop : (computeOpRange op lhs rhs).isSome := by
      refine computeOpRange_isSome hs.2.2 fun ho => ?_
      obtain ⟨c, hc, rfl⟩ := hp.2.2 ho
      exact ⟨c, hc, (Option.some.inj hrhs).symm⟩
    obtain ⟨result, hresult⟩ := Option.isSome_iff_exists.mp hop
    simp only [computeExpressionRange, hlhs, hrhs, hresult, Option.bind_eq_bind, Option.bind_some]
    repeat' split
    all_goals rfl

end Supported

theorem computeExpressionRange_sound (m : IndexingMap) (useConstraints : Bool) (e : SymbolicExpr)
    (ρ : Nat → Int) (hp : e.PositiveDivisors) (hb : m.InBounds ρ)
    (hc : useConstraints → m.ConstraintsSatisfied ρ) (hf : ValuesFit ρ e) :
    (∀ i, m.computeExpressionRange useConstraints e = some i → e.eval ρ ∈ i) ∧
    (m.Supported e → (m.computeExpressionRange useConstraints e).isSome) where
  left _ h :=
    have hw := wf_of_computeExpressionRange hp <| Option.isSome_of_eq_some h
    mem_computeExpressionRange hb hc (modPositive_of_wf hw) hf h
  right    := computeExpressionRange_isSome hp

-- The lower bound of the sum is saturated, its upper bound is given by the constraint.
theorem computeExpressionRange_sound_saturated :
    let sum := binary .add (var 0) (var 1)
    let m : IndexingMap := {
      symbolicMap  := ⟨1, 1, []⟩
      dimVars      := [⟨kMin, 5⟩]
      rangeVars    := [⟨-2, 3⟩]
      rtVars       := []
      constraints  := [(sum, ⟨-9, 4⟩)]
      isKnownEmpty := false
    }
    let e := binary .mod (binary .mul sum (const 3)) (const 7)
    let ρ := fun id => if id = 0 then -6 else 3
    m.computeExpressionRange false sum = some ⟨kMin, 8⟩ ∧
    (∀ i, m.computeExpressionRange true e = some i → e.eval ρ ∈ i) ∧
    (m.Supported e → (m.computeExpressionRange true e).isSome) := by
  refine ⟨by decide, computeExpressionRange_sound _ _ _ _ ?_ ?_ (fun _ => ?_) ?_⟩
  · simp [PositiveDivisors]
  · decide
  · decide
  · simp [ValuesFit, overflows, eval, BinaryOp.eval, kMin, kMax]

end Indexing.IndexingMap
