import XlaModel.Indexing.ConstraintSimplifier
import XlaModel.Indexing.Theorems.Simplify

namespace Indexing

open Symbolic SymbolicExpr Fallible IndexingMap

variable {ρ : Nat → Int} {range range' : SymbolicExpr → Option Interval} {e e' : SymbolicExpr}
  {i i' : Interval} {c g : Int}

theorem closed_modPositive : Closed (ModPositive ρ) where
  const _   := trivial
  add hl hr := modPositive_createBinaryOp ⟨hl, hr, by simp⟩
  mul hl hr := modPositive_createBinaryOp ⟨hl, hr, by simp⟩
  lhs h     := h.1
  rhs h     := h.2.1

section Add

def ShiftFits (p : Int) (i : Interval) : Prop :=
  ¬overflows (i.lower - p) ∧ ¬overflows (i.upper - p)

-- The summands without a multiplier are dropped. Their range is `b`.
structure Drops (range : SymbolicExpr → Option Interval) (add : SymbolicExpr) (i : Interval)
    (multiplied : SymbolicExpr) (g : Int) (b : Interval) : Prop where
  lower : i.lower = 0
  gcd   : g ≠ 1
  split : ∃ notMultiplied, splitSumByGcd range add = some (multiplied, g, notMultiplied) ∧
    range notMultiplied = some b
  point : ((Interval.sub ⟨i.upper, i.upper⟩ b).floorDiv g).isPoint

-- The dropped summands do not affect the constraint, as the multiples of `g` and the upper bound are
-- on the same side after adding them.
def DropExact (range : SymbolicExpr → Option Interval) (add : SymbolicExpr) (i : Interval) : Prop :=
  ∀ multiplied g b, Drops range add i multiplied g b →
    (0 ≤ b.lower ∧ b.upper ≤ i.upper % g) ∨ i.upper < 0

-- Summands are only dropped if the right-hand side is not a point.
def AddExact (range : SymbolicExpr → Option Interval) (add : SymbolicExpr) (i : Interval) : Prop :=
  ∀ l r rhs, add = binary .add l r → range r = some rhs →
    if rhs.isPoint then ShiftFits rhs.lower i else DropExact range add i

theorem wrap64_eq {v : Int} (h : ¬overflows v) : wrap64 v = v := by
  simp only [overflows, kMin, kMax] at h
  rw [wrap64]
  omega

theorem dropNotMultiplied_eq_some_iff {s : SymbolicExpr × Interval} :
    dropNotMultiplied range e i = some (some s) ↔
      ∃ multiplied g b, Drops range e i multiplied g b ∧ s = (multiplied.mul (const g), i) := by
  simp only [dropNotMultiplied]
  constructor
  case mp =>
    intro h
    split at h
    case isTrue     => simp at h
    case isFalse hl =>
      obtain ⟨⟨multiplied, g, notMultiplied⟩, hs, h⟩ := Option.bind_eq_some_iff.mp h
      dsimp only at h
      split at h
      case isTrue     => simp at h
      case isFalse hg =>
        obtain ⟨b, hb, h⟩ := Option.bind_eq_some_iff.mp h
        split at h
        case isFalse   => simp at h
        case isTrue hp =>
          have hs' : (multiplied.mul (const g), i) = s := by simpa using h
          exact ⟨multiplied, g, b, ⟨not_not.mp hl, hg, ⟨notMultiplied, hs, hb⟩, hp⟩, hs'.symm⟩
  case mpr =>
    rintro ⟨multiplied, g, b, ⟨hl, hg, ⟨notMultiplied, hs, hb⟩, hp⟩, rfl⟩
    simp [hl, hs, hg, hb, hp]

theorem nonneg_of_neg_lt_mul {a g : Int} (h : -|g| < a * g) : 0 ≤ a * g := by
  by_contra hn
  have ha : a ≠ 0 := by
    rintro rfl
    simp at hn
  have h₁ : 1 ≤ |a| := Int.one_le_abs ha
  have h₂ := mul_le_mul_of_nonneg_right h₁ (abs_nonneg g)
  rw [← abs_mul, abs_of_neg (not_le.mp hn)] at h₂
  omega

theorem drop_iff {a b ub : Int} (hl : 0 ≤ b) (hu : b ≤ ub % g) :
    0 ≤ a * g + b ∧ a * g + b ≤ ub ↔ 0 ≤ a * g ∧ a * g ≤ ub := by
  by_cases hg : g = 0
  case pos =>
    rw [hg, Int.emod_zero] at hu
    simp only [hg, mul_zero]
    omega
  have hlt := Int.emod_lt_abs ub hg
  have hub := Int.mul_ediv_add_emod ub g
  have h₁ : 0 ≤ a * g + b ↔ 0 ≤ a * g :=
    ⟨fun h => nonneg_of_neg_lt_mul (by omega), fun h => by omega⟩
  have h₂ : a * g + b ≤ ub ↔ a * g ≤ ub := by
    refine ⟨fun h => by omega, fun h => ?_⟩
    have := nonneg_of_neg_lt_mul (a := ub / g - a) (g := g) (by linarith)
    linarith
  rw [h₁, h₂]

-- The constraint `e' ∈ i'` is equivalent to the constraint `e ∈ i`.
def Equivalent (ρ : Nat → Int) (e : SymbolicExpr) (i : Interval) (e' : SymbolicExpr) (i' : Interval) : Prop :=
  e.eval ρ ∈ i ↔ e'.eval ρ ∈ i'

theorem dropNotMultiplied_ensures (hr : RangeSound (ModPositive ρ) ρ range) (hw : ModPositive ρ e)
    (hx : DropExact range e i) :
    Ensures (dropNotMultiplied range e i) (fun s? => ∀ s, s? = some s → Equivalent ρ e i s.1 s.2) := by
  refine .imp (.of_eq _) fun s? hs? s hs => ?_
  obtain ⟨multiplied, g, b, hd, rfl⟩ := dropNotMultiplied_eq_some_iff.mp (hs ▸ hs?)
  have hx := hx multiplied g b hd
  obtain ⟨hl, _, ⟨notMultiplied, hsplit, hb⟩, _⟩ := hd
  obtain ⟨_, hwn, hv⟩ := splitSumByGcd_ensures hr closed_modPositive hw _ hsplit
  have hb := hr _ _ hwn hb
  simp only [Equivalent, Interval.mem_def, hl, hv, eval_mul, eval_const]
  cases hx
  case inl hx => exact drop_iff (hx.1.trans hb.1) (hb.2.trans hx.2)
  case inr hx => exact ⟨fun h => by omega, fun h => by omega⟩

theorem simplifyAddConstraint_ensures (hr : RangeSound (ModPositive ρ) ρ range) (hw : ModPositive ρ e)
    (hx : AddExact range e i) :
    Ensures (simplifyAddConstraint range e i)
      (fun s? => ∀ s, s? = some s → Equivalent ρ e i s.1 s.2) := by
  fun_cases simplifyAddConstraint (fun _ => none) e i
  case case2 hn =>
    simp only [simplifyAddConstraint]
    exact .pure (by simp)
  case case1 l r =>
    refine .bind (.of_eq _) fun rhs hrhs => ?_
    have hx := hx l r rhs rfl hrhs
    split
    case isFalse hp => exact dropNotMultiplied_ensures hr hw (by rwa [if_neg hp] at hx)
    case isTrue hp  =>
      rw [if_pos hp] at hx
      have hv := Interval.eq_of_isPoint hp (hr r rhs hw.2.1 hrhs)
      refine .pure fun s hs => ?_
      cases hs
      simp only [Equivalent, Interval.mem_def, eval_binary, BinaryOp.eval, hv, wrap64_eq hx.1, wrap64_eq hx.2]
      omega

theorem simplifyAddConstraint_refines (h : ∀ e, Refines (range e) (range' e)) (e : SymbolicExpr)
    (i : Interval) : Refines (simplifyAddConstraint range e i) (simplifyAddConstraint range' e i) := by
  simp only [simplifyAddConstraint]
  split
  case h_2 => exact .refl
  case h_1 =>
    refine .bind (h _) fun rhs => ?_
    split
    case isTrue  => exact .refl
    case isFalse =>
      simp only [dropNotMultiplied]
      split
      case isTrue  => exact .refl
      case isFalse =>
        refine .bind (splitSumByGcd_refines h _) fun p => ?_
        split
        case isTrue  => exact .refl
        case isFalse => exact .bind (h _) fun _ => .refl

theorem AddExact.of_refines (h : ∀ e, Refines (range e) (range' e)) (hx : AddExact range' e i) :
    AddExact range e i := by
  intro l r rhs he hrhs
  have hx := hx l r rhs he (h r rhs hrhs)
  split
  case isTrue hp  => rwa [if_pos hp] at hx
  case isFalse hp =>
    rw [if_neg hp] at hx
    intro multiplied g b hd
    obtain ⟨notMultiplied, hs, hb⟩ := hd.split
    exact hx multiplied g b { hd with split := ⟨notMultiplied, splitSumByGcd_refines h e _ hs, h _ b hb⟩ }

theorem rangeSound_checkedRange {m : IndexingMap} (hb : m.InBounds ρ) :
    RangeSound (ModPositive ρ) ρ (m.checkedRange false) :=
  fun _ _ hw hi => mem_checkedRange hb (by simp) hw hi

theorem simplifyAddConstraint_exact (m : IndexingMap) (add add' : SymbolicExpr) (i i' : Interval)
    (h : simplifyAddConstraint (m.computeExpressionRange false) add i = some (some (add', i')))
    (hf : simplifyAddConstraint (m.checkedRange false) add i ≠ none)
    (hx : AddExact (m.computeExpressionRange false) add i)
    (ρ : Nat → Int) (hb : m.InBounds ρ) (hw : ModPositive ρ add) :
    add.eval ρ ∈ i ↔ add'.eval ρ ∈ i' := by
  have hr := m.checkedRange_refines false
  have heq := (simplifyAddConstraint_refines hr add i).eq hf
  have he := simplifyAddConstraint_ensures (rangeSound_checkedRange hb) hw (hx.of_refines hr)
  exact he _ (heq ▸ h) _ rfl

-- The value of `d1` is at least three, so that the dropped summand excludes `d0 = 1`.
theorem simplifyAddConstraint_not_exact :
    let m : IndexingMap := {
      symbolicMap  := ⟨2, 0, []⟩
      dimVars      := [⟨0, 1⟩, ⟨3, 4⟩]
      rangeVars    := []
      rtVars       := []
      constraints  := []
      isKnownEmpty := false
    }
    let add := binary .add (binary .mul (var 0) (const 8)) (var 1)
    let add' := binary .mul (var 0) (const 8)
    let i : Interval := ⟨0, 10⟩
    let ρ := fun id => if id = 0 then 1 else 3
    simplifyAddConstraint (m.computeExpressionRange false) add i = some (some (add', i)) ∧
      m.InBounds ρ ∧ ¬(add.eval ρ ∈ i ↔ add'.eval ρ ∈ i) := by
  decide +kernel

theorem simplifyAddConstraint_exact_dropped :
    let m : IndexingMap := {
      symbolicMap  := ⟨2, 0, []⟩
      dimVars      := [⟨0, 9⟩, ⟨0, 4⟩]
      rangeVars    := []
      rtVars       := []
      constraints  := []
      isKnownEmpty := false
    }
    let add := binary .add (binary .mul (var 0) (const 8)) (var 1)
    let add' := binary .mul (var 0) (const 8)
    let i : Interval := ⟨0, 28⟩
    let ρ := fun id => if id = 0 then 3 else 4
    simplifyAddConstraint (m.computeExpressionRange false) add i = some (some (add', i)) ∧
      (add.eval ρ ∈ i ↔ add'.eval ρ ∈ i) := by
  intro m add add' i ρ
  have h : simplifyAddConstraint (m.computeExpressionRange false) add i = some (some (add', i)) := by
    decide +kernel
  refine ⟨h, simplifyAddConstraint_exact m add add' i i h (by decide +kernel) ?exact ρ (by decide) ?positive⟩
  case exact =>
    intro l r rhs he hr
    obtain ⟨rfl, rfl⟩ : binary .mul (var 0) (const 8) = l ∧ var 1 = r := by simpa [add] using he
    cases hr
    rw [if_neg (by decide)]
    intro multiplied g b hd
    obtain ⟨notMultiplied, hs, hb⟩ := hd.split
    have hs' : splitSumByGcd (m.computeExpressionRange false) add = some (var 0, 8, var 1) := by
      decide +kernel
    cases hs'.symm.trans hs
    cases hb
    decide
  case positive => simp [add, ModPositive]

end Add

-- The constraint that a rule returns, in terms of the values: `v` is in the new range if and only if
-- `read v` is in the old one. The source reads a quotient by a negative constant as if it was rounded up,
-- and a sum without the dropped summands.
section Reading

variable {l r : SymbolicExpr} {v p : Int} {read : Int → Int}

def roundedDiv (v p : Int) : Int :=
  if p < 0 then -v.fdiv (-p) else v.fdiv p

def Interval.negated (i : Interval) (p : Int) : Interval :=
  if p < 0 then ⟨-i.upper, -i.lower⟩ else i

-- The interval of the numbers with a multiple in the interval.
def Interval.quotients (i : Interval) (p : Int) : Interval :=
  ⟨divideCeil (i.negated p).lower |p|, (i.negated p).upper.fdiv |p|⟩

-- The interval of the numbers with a rounded quotient in the interval.
def Interval.dividends (i : Interval) (p : Int) : Interval :=
  ⟨(i.negated p).lower * |p|, ((i.negated p).upper + 1) * |p| - 1⟩

inductive Reads (range : SymbolicExpr → Option Interval) :
    SymbolicExpr → Interval → SymbolicExpr → Interval → (Int → Int) → Prop
  | shift {l r : SymbolicExpr} {i : Interval} {p : Int} (rhs : range r = some ⟨p, p⟩) :
    Reads range (binary .add l r) i l ⟨i.lower - p, i.upper - p⟩ (· + p)
  | drop {l r multiplied : SymbolicExpr} {i b b' : Interval} {g : Int} (rhs : range r = some b)
      (noPoint : ¬b.isPoint) (drops : Drops range (binary .add l r) i multiplied g b') :
    Reads range (binary .add l r) i (multiplied.mul (const g)) i id
  | mul {l r : SymbolicExpr} {i : Interval} {p : Int} (rhs : range r = some ⟨p, p⟩) (nonzero : p ≠ 0) :
    Reads range (binary .mul l r) i l (i.quotients p) (· * p)
  | floorDiv {l r : SymbolicExpr} {i : Interval} {p : Int} (rhs : range r = some ⟨p, p⟩)
      (nonzero : p ≠ 0) :
    Reads range (binary .floorDiv l r) i l (i.dividends p) (roundedDiv · p)

def NegationFits (p : Int) (i : Interval) : Prop :=
  p < 0 → ¬overflows (-p) ∧ ¬overflows (-i.lower) ∧ ¬overflows (-i.upper)

def DividendsFit (p : Int) (i : Interval) : Prop :=
  ¬overflows (i.dividends p).lower ∧ ¬overflows (i.dividends p).upper

-- The rule that is applied next computes without overflow. The divisor of a quotient is not zero.
def EndpointsFit (range : SymbolicExpr → Option Interval) (e : SymbolicExpr) (i : Interval) : Prop :=
  match e with
  | binary .add _ r      => ∀ p, range r = some ⟨p, p⟩ → ShiftFits p i
  | binary .mul _ r      => ∀ p, range r = some ⟨p, p⟩ → NegationFits p i
  | binary .floorDiv _ r => ∀ p, range r = some ⟨p, p⟩ → p ≠ 0 ∧ NegationFits p i ∧ DividendsFit p i
  | _                    => True

theorem mem_negated : v ∈ i.negated p ↔ (if p < 0 then -v else v) ∈ i := by
  simp only [Interval.negated]
  split <;> simp only [Interval.mem_def]
  omega

theorem mem_quotients (h : p ≠ 0) : v ∈ i.quotients p ↔ v * p ∈ i := by
  have hpos : 0 < |p| := abs_pos.mpr h
  have hv : v * p = if p < 0 then -(v * |p|) else v * |p| := by
    split
    case isTrue hp  => rw [abs_of_neg hp, mul_neg, neg_neg]
    case isFalse hp => rw [abs_of_nonneg (not_lt.mp hp)]
  rw [hv, ← mem_negated, Interval.quotients, Interval.mem_def, Interval.mem_def]
  simp only [divideCeil, Int.fdiv_eq_ediv_of_nonneg _ hpos.le]
  have hl : -(-(i.negated p).lower / |p|) ≤ v ↔ (i.negated p).lower ≤ v * |p| := by
    rw [neg_le, Int.le_ediv_iff_mul_le hpos]
    constructor <;> intro h <;> linarith
  rw [hl, Int.le_ediv_iff_mul_le hpos]

theorem mem_dividends (h : p ≠ 0) : v ∈ i.dividends p ↔ roundedDiv v p ∈ i := by
  have hpos : 0 < |p| := abs_pos.mpr h
  have hv : roundedDiv v p = if p < 0 then -v.fdiv |p| else v.fdiv |p| := by
    rw [roundedDiv]
    split
    case isTrue hp  => rw [abs_of_neg hp]
    case isFalse hp => rw [abs_of_nonneg (not_lt.mp hp)]
  rw [hv, ← mem_negated, Interval.dividends, Interval.mem_def, Interval.mem_def,
    Int.fdiv_eq_ediv_of_nonneg _ hpos.le, Int.le_ediv_iff_mul_le hpos,
    ← Int.lt_add_one_iff (b := (i.negated p).upper), Int.ediv_lt_iff_lt_mul hpos, Int.le_sub_one_iff]

theorem Reads.mem_iff (h : Reads range e i e' i' read) : v ∈ i' ↔ read v ∈ i := by
  cases h
  case shift p _ =>
    simp only [Interval.mem_def]
    omega
  case drop       => rfl
  case mul hp     => exact mem_quotients hp
  case floorDiv hp => exact mem_dividends hp

theorem negateRange_eq (h : NegationFits p i) : negateRange p i = i.negated p := by
  simp only [negateRange, Interval.negated]
  split
  case isTrue hp => rw [wrap64_eq (h hp).2.1, wrap64_eq (h hp).2.2]
  case isFalse   => rfl

theorem negateConstant_eq (h : NegationFits p i) : negateConstant p = |p| := by
  simp only [negateConstant]
  split
  case isTrue hp  => rw [wrap64_eq (h hp).1, abs_of_neg hp]
  case isFalse hp => rw [abs_of_nonneg (not_lt.mp hp)]

theorem simplifyMulConstraint_eq (h : NegationFits p i) :
    simplifyMulConstraint p i = if p = 0 then none else some (i.quotients p) := by
  simp only [simplifyMulConstraint, negateRange_eq h, negateConstant_eq h, Interval.quotients]

theorem simplifyFloorDivConstraint_eq (hn : NegationFits p i) (hd : DividendsFit p i) :
    simplifyFloorDivConstraint p i = i.dividends p := by
  simp only [simplifyFloorDivConstraint, negateRange_eq hn, negateConstant_eq hn]
  exact congrArg₂ Interval.mk (wrap64_eq hd.1) (wrap64_eq hd.2)

theorem simplifyConstraintRangeOnce_of_reads (hf : EndpointsFit range e i)
    (h : Reads range e i e' i' read) :
    simplifyConstraintRangeOnce range e i = some (some (e', i')) := by
  cases h
  case shift p hr =>
    have hf := hf p hr
    simp [simplifyConstraintRangeOnce, simplifyAddConstraint, hr, Interval.isPoint, wrap64_eq hf.1,
      wrap64_eq hf.2]
  case drop hr hp hd =>
    have hd := dropNotMultiplied_eq_some_iff.mpr ⟨_, _, _, hd, rfl⟩
    simp [simplifyConstraintRangeOnce, simplifyAddConstraint, hr, hp, hd]
  case mul p hr hp =>
    have hm := simplifyMulConstraint_eq (hf p hr)
    simp [simplifyConstraintRangeOnce, hr, Interval.isPoint, hm, hp]
  case floorDiv p hr _ =>
    have hd := simplifyFloorDivConstraint_eq (hf p hr).2.1 (hf p hr).2.2
    simp [simplifyConstraintRangeOnce, hr, Interval.isPoint, hd]

theorem exists_reads (hf : EndpointsFit range e i)
    (h : simplifyConstraintRangeOnce range e i = some (some (e', i'))) :
    ∃ read, Reads range e i e' i' read := by
  fun_cases simplifyConstraintRangeOnce (fun _ => none) e i
  case case1 => simp [simplifyConstraintRangeOnce] at h
  case case2 => simp [simplifyConstraintRangeOnce] at h
  case case3 l r =>
    obtain ⟨b, hr, h⟩ := Option.bind_eq_some_iff.mp h
    split at h
    case isTrue hp =>
      rw [Interval.eq_mk_of_isPoint hp] at hr
      have hf := hf b.lower hr
      simp only [wrap64_eq hf.1, wrap64_eq hf.2, Option.pure_def, Option.some.injEq, Prod.mk.injEq] at h
      obtain ⟨rfl, rfl⟩ := h
      exact ⟨_, .shift hr⟩
    case isFalse hp =>
      obtain ⟨_, _, _, hd, he⟩ := dropNotMultiplied_eq_some_iff.mp h
      cases he
      exact ⟨_, .drop hr hp hd⟩
  case case4 op l r hn =>
    have ho : op ≠ .add := fun h => hn h
    simp only [simplifyConstraintRangeOnce] at h
    obtain ⟨b, hr, h⟩ := Option.bind_eq_some_iff.mp h
    split at h
    case isTrue     => simp at h
    case isFalse hp =>
      rw [Interval.eq_mk_of_isPoint (not_not.mp hp)] at hr
      split at h
      case h_3 => simp at h
      case h_1 =>
        obtain ⟨j, hj, h⟩ := Option.bind_eq_some_iff.mp h
        rw [simplifyMulConstraint_eq (hf b.lower hr)] at hj
        split at hj
        case isTrue     => contradiction
        case isFalse hz =>
          cases hj
          cases h
          exact ⟨_, .mul hr hz⟩
      case h_2 =>
        replace hf := hf b.lower hr
        rw [simplifyFloorDivConstraint_eq hf.2.1 hf.2.2] at h
        cases h
        exact ⟨_, .floorDiv hr hf.1⟩

-- The values between two multiples of the divisor are on the wrong side of the bounds.
def InGap (p : Int) (i : Interval) (v : Int) : Prop :=
  ((i.upper + 1) * p < v ∧ v < i.upper * p) ∨ (i.lower * p < v ∧ v < (i.lower - 1) * p)

theorem fdiv_mem_iff_of_neg (h : p < 0) : v.fdiv p ∈ i ↔ (i.upper + 1) * p < v ∧ v ≤ i.lower * p := by
  have hpos := Int.neg_pos.mpr h
  have h₁ : i.lower ≤ -v / -p ↔ v ≤ i.lower * p := by
    rw [Int.le_ediv_iff_mul_le hpos]
    constructor <;> intro h <;> linarith
  have h₂ : -v / -p ≤ i.upper ↔ (i.upper + 1) * p < v := by
    rw [← Int.lt_add_one_iff, Int.ediv_lt_iff_lt_mul hpos]
    constructor <;> intro h <;> linarith
  rw [← Int.neg_fdiv_neg, Int.fdiv_eq_ediv_of_nonneg _ hpos.le, Interval.mem_def, h₁, h₂, and_comm]

-- A quotient is misread if and only if the dividend is in a gap.
theorem roundedDiv_mem_iff (h₀ : p ≠ 0) :
    (v.fdiv p ∈ i ↔ roundedDiv v p ∈ i) ↔ 0 < p ∨ i.upper < i.lower ∨ ¬InGap p i v := by
  cases lt_or_gt_of_ne h₀
  case inr hpos =>
    rw [roundedDiv, if_neg hpos.le.not_gt]
    exact iff_of_true Iff.rfl (.inl hpos)
  case inl hneg =>
    have hs : v ∈ i.dividends p ↔ i.upper * p ≤ v ∧ v < (i.lower - 1) * p := by
      simp only [Interval.dividends, Interval.negated, if_pos hneg, Interval.mem_def, abs_of_neg hneg,
        Int.le_sub_one_iff, neg_mul_neg]
      rw [show (-i.lower + 1) * -p = (i.lower - 1) * p by ring]
    have hu : (i.upper + 1) * p = i.upper * p + p := by ring
    have hl : (i.lower - 1) * p = i.lower * p - p := by ring
    rw [← mem_dividends h₀, fdiv_mem_iff_of_neg hneg, hs, InGap, hu, hl]
    cases lt_or_ge i.upper i.lower
    case inl hlt =>
      have := mul_le_mul_of_nonpos_right (show i.upper + 1 ≤ i.lower from hlt) hneg.le
      exact iff_of_true ⟨fun h => by omega, fun h => by omega⟩ (.inr (.inl hlt))
    case inr hle =>
      have := mul_le_mul_of_nonpos_right hle hneg.le
      omega

end Reading

-- The loop terminates, as the factors get smaller if they are divided by their gcd.
section Termination

variable {l r x : SymbolicExpr}

def factorWeight (rhs? : Option Interval) (default : Nat) : Nat :=
  match rhs? with
  | some rhs => if rhs.isPoint then rhs.lower.natAbs + 2 else default + 2
  | none     => default + 2

def weight (range : SymbolicExpr → Option Interval) : SymbolicExpr → Nat
  | var _           => 1
  | const _         => 1
  | binary .mul l r => weight range l * factorWeight (range r) (weight range r)
  | binary _ l r    => weight range l + weight range r + 1

theorem two_le_factorWeight (rhs? : Option Interval) (n : Nat) : 2 ≤ factorWeight rhs? n := by
  simp only [factorWeight]
  repeat' split
  all_goals omega

theorem weight_pos (e : SymbolicExpr) : 0 < weight range e := by
  fun_induction weight range e
  case case1          => decide
  case case2          => decide
  case case3 hl _     => exact Nat.mul_pos hl (Nat.zero_lt_of_lt (two_le_factorWeight ..))
  case case4 hl hr    => omega

theorem weight_lt_mul (l r : SymbolicExpr) : weight range l < weight range (binary .mul l r) := by
  rw [weight]
  exact lt_mul_right (weight_pos l) (two_le_factorWeight ..)

theorem weight_add_le (l r : SymbolicExpr) :
    weight range (l.add r) ≤ weight range l + weight range r + 1 := by
  have := @weight_pos range l
  have := @weight_pos range r
  have h {e} (hc : Created .add l r e) : weight range e ≤ weight range l + weight range r + 1 := by
    cases hc
    case raw      => rfl
    case swapped  => exact (show weight range r + weight range l + 1 ≤ _ by omega)
    case fold     => exact (show 1 ≤ _ by omega)
    case left     => omega
    case right    => omega
    case mulConst => contradiction
    case constMul => contradiction
  exact h (createBinaryOp_cases ..)

variable (hc : ∀ c, range (const c) = some ⟨c, c⟩)

include hc

theorem weight_mul_const (l : SymbolicExpr) (c : Int) :
    weight range (binary .mul l (const c)) = weight range l * (c.natAbs + 2) := by
  simp [weight, hc, factorWeight, Interval.isPoint]

theorem weight_mulConst_le (e : SymbolicExpr) (c : Int) :
    weight range (e.mulConst c) ≤ weight range e * (c.natAbs + 2) := by
  have h₁ (e : SymbolicExpr) (c : Int) : weight range e ≤ weight range e * (c.natAbs + 2) :=
    Nat.le_mul_of_pos_right _ (by omega)
  have h₂ (e : SymbolicExpr) (c : Int) : 1 ≤ weight range e * (c.natAbs + 2) :=
    (weight_pos e).trans_le (h₁ e c)
  induction e generalizing c
  case const v => exact h₂ (const v) c
  case var id =>
    obtain ⟨_, he, _⟩ | ⟨_, he⟩ | ⟨_, he⟩ | ⟨_, _, he, _⟩ | ⟨_, _, he⟩ := mulConst_cases (var id) c
    case inl             => contradiction
    case inr.inl         => exact he ▸ h₂ (var id) c
    case inr.inr.inl     => exact he.symm ▸ h₁ (var id) c
    case inr.inr.inr.inl => contradiction
    case inr.inr.inr.inr => rw [he, weight_mul_const hc]
  case binary op l r hl _ =>
    obtain ⟨_, he, _⟩ | ⟨_, he⟩ | ⟨_, he⟩ | ⟨l', c₁, he, hm⟩ | ⟨_, _, he⟩ :=
      mulConst_cases (binary op l r) c
    case inl             => contradiction
    case inr.inl         => exact he ▸ h₂ (binary op l r) c
    case inr.inr.inl     => exact he.symm ▸ h₁ (binary op l r) c
    case inr.inr.inr.inl =>
      cases he
      rw [hm, weight_mul_const hc, mul_assoc]
      refine (hl _).trans (Nat.mul_le_mul_left _ ?_)
      have : (c₁.natAbs + 2) * (c.natAbs + 2) = c₁.natAbs * c.natAbs + 2 * c₁.natAbs + 2 * c.natAbs + 4 := by
        ring
      rw [Int.natAbs_mul]
      omega
    case inr.inr.inr.inr => rw [he, weight_mul_const hc]

-- A summand gets lighter if its factor gets smaller.
theorem weight_mul_lt (l : SymbolicExpr) {c d : Int} (h : c = 1 ∨ c = 0 ∨ c.natAbs < d.natAbs) :
    weight range (l.mul (const c)) < weight range l * (d.natAbs + 2) := by
  have hl := @weight_pos range l
  have h₁ : weight range l < weight range l * (d.natAbs + 2) := lt_mul_right hl (by omega)
  rw [mul_const]
  cases h
  case inl h => exact h.symm ▸ (mulConst_one l).symm ▸ h₁
  case inr h =>
    cases h
    case inl h =>
      have h₀ : l.mulConst 0 = const 0 := by cases l <;> simp [mulConst]
      exact h.symm ▸ h₀.symm ▸ lt_of_le_of_lt hl h₁
    case inr h =>
      exact (weight_mulConst_le hc l c).trans_lt (Nat.mul_lt_mul_of_pos_left (by omega) hl)

omit hc in
theorem weight_mapSummands {fn : σ → SymbolicExpr → Option (σ × SymbolicExpr)} {P : SymbolicExpr → Prop}
    (hf : ∀ s, ∀ x ∈ summands e, Ensures (fn s x) (fun p =>
      weight range p.2 ≤ weight range x ∧ (P x → weight range p.2 < weight range x))) :
    Ensures (mapSummands fn s e) (fun p => weight range p.2 ≤ weight range e ∧
      ((∃ x ∈ summands e, P x) → weight range p.2 < weight range e)) := by
  fun_induction mapSummands fn s e
  case case2 hn =>
    rw [summands_of_not_add hn] at hf ⊢
    simpa using hf _ _ (List.mem_singleton_self _)
  case case1 s l r hl hr =>
    simp only [summands, List.mem_append] at hf ⊢
    refine .bind (hl fun s x hx => hf s x (.inl hx)) fun p hp => ?_
    refine .bind (hr p.1 fun s x hx => hf s x (.inr hx)) fun q hq => .pure ?_
    have hadd := @weight_add_le range p.2 q.2
    have hw : weight range (binary .add l r) = weight range l + weight range r + 1 := rfl
    have hlt : (∃ x, (x ∈ summands l ∨ x ∈ summands r) ∧ P x) →
        weight range p.2 + weight range q.2 < weight range l + weight range r := by
      rintro ⟨x, hx, hP⟩
      cases hx
      case inl hx => exact Nat.add_lt_add_of_lt_of_le (hp.2 ⟨x, hx, hP⟩) hq.1
      case inr hx => exact Nat.add_lt_add_of_le_of_lt hp.1 (hq.2 ⟨x, hx, hP⟩)
    split
    case isTrue he =>
      rw [he.1, he.2] at hlt
      exact ⟨le_rfl, fun h => absurd (hlt h) (lt_irrefl _)⟩
    case isFalse =>
      refine ⟨?_, fun h => ?_⟩
      · exact hadd.trans (by omega)
      · have := hlt h
        exact hadd.trans_lt (by omega)

omit hc in
theorem quotient_cases {c g : Int} (h₀ : g ≠ 0) (h₁ : g ≠ 1) (h : g = c ∨ 0 ≤ g ∧ g ∣ c) :
    c.tdiv g = 1 ∨ c.tdiv g = 0 ∨ (c.tdiv g).natAbs < c.natAbs := by
  cases h
  case inl h => exact .inl (h ▸ Int.tdiv_self h₀)
  case inr h =>
    obtain ⟨hg, k, rfl⟩ := h
    rw [Int.mul_tdiv_cancel_left _ h₀]
    by_cases hk : k = 0
    case pos => exact .inr (.inl hk)
    case neg =>
      refine .inr (.inr ?_)
      rw [Int.natAbs_mul]
      exact lt_mul_left (Int.natAbs_pos.mpr hk) (by omega)

theorem weight_splitSumByGcd (e : SymbolicExpr) :
    Ensures (splitSumByGcd range e) (fun p => p.2.1 ≠ 1 → weight range p.1 < weight range e) := by
  refine .bind (multiplierGcd_ensures e) fun g? hg => ?_
  dsimp only
  split
  case isTrue => exact .pure (by simp)
  case isFalse hg₁ =>
    obtain ⟨g, rfl⟩ : ∃ g, g? = some g := Option.ne_none_iff_exists'.mp fun h => hg₁ (by simp [h])
    rw [Option.getD_some] at hg₁ ⊢
    let P (x : SymbolicExpr) : Prop := ∃ c, getConstantRhs range x .mul = some (some c)
    refine .bind (weight_mapSummands (e := e) (P := P) fun s x hx => ?_) fun p hp =>
      .pure fun _ => hp.2 (hg.nonempty rfl)
    refine .bind (.of_eq _) fun c? hcr => ?_
    cases c?
    case none   => exact .pure ⟨weight_pos x, fun ⟨c, h⟩ => by simp [hcr] at h⟩
    case some c =>
      obtain ⟨l, r, rhs, rfl, hrhs, hp, rfl⟩ := getConstantRhs_eq_some hcr
      have hw : weight range (binary .mul l r) = weight range l * (rhs.lower.natAbs + 2) := by
        simp [weight, hrhs, factorWeight, hp]
      obtain ⟨g', hg', hgcd⟩ := hg.gcd _ hx _ hcr
      cases hg'
      refine .bind quotient_ensures fun q hq => .pure ?_
      have hlt := weight_mul_lt hc l (quotient_cases hq.1 hg₁ hgcd)
      rw [← hw, ← hq.2] at hlt
      exact ⟨hlt.le, fun _ => hlt⟩

omit hc in
-- A product is stripped in the next step.
def stepsLeft (range : SymbolicExpr → Option Interval) : SymbolicExpr → Nat
  | binary .mul l _ => 2 * weight range l + 1
  | e               => 2 * weight range e

omit hc in
theorem stepsLeft_le (e : SymbolicExpr) : stepsLeft range e ≤ 2 * weight range e := by
  fun_cases stepsLeft range e
  case case2     => rfl
  case case1 l r =>
    have := @weight_lt_mul range l r
    omega

omit hc in
theorem stepsLeft_mulConst_le (e : SymbolicExpr) (c : Int) :
    stepsLeft range (e.mulConst c) ≤ 2 * weight range e + 1 := by
  have h₁ (e : SymbolicExpr) : 2 ≤ 2 * weight range e + 1 := by
    have := @weight_pos range e
    omega
  induction e generalizing c
  case const v => exact h₁ (const v)
  case var id =>
    obtain ⟨_, he, _⟩ | ⟨_, he⟩ | ⟨_, he⟩ | ⟨_, _, he, _⟩ | ⟨_, _, he⟩ := mulConst_cases (var id) c
    case inl             => contradiction
    case inr.inl         => exact he ▸ h₁ (var id)
    case inr.inr.inl     => exact he.symm ▸ h₁ (var id)
    case inr.inr.inr.inl => contradiction
    case inr.inr.inr.inr => exact he ▸ le_rfl
  case binary op l r hl _ =>
    obtain ⟨_, he, _⟩ | ⟨_, he⟩ | ⟨_, he⟩ | ⟨l', c₁, he, hm⟩ | ⟨_, _, he⟩ :=
      mulConst_cases (binary op l r) c
    case inl             => contradiction
    case inr.inl         => exact he ▸ h₁ (binary op l r)
    case inr.inr.inl     => exact he.symm ▸ (stepsLeft_le _).trans (Nat.le_succ _)
    case inr.inr.inr.inl =>
      cases he
      have := @weight_lt_mul range l (const c₁)
      exact hm ▸ (hl _).trans (by omega)
    case inr.inr.inr.inr => exact he ▸ le_rfl

theorem stepsLeft_lt (e : SymbolicExpr) (i : Interval) :
    Ensures (simplifyConstraintRangeOnce range e i)
      (fun s? => ∀ s, s? = some s → stepsLeft range s.1 < stepsLeft range e) := by
  fun_cases simplifyConstraintRangeOnce (fun _ => none) e i
  case case1 => exact .pure (by simp)
  case case2 => exact .pure (by simp)
  case case3 l r =>
    have hl := @stepsLeft_le range l
    have hw : stepsLeft range (binary .add l r) = 2 * (weight range l + weight range r + 1) := rfl
    refine .bind (.of_eq _) fun rhs _ => ?_
    split
    case isTrue =>
      refine .pure fun s hs => ?_
      cases hs
      exact hl.trans_lt (by omega)
    case isFalse =>
      simp only [dropNotMultiplied]
      split
      case isTrue  => exact .pure (by simp)
      case isFalse =>
        refine .bind (weight_splitSumByGcd hc _) fun p hp => ?_
        obtain ⟨multiplied, g, notMultiplied⟩ := p
        dsimp only
        split
        case isTrue     => exact .pure (by simp)
        case isFalse hg =>
          refine .bind (.of_eq _) fun b _ => ?_
          split
          case isFalse => exact .pure (by simp)
          case isTrue  =>
            refine .pure fun s hs => ?_
            cases hs
            have hp : weight range multiplied < weight range l + weight range r + 1 := hp hg
            rw [mul_const]
            exact (stepsLeft_mulConst_le multiplied g).trans_lt (by omega)
  case case4 op l r hn =>
    have hl := @stepsLeft_le range l
    simp only [simplifyConstraintRangeOnce]
    refine .bind (.of_eq _) fun rhs _ => ?_
    split
    case isTrue  => exact .pure (by simp)
    case isFalse =>
      split
      case h_1 =>
        refine .bind (.of_eq _) fun i' _ => .pure fun s hs => ?_
        cases hs
        exact Nat.lt_succ_of_le hl
      case h_2 =>
        refine .pure fun s hs => ?_
        cases hs
        exact hl.trans_lt (show _ < 2 * (weight range l + weight range r + 1) by omega)
      case h_3 => exact .pure (by simp)

end Termination

section Loop

-- The states that are reached by the loop.
def LoopReaches (range : SymbolicExpr → Option Interval) :
    SymbolicExpr × Interval → SymbolicExpr × Interval → Prop :=
  Relation.ReflTransGen fun s s' => simplifyConstraintRangeOnce range s.1 s.2 = some (some s')

-- By induction on the number of steps that are left.
theorem simplifyConstraintRange_terminates (hc : ∀ c, range (const c) = some ⟨c, c⟩)
    (h : ∀ s, LoopReaches range (e, i) s → simplifyConstraintRangeOnce range s.1 s.2 ≠ none) :
    ∃ result, ∃ N, ∀ n ≥ N, simplifyConstraintRange range n e i = some result := by
  induction hn : stepsLeft range e using Nat.strong_induction_on generalizing e i
  case h n hi =>
    obtain ⟨s?, hs⟩ := Option.ne_none_iff_exists'.mp (h (e, i) .refl)
    cases s?
    case none =>
      refine ⟨(false, e, i), 1, fun n hn => ?_⟩
      obtain ⟨n, rfl⟩ := Nat.exists_eq_add_of_le' hn
      simp [simplifyConstraintRange, hs]
    case some s =>
      have hlt := stepsLeft_lt hc e i _ hs s rfl
      obtain ⟨result, N, hN⟩ := hi _ (hn ▸ hlt) (e := s.1) (i := s.2) (fun s' hs' => h s' (hs'.head hs)) rfl
      refine ⟨(true, result.2), N + 1, fun n hn => ?_⟩
      obtain ⟨n, rfl⟩ := Nat.exists_eq_add_of_le' (Nat.le_of_add_left_le hn)
      simp [simplifyConstraintRange, hs, hN n (by omega)]

-- The value that the rules read instead of the value of the expression.
inductive ReadsAs (range : SymbolicExpr → Option Interval) :
    SymbolicExpr → Interval → ((Nat → Int) → Int) → Prop
  | unchanged {e : SymbolicExpr} {i : Interval} (h : simplifyConstraintRangeOnce range e i = some none) :
    ReadsAs range e i e.eval
  | step {e e' : SymbolicExpr} {i i' : Interval} {read : Int → Int} {value : (Nat → Int) → Int}
      (h : Reads range e i e' i' read) (hs : ReadsAs range e' i' value) :
    ReadsAs range e i (fun ρ => read (value ρ))

def NoOverflow (range : SymbolicExpr → Option Interval) (e : SymbolicExpr) (i : Interval) : Prop :=
  ∀ s, LoopReaches range (e, i) s → EndpointsFit range s.1 s.2

variable {value : (Nat → Int) → Int}

theorem NoOverflow.step (h : NoOverflow range e i)
    (hs : simplifyConstraintRangeOnce range e i = some (some (e', i'))) : NoOverflow range e' i' :=
  fun s hr => h s (hr.head hs)

theorem returns_of_readsAs (h : ReadsAs range e i value) (hf : NoOverflow range e i) :
    ∃ isSimplified e' i',
      (∃ N, ∀ n ≥ N, simplifyConstraintRange range n e i = some (isSimplified, e', i')) ∧
      ∀ ρ, e'.eval ρ ∈ i' ↔ value ρ ∈ i := by
  induction h
  case unchanged e i hs =>
    refine ⟨false, e, i, ⟨1, fun n hn => ?_⟩, fun _ => Iff.rfl⟩
    obtain ⟨n, rfl⟩ := Nat.exists_eq_add_of_le' hn
    simp [simplifyConstraintRange, hs]
  case step e e₁ i i₁ read value h _ hi =>
    have hs := simplifyConstraintRangeOnce_of_reads (hf (e, i) .refl) h
    obtain ⟨_, e', i', ⟨N, hN⟩, hiff⟩ := hi (hf.step hs)
    refine ⟨true, e', i', ⟨N + 1, fun n hn => ?_⟩, fun ρ => (hiff ρ).trans h.mem_iff⟩
    obtain ⟨n, rfl⟩ := Nat.exists_eq_add_of_le' (Nat.le_of_add_left_le hn)
    simp [simplifyConstraintRange, hs, hN n (by omega)]

-- By induction on the steps of the loop.
theorem readsAs_of_returns {n : Nat} {isSimplified : Bool} (hf : NoOverflow range e i)
    (h : simplifyConstraintRange range n e i = some (isSimplified, e', i')) :
    ∃ value, ReadsAs range e i value ∧ ∀ ρ, e'.eval ρ ∈ i' ↔ value ρ ∈ i := by
  induction n generalizing e i isSimplified
  case zero      => contradiction
  case succ n hi =>
    simp only [simplifyConstraintRange] at h
    obtain ⟨s?, hs, h⟩ := Option.bind_eq_some_iff.mp h
    cases s?
    case none =>
      cases h
      exact ⟨_, .unchanged hs, fun _ => Iff.rfl⟩
    case some s =>
      obtain ⟨e₁, i₁⟩ := s
      obtain ⟨⟨_, result⟩, hl, h⟩ := Option.bind_eq_some_iff.mp h
      cases h
      obtain ⟨read, hr⟩ := exists_reads (hf (e, i) .refl) hs
      obtain ⟨value, hv, hiff⟩ := hi (hf.step hs) hl
      exact ⟨_, .step hr hv, fun ρ => (hiff ρ).trans hr.mem_iff⟩

-- A product or a quotient by a constant is simplified.
theorem simplifyConstraintRange_const {op : BinaryOp} {n : Nat} {isSimplified : Bool} (m : IndexingMap)
    (ho : op = .mul ∨ op = .floorDiv) (hc : c ≠ 0)
    (h : simplifyConstraintRange (m.computeExpressionRange false) n (binary op e (const c)) i =
      some (isSimplified, e', i')) : isSimplified = true := by
  cases n
  case zero   => contradiction
  case succ n =>
    simp only [simplifyConstraintRange] at h
    obtain ⟨s?, hs, h⟩ := Option.bind_eq_some_iff.mp h
    cases s?
    case none =>
      cases ho
      all_goals
        subst op
        simp [simplifyConstraintRangeOnce, simplifyMulConstraint, computeExpressionRange, Interval.isPoint,
          hc] at hs
    case some s =>
      obtain ⟨_, _, h⟩ := Option.bind_eq_some_iff.mp h
      simp only [Option.some.injEq, Prod.mk.injEq] at h
      exact h.1.symm

end Loop

end Indexing
