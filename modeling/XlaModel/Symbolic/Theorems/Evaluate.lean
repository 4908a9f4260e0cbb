import XlaModel.Lib.Rounding
import XlaModel.Symbolic.Evaluate
import XlaModel.Symbolic.Theorems.Divisor

namespace Symbolic

variable {a b v : Int} {op : BinaryOp}

section Checked

theorem checked_eq_some_iff {w : Int} : checked v = some w ↔ Fits v ∧ v = w := by
  simp [checked]

theorem checked_of_fits (h : Fits v) : checked v = some v :=
  if_pos h

theorem fits_def : Fits v ↔ -9223372036854775808 ≤ v ∧ v ≤ 9223372036854775807 :=
  .rfl

theorem divisionIsUndefined_def : divisionIsUndefined a b ↔ b = 0 ∨ (a = -9223372036854775808 ∧ b = -1) :=
  .rfl

theorem fits_fdiv_iff (ha : Fits a) (hb : b ≠ 0) : Fits (a.fdiv b) ↔ ¬divisionIsUndefined a b := by
  rw [fits_def] at ha
  rw [divisionIsUndefined_def]
  constructor
  case mp =>
    rintro hf (h | ⟨rfl, rfl⟩)
    case inl => exact hb h
    case inr =>
      rw [fits_def, SignedDivision.fdiv_neg_one] at hf
      omega
  case mpr =>
    intro h
    have hf := SignedDivision.fdiv_mem (show 0 ≤ 9223372036854775807 by decide) hb ha.1 ha.2
    exact hf fun ha hb => h (.inr ⟨ha, hb⟩)

theorem fits_divideCeil_iff (ha : Fits a) (hb : b ≠ 0) : Fits (divideCeil a b) ↔ ¬divisionIsUndefined a b := by
  rw [fits_def] at ha
  rw [divisionIsUndefined_def]
  constructor
  case mp =>
    rintro hf (h | ⟨rfl, rfl⟩)
    case inl => exact hb h
    case inr =>
      rw [fits_def, divideCeil_neg_one] at hf
      omega
  case mpr =>
    intro h
    have hf := SignedDivision.neg_neg_fdiv_mem (show 0 < 9223372036854775807 by decide) hb ha.1 ha.2
    exact hf fun ha hb => h (.inr ⟨ha, hb⟩)

theorem fits_tdiv (ha : Fits a) (hb : 0 < b) : Fits (a.tdiv b) := by
  rw [fits_def] at ha ⊢
  have := Int.natAbs_tdiv_le_natAbs a b
  obtain h | h := le_total 0 a
  case inl =>
    have := Int.tdiv_nonneg h hb.le
    omega
  case inr =>
    have := Int.tdiv_nonneg (Int.neg_nonneg.mpr h) hb.le
    rw [Int.neg_tdiv] at this
    omega

theorem fits_abs (hb : 0 < b) (h : Fits b) : Fits |b| := by
  rwa [abs_of_pos hb]

theorem fits_modulo (hb : Fits b) (h : 0 < b) : Fits (modulo a b) := by
  rw [modulo_eq_emod h.ne']
  rw [fits_def] at hb ⊢
  have := Int.emod_nonneg a h.ne'
  have := Int.emod_lt_of_pos a h
  omega

end Checked

namespace BinaryOp

-- The operation has no result, or none that fits.
def Fails (op : BinaryOp) (a b : Int) : Prop :=
  (op.isDivision ∧ b = 0) ∨ (op = mod ∧ b < 0) ∨ ¬Fits (op.eval a b)

theorem safeEvaluate_eq_some (ha : Fits a) (h : ¬op.Fails a b) :
    op.safeEvaluate a b = some (op.eval a b) := by
  simp only [Fails, not_or, not_and, not_not] at h
  obtain ⟨hz, hm, hf⟩ := h
  cases op
  case add => exact checked_of_fits hf
  case mul => exact checked_of_fits hf
  case max => rfl
  case min => rfl
  case floorDiv => exact if_neg <| (fits_fdiv_iff ha (hz rfl)).mp hf
  case ceilDiv => exact if_neg <| (fits_divideCeil_iff ha (hz rfl)).mp hf
  case mod =>
    have hb : 0 < b := lt_of_le_of_ne (not_lt.mp (hm rfl)) (Ne.symm (hz rfl))
    simp only [safeEvaluate, eval, if_neg (not_le.mpr hb), modulo_eq_emod hb.ne']
    rfl

theorem safeEvaluate_eq_none (ha : Fits a) (hb : Fits b) (h : op.Fails a b) : op.safeEvaluate a b = none := by
  cases op
  case add => exact if_neg <| by simpa [Fails, isDivision, eval] using h
  case mul => exact if_neg <| by simpa [Fails, isDivision, eval] using h
  case max =>
    have : Fits (Max.max a b) := by cases max_choice a b <;> simp_all
    simp [Fails, isDivision, eval, this] at h
  case min =>
    have : Fits (Min.min a b) := by cases min_choice a b <;> simp_all
    simp [Fails, isDivision, eval, this] at h
  case floorDiv =>
    refine if_pos ?_
    by_cases hz : b = 0
    case pos => exact .inl hz
    case neg => simpa [Fails, isDivision, hz, eval, fits_fdiv_iff ha hz] using h
  case ceilDiv =>
    refine if_pos ?_
    by_cases hz : b = 0
    case pos => exact .inl hz
    case neg => simpa [Fails, isDivision, hz, eval, fits_divideCeil_iff ha hz] using h
  case mod =>
    refine if_pos <| not_lt.mp fun hp => ?_
    have := fits_modulo (a := a) hb hp
    simp [Fails, isDivision, eval, this, hp.ne', not_lt.mpr hp.le] at h

-- The results of the unchecked operations are exact, if they are defined.
theorem eval_of_evaluate (h : op.evaluate a b = some v) : v = op.eval a b ∧ (op.isDivision → b ≠ 0) := by
  cases op
  case add => exact ⟨(checked_eq_some_iff.mp h).2.symm, nofun⟩
  case mul => exact ⟨(checked_eq_some_iff.mp h).2.symm, nofun⟩
  case max => exact ⟨(Option.some.inj h).symm, nofun⟩
  case min => exact ⟨(Option.some.inj h).symm, nofun⟩
  case floorDiv =>
    obtain ⟨hb, h⟩ := Option.ite_none_left_eq_some.mp h
    exact ⟨(checked_eq_some_iff.mp h).2.symm, fun _ => hb⟩
  case ceilDiv =>
    obtain ⟨hb, h⟩ := Option.ite_none_left_eq_some.mp h
    exact ⟨(checked_eq_some_iff.mp h).2.symm, fun _ => hb⟩
  case mod =>
    obtain ⟨hb, h⟩ := Option.ite_none_left_eq_some.mp h
    obtain ⟨_, _, h⟩ := Option.bind_eq_some_iff.mp h
    obtain ⟨abs, habs, h⟩ := Option.bind_eq_some_iff.mp h
    obtain ⟨sum, hsum, h⟩ := Option.bind_eq_some_iff.mp h
    obtain ⟨_, rfl⟩ := checked_eq_some_iff.mp habs
    obtain ⟨_, rfl⟩ := checked_eq_some_iff.mp hsum
    exact ⟨(Option.some.inj h).symm, fun _ => hb⟩

-- The sum that makes the remainder of `Evaluate` non-negative.
theorem evaluate_mod (ha : Fits a) (hb : Fits b) (hp : 0 < b) :
    mod.evaluate a b = if a.tmod b + b ≤ int64Max then some (mod.eval a b) else none := by
  simp only [evaluate, if_neg hp.ne', checked_of_fits (fits_tdiv ha hp), checked_of_fits (fits_abs hp hb),
    Option.bind_eq_bind, Option.bind_some]
  have hl : int64Min ≤ a.tmod b + |b| := by
    have := Int.lt_tmod_of_pos a hp
    rw [abs_of_pos hp, int64Min]
    omega
  split
  case isTrue h =>
    rw [←abs_of_pos hp] at h
    rw [checked_of_fits ⟨hl, by simpa [abs_of_pos hp] using h⟩]
    rfl
  case isFalse h =>
    rw [checked, if_neg fun hf => h (by simpa [abs_of_pos hp] using hf.2)]
    rfl

theorem evaluate_eq_some_iff (ha : Fits a) (hb : Fits b) (h : ¬op.Fails a b) :
    op.evaluate a b = some (op.eval a b) ↔ (op = mod → a.tmod b + b ≤ int64Max) := by
  simp only [Fails, not_or, not_and, not_not] at h
  obtain ⟨hz, hm, hf⟩ := h
  cases op
  case add => exact iff_of_true (checked_of_fits hf) nofun
  case mul => exact iff_of_true (checked_of_fits hf) nofun
  case max => exact iff_of_true rfl nofun
  case min => exact iff_of_true rfl nofun
  case floorDiv => exact iff_of_true ((if_neg (hz rfl)).trans (checked_of_fits hf)) nofun
  case ceilDiv => exact iff_of_true ((if_neg (hz rfl)).trans (checked_of_fits hf)) nofun
  case mod =>
    have hp : 0 < b := lt_of_le_of_ne (not_lt.mp (hm rfl)) (Ne.symm (hz rfl))
    rw [evaluate_mod ha hb hp]
    simp

end BinaryOp

namespace SymbolicExpr

variable {e t : SymbolicExpr} {values : List Int} {f : Int}

-- The value over the integers, if every variable has a value and no divisor is zero.
def exactValue (values : List Int) : SymbolicExpr → Option Int
  | const v       => some v
  | var id        => values[id]?
  | binary op l r => do
    let a ← l.exactValue values
    let b ← r.exactValue values
    if op.isDivision ∧ b = 0 then none else some (op.eval a b)

theorem exactValue_binary {l r : SymbolicExpr} :
    (binary op l r).exactValue values = some v ↔
      ∃ a b, l.exactValue values = some a ∧ r.exactValue values = some b ∧ (op.isDivision → b ≠ 0) ∧
        op.eval a b = v := by
  simp [exactValue, Option.bind_eq_some_iff]

theorem defined_of_exactValue (h : e.exactValue values = some v) :
    e.Defined (values.getD · 0) ∧ e.eval (values.getD · 0) = v := by
  induction e generalizing v
  case const => exact ⟨trivial, Option.some.inj h⟩
  case var id =>
    simp only [exactValue] at h
    simp [Defined, eval, h]
  case binary op l r hl hr =>
    obtain ⟨a, b, ha, hb, hd, rfl⟩ := exactValue_binary.mp h
    obtain ⟨hdl, rfl⟩ := hl ha
    obtain ⟨hdr, rfl⟩ := hr hb
    exact ⟨⟨hdl, hdr, hd⟩, rfl⟩

theorem exactValue_of_evaluate (h : e.evaluate values = some v) : e.exactValue values = some v := by
  induction e generalizing v
  case const => exact h
  case var => exact h
  case binary op l r hl hr =>
    simp only [evaluate, Option.bind_eq_bind, Option.bind_eq_some_iff] at h
    obtain ⟨a, ha, b, hb, h⟩ := h
    obtain ⟨rfl, hd⟩ := BinaryOp.eval_of_evaluate h
    exact exactValue_binary.mpr ⟨a, b, hl ha, hr hb, hd, rfl⟩

section IsMultipleOf

-- The products of known divisors do not wrap around.
def ProductsFit : SymbolicExpr → Prop
  | const _       => True
  | var _         => True
  | binary op l r =>
    l.ProductsFit ∧ r.ProductsFit ∧
      (op = .mul → l.getLargestKnownDivisor64 * r.getLargestKnownDivisor64 < 18446744073709551616)

theorem getLargestKnownDivisor64_eq (h : e.ProductsFit) :
    e.getLargestKnownDivisor64 = e.getLargestKnownDivisor := by
  induction e
  case const => rfl
  case var => rfl
  case binary op l r hl hr =>
    obtain ⟨hpl, hpr, hp⟩ := h
    cases op <;> simp only [getLargestKnownDivisor64, getLargestKnownDivisor, ←hl hpl, ←hr hpr]
    case mul => exact Nat.mod_eq_of_lt (hp rfl)

-- For the exact value under every assignment without a zero divisor, and for what `Evaluate` returns.
theorem isMultipleOf64_sound (hp : e.ProductsFit) (hm : e.isMultipleOf64 f) :
    (∀ ρ, e.Defined ρ → f ∣ e.eval ρ) ∧ (∀ values v, e.evaluate values = some v → f ∣ v) := by
  have hm : e.isMultipleOf f := by rwa [isMultipleOf, ←getLargestKnownDivisor64_eq hp]
  constructor
  case left  => exact fun ρ hd => dvd_of_isMultipleOf hd hm
  case right =>
    intro values v hv
    obtain ⟨hd, rfl⟩ := defined_of_exactValue (exactValue_of_evaluate hv)
    exact dvd_of_isMultipleOf hd hm

theorem isMultipleOf64_sound_mod :
    (∀ ρ, (binary .mod (binary .mul (var 0) (const 6)) (const 4)).Defined ρ →
      2 ∣ (binary .mod (binary .mul (var 0) (const 6)) (const 4)).eval ρ) ∧
    (∀ values v, (binary .mod (binary .mul (var 0) (const 6)) (const 4)).evaluate values = some v → 2 ∣ v) :=
  isMultipleOf64_sound ⟨⟨trivial, trivial, fun _ => by decide⟩, trivial, nofun⟩ rfl

end IsMultipleOf
end SymbolicExpr
end Symbolic

namespace Symbolic.SymbolicExpr

variable {e t l r : SymbolicExpr} {op : BinaryOp} {values dims syms : List Int} {a b v : Int}

def subexpressions : SymbolicExpr → List SymbolicExpr
  | const v       => [const v]
  | var id        => [var id]
  | binary op l r => binary op l r :: (l.subexpressions ++ r.subexpressions)

theorem mem_subexpressions_self : e ∈ e.subexpressions := by
  cases e <;> simp [subexpressions]

theorem mem_subexpressions_binary :
    t ∈ (binary op l r).subexpressions ↔ t = binary op l r ∨ t ∈ l.subexpressions ∨ t ∈ r.subexpressions := by
  simp [subexpressions]

-- A variable without a value, or an operation on exact values that overflows, divides by zero or has a
-- modulus that is not positive.
def Fails (values : List Int) : SymbolicExpr → Prop
  | const _       => False
  | var id        => values.length ≤ id
  | binary op l r => ∃ a b, l.exactValue values = some a ∧ r.exactValue values = some b ∧ op.Fails a b

def HasFailure (values : List Int) (e : SymbolicExpr) : Prop :=
  ∃ t ∈ e.subexpressions, t.Fails values

-- The expressions and the values of the source are 64-bit.
structure Representable (values : List Int) (e : SymbolicExpr) : Prop where
  constants : ∀ c, const c ∈ e.subexpressions → Fits c
  values    : ∀ v ∈ values, Fits v

structure EvaluatorsAgree (dims syms : List Int) (e : SymbolicExpr) : Prop where
  fits     : ∀ v, e.safeEvaluate dims syms = some v →
    ∀ t ∈ e.subexpressions, ∃ w, t.exactValue (dims ++ syms) = some w ∧ Fits w
  evaluate : ∀ v, e.safeEvaluate dims syms = some v → e.evaluate (dims ++ syms) = some v
  failure  : e.safeEvaluate dims syms = none → e.HasFailure (dims ++ syms)

-- The remainder of every modulo operation can be increased by its modulus.
def ModuloSumsFit (values : List Int) (e : SymbolicExpr) : Prop :=
  ∀ l r, binary .mod l r ∈ e.subexpressions → ∀ a b, l.exactValue values = some a → r.exactValue values = some b →
    a.tmod b + b ≤ int64Max

section Subexpressions

theorem Representable.left (h : (binary op l r).Representable values) : l.Representable values where
  constants := fun c hc => h.constants c <| mem_subexpressions_binary.mpr (.inr (.inl hc))
  values    := h.values

theorem Representable.right (h : (binary op l r).Representable values) : r.Representable values where
  constants := fun c hc => h.constants c <| mem_subexpressions_binary.mpr (.inr (.inr hc))
  values    := h.values

theorem hasFailure_binary :
    (binary op l r).HasFailure values ↔
      (binary op l r).Fails values ∨ l.HasFailure values ∨ r.HasFailure values := by
  simp only [HasFailure, mem_subexpressions_binary, or_and_right, exists_or, exists_eq_left]

theorem moduloSumsFit_binary (hl : l.exactValue values = some a) (hr : r.exactValue values = some b) :
    (binary op l r).ModuloSumsFit values ↔
      (op = .mod → a.tmod b + b ≤ int64Max) ∧ l.ModuloSumsFit values ∧ r.ModuloSumsFit values := by
  constructor
  case mp =>
    intro h
    refine ⟨?self, fun l' r' ht => h l' r' ?left, fun l' r' ht => h l' r' ?right⟩
    case self =>
      rintro rfl
      exact h l r mem_subexpressions_self a b hl hr
    case left => exact mem_subexpressions_binary.mpr (.inr (.inl ht))
    case right => exact mem_subexpressions_binary.mpr (.inr (.inr ht))
  case mpr =>
    rintro ⟨h, hml, hmr⟩ l' r' ht a' b' ha hb
    obtain ht | ht | ht := mem_subexpressions_binary.mp ht
    case inr.inl => exact hml l' r' ht a' b' ha hb
    case inr.inr => exact hmr l' r' ht a' b' ha hb
    case inl =>
      cases ht
      rw [hl] at ha
      rw [hr] at hb
      cases ha
      cases hb
      exact h rfl

end Subexpressions

section SafeEvaluate

theorem safeEvaluate_var {id : Nat} : (var id).safeEvaluate dims syms = (dims ++ syms)[id]? := by
  rw [safeEvaluate]
  split
  case isTrue h  => rw [List.getElem?_append_right h]
  case isFalse h => rw [List.getElem?_append_left (not_le.mp h)]

-- By induction on the expression: the safe evaluator stops at the first operation that fails.
theorem safeEvaluate_of_not_hasFailure (hr : e.Representable (dims ++ syms)) (h : ¬e.HasFailure (dims ++ syms)) :
    ∃ v, e.safeEvaluate dims syms = some v ∧ e.exactValue (dims ++ syms) = some v ∧ Fits v := by
  induction e
  case const c => exact ⟨c, rfl, rfl, hr.constants c mem_subexpressions_self⟩
  case var id =>
    have hid : id < (dims ++ syms).length := not_le.mp fun hf => h ⟨var id, mem_subexpressions_self, hf⟩
    refine ⟨(dims ++ syms)[id], ?_, List.getElem?_eq_getElem hid, hr.values _ (List.getElem_mem hid)⟩
    rw [safeEvaluate_var, List.getElem?_eq_getElem hid]
  case binary op l r hil hir =>
    simp only [hasFailure_binary, not_or] at h
    obtain ⟨hf, hfl, hfr⟩ := h
    obtain ⟨a, hsa, hea, ha⟩ := hil hr.left hfl
    obtain ⟨b, hsb, heb, hb⟩ := hir hr.right hfr
    have hop : ¬op.Fails a b := fun hop => hf ⟨a, b, hea, heb, hop⟩
    refine ⟨op.eval a b, ?safe, ?exact, ?fits⟩
    case safe => simp [safeEvaluate, hsa, hsb, BinaryOp.safeEvaluate_eq_some ha hop]
    case exact => exact exactValue_binary.mpr ⟨a, b, hea, heb, fun hd hz => hop (.inl ⟨hd, hz⟩), rfl⟩
    case fits => exact not_not.mp fun hn => hop (.inr (.inr hn))

theorem safeEvaluate_of_hasFailure (hr : e.Representable (dims ++ syms)) (h : e.HasFailure (dims ++ syms)) :
    e.safeEvaluate dims syms = none := by
  induction e
  case const c =>
    obtain ⟨t, ht, hf⟩ := h
    cases List.mem_singleton.mp ht
    exact hf.elim
  case var id =>
    obtain ⟨t, ht, hf⟩ := h
    cases List.mem_singleton.mp ht
    rw [safeEvaluate_var]
    exact List.getElem?_eq_none hf
  case binary op l r hil hir =>
    by_cases hfl : l.HasFailure (dims ++ syms)
    case pos => simp [safeEvaluate, hil hr.left hfl]
    case neg =>
      obtain ⟨a, hsa, hea, ha⟩ := safeEvaluate_of_not_hasFailure hr.left hfl
      by_cases hfr : r.HasFailure (dims ++ syms)
      case pos => simp [safeEvaluate, hsa, hir hr.right hfr]
      case neg =>
        obtain ⟨b, hsb, heb, hb⟩ := safeEvaluate_of_not_hasFailure hr.right hfr
        have hf : (binary op l r).Fails (dims ++ syms) := by
          simpa [hfl, hfr] using hasFailure_binary.mp h
        obtain ⟨a', b', ha', hb', hop⟩ := hf
        cases hea.symm.trans ha'
        cases heb.symm.trans hb'
        simp [safeEvaluate, hsa, hsb, BinaryOp.safeEvaluate_eq_none ha hb hop]

theorem safeEvaluate_eq_none_iff (hr : e.Representable (dims ++ syms)) :
    e.safeEvaluate dims syms = none ↔ e.HasFailure (dims ++ syms) := by
  refine ⟨fun h => not_not.mp fun hf => ?_, safeEvaluate_of_hasFailure hr⟩
  obtain ⟨v, hv, _⟩ := safeEvaluate_of_not_hasFailure hr hf
  simp [h] at hv

theorem exactValue_fits (hr : e.Representable values) (h : ¬e.HasFailure values) :
    ∀ t ∈ e.subexpressions, ∃ w, t.exactValue values = some w ∧ Fits w := by
  intro t ht
  induction e
  case const c =>
    cases List.mem_singleton.mp ht
    exact ⟨c, rfl, hr.constants c mem_subexpressions_self⟩
  case var id =>
    cases List.mem_singleton.mp ht
    have hid : id < values.length := not_le.mp fun hf => h ⟨var id, mem_subexpressions_self, hf⟩
    exact ⟨values[id], List.getElem?_eq_getElem hid, hr.values _ (List.getElem_mem hid)⟩
  case binary op l r hil hir =>
    have hfb := h
    simp only [hasFailure_binary, not_or] at hfb
    obtain ht | ht | ht := mem_subexpressions_binary.mp ht
    case inr.inl => exact hil hr.left hfb.2.1 ht
    case inr.inr => exact hir hr.right hfb.2.2 ht
    case inl =>
      obtain ⟨v, _, hv⟩ : ∃ v, (binary op l r).safeEvaluate [] values = some v ∧ _ :=
        safeEvaluate_of_not_hasFailure hr h
      exact ⟨v, ht ▸ hv⟩

end SafeEvaluate

section Agree

theorem evaluate_eq_exactValue_iff (hr : e.Representable values) (h : ¬e.HasFailure values) :
    e.evaluate values = e.exactValue values ↔ e.ModuloSumsFit values := by
  induction e
  case const => exact iff_of_true rfl fun l r ht => absurd ht (by simp [subexpressions])
  case var   => exact iff_of_true rfl fun l r ht => absurd ht (by simp [subexpressions])
  case binary op l r hil hir =>
    simp only [hasFailure_binary, not_or] at h
    obtain ⟨hf, hfl, hfr⟩ := h
    obtain ⟨a, hea, ha⟩ := exactValue_fits hr.left hfl l mem_subexpressions_self
    obtain ⟨b, heb, hb⟩ := exactValue_fits hr.right hfr r mem_subexpressions_self
    have hop : ¬op.Fails a b := fun hop => hf ⟨a, b, hea, heb, hop⟩
    have hev : (binary op l r).exactValue values = some (op.eval a b) :=
      exactValue_binary.mpr ⟨a, b, hea, heb, fun hd hz => hop (.inl ⟨hd, hz⟩), rfl⟩
    rw [moduloSumsFit_binary hea heb, ←hil hr.left hfl, ←hir hr.right hfr,
      ←BinaryOp.evaluate_eq_some_iff ha hb hop, hev, hea, heb]
    constructor
    case mp =>
      intro h
      simp only [evaluate, Option.bind_eq_bind, Option.bind_eq_some_iff] at h
      obtain ⟨a', ha', b', hb', h⟩ := h
      cases hea.symm.trans (exactValue_of_evaluate ha')
      cases heb.symm.trans (exactValue_of_evaluate hb')
      exact ⟨h, ha', hb'⟩
    case mpr =>
      rintro ⟨h, hl, hr⟩
      simp [evaluate, hl, hr, h]

theorem evaluatorsAgree_iff (h : e.Representable (dims ++ syms)) :
    e.EvaluatorsAgree dims syms ↔ e.HasFailure (dims ++ syms) ∨ e.ModuloSumsFit (dims ++ syms) := by
  by_cases hf : e.HasFailure (dims ++ syms)
  case pos =>
    have hn := safeEvaluate_of_hasFailure h hf
    refine iff_of_true ⟨?left, ?right, fun _ => hf⟩ (.inl hf)
    case left => simp [hn]
    case right => simp [hn]
  case neg =>
    obtain ⟨v, hs, he, _⟩ := safeEvaluate_of_not_hasFailure h hf
    rw [or_iff_right hf, ←evaluate_eq_exactValue_iff h hf, he]
    constructor
    case mp  => exact fun ha => ha.evaluate v hs
    case mpr =>
      intro hv
      refine ⟨fun _ _ => exactValue_fits h hf, ?_, by simp [hs]⟩
      rintro _ hv'
      rw [hv, ←hs, hv']

theorem evaluatorsAgree_iff_mod :
    (binary .mod (var 0) (var 1)).EvaluatorsAgree [-7] [4] ↔
      (binary .mod (var 0) (var 1)).HasFailure [-7, 4] ∨ (binary .mod (var 0) (var 1)).ModuloSumsFit [-7, 4] :=
  evaluatorsAgree_iff ⟨by simp [subexpressions], by decide⟩

-- The sum of the remainder and the modulus overflows.
theorem not_evaluatorsAgree :
    ¬(binary .mod (var 0) (const 9223372036854775807)).EvaluatorsAgree [9223372036854775806] [] :=
  fun h => absurd (h.evaluate 9223372036854775806 (by decide)) (by decide)

end Agree
end Symbolic.SymbolicExpr
