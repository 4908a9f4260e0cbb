import XlaModel.Indexing.Theorems.Interval
import XlaModel.Indexing.Theorems.RangeEvaluator
import XlaModel.Indexing.Theorems.Simplifier
import XlaModel.Symbolic.Theorems.Evaluate

namespace Indexing

open Symbolic SymbolicExpr

variable {a b c d l u v m offset : Int} {op : BinaryOp} {i : Interval} {e x r : SymbolicExpr}
  {dims syms : List Int}

section Values

-- The values of the variables, dimensions first.
def assignment (dims syms : List Int) (id : Nat) : Int :=
  (dims ++ syms).getD id 0

theorem not_overflows_of_fits (h : Fits v) : ¬overflows v := by
  rw [fits_def] at h
  rw [overflows, Interval.kMin_eq, Interval.kMax_eq]
  omega

theorem safeEvaluate_op (h : op.safeEvaluate a b = some v) :
    op.eval a b = v ∧ (op = .mod → 0 < b) ∧ (op = .add ∨ op = .mul → ¬overflows v) := by
  cases op
  case add =>
    obtain ⟨hf, rfl⟩ := checked_eq_some_iff.mp h
    exact ⟨rfl, nofun, fun _ => not_overflows_of_fits hf⟩
  case mul =>
    obtain ⟨hf, rfl⟩ := checked_eq_some_iff.mp h
    exact ⟨rfl, nofun, fun _ => not_overflows_of_fits hf⟩
  case max => exact ⟨Option.some.inj h, nofun, by simp⟩
  case min => exact ⟨Option.some.inj h, nofun, by simp⟩
  case floorDiv => exact ⟨Option.some.inj (Option.ite_none_left_eq_some.mp h).2, nofun, by simp⟩
  case ceilDiv => exact ⟨Option.some.inj (Option.ite_none_left_eq_some.mp h).2, nofun, by simp⟩
  case mod =>
    obtain ⟨hb, h⟩ := Option.ite_none_left_eq_some.mp h
    have hb := not_le.mp hb
    refine ⟨?_, fun _ => hb, by simp⟩
    rw [BinaryOp.eval, modulo_eq_emod hb.ne']
    exact Option.some.inj h

-- The value of the safe evaluator is exact, and so are the values of the subexpressions.
theorem safeEvaluate_exact (h : e.safeEvaluate dims syms = some v) :
    e.eval (assignment dims syms) = v ∧ IndexingMap.ModPositive (assignment dims syms) e ∧
      IndexingMap.ValuesFit (assignment dims syms) e := by
  induction e generalizing v
  case const => exact ⟨Option.some.inj h, trivial, trivial⟩
  case var id =>
    have h : (dims ++ syms)[id]? = some v := by
      rw [safeEvaluate] at h
      split at h
      case isTrue hid  => rwa [List.getElem?_append_right hid]
      case isFalse hid => rwa [List.getElem?_append_left (not_le.mp hid)]
    exact ⟨by simp [eval, assignment, h], trivial, trivial⟩
  case binary op l r hl hr =>
    simp only [safeEvaluate, Option.bind_eq_bind, Option.bind_eq_some_iff] at h
    obtain ⟨a, ha, b, hb, h⟩ := h
    obtain ⟨rfl, hml, hfl⟩ := hl ha
    obtain ⟨rfl, hmr, hfr⟩ := hr hb
    obtain ⟨rfl, hm, hf⟩ := safeEvaluate_op h
    exact ⟨rfl, ⟨hml, hmr, hm⟩, ⟨hfl, hfr, hf⟩⟩

end Values

section Offset

-- The exact upper bound of the replacement and the exact offset.
structure OffsetFits (i : Interval) (m : Int) : Prop where
  upper  : i.upper + i.lower.fdiv m * -m ≤ kMax
  offset : i.lower.fdiv m * -m ≤ kMax ∨ m ≤ i.upper + i.lower.fdiv m * -m

def Replaces (i : Interval) (m offset : Int) : Prop :=
  offset = wrap64 (i.lower.fdiv m * wrap64 (-m)) ∧ wrap64 (i.upper + offset) < m

instance : Decidable (Replaces i m offset) :=
  inferInstanceAs (Decidable (_ ∧ _))

theorem wrap64_neg (hm : 0 < m) (hm' : m ≤ kMax) : wrap64 (-m) = -m := by
  rw [Interval.kMax_eq] at hm'
  rw [wrap64]
  omega

theorem lower_add_offset (hm : 0 < m) : 0 ≤ l + l.fdiv m * -m ∧ l + l.fdiv m * -m < m := by
  have h := Int.mul_fdiv_add_fmod l m
  have := Int.fmod_nonneg_of_pos l hm
  have := Int.fmod_lt_of_pos l hm
  rw [Int.mul_neg, mul_comm]
  omega

theorem replaces_exact (hi : i.Bounded) (hm : 0 < m) (hm' : m ≤ kMax) (he : OffsetFits i m)
    (h : Replaces i m offset) : offset = i.lower.fdiv m * -m ∧ i.upper + offset < m := by
  obtain ⟨rfl, h⟩ := h
  obtain ⟨hu, ho⟩ := he
  have hb := @lower_add_offset i.lower m hm
  have := hi.lower
  have := hi.upper
  have := hi.feasible
  rw [wrap64_neg hm hm'] at h ⊢
  simp only [Interval.kMin_eq, Interval.kMax_eq] at *
  generalize i.lower.fdiv m * -m = o at *
  simp only [wrap64] at h ⊢
  omega

theorem offsetFits_of_replaces (hi : i.Bounded) (hm : 0 < m) (hm' : m ≤ kMax)
    (h : ∀ offset, Replaces i m offset → 0 ≤ i.lower + offset ∧ i.upper + offset < m) : OffsetFits i m := by
  replace h := fun hlt => h _ ⟨rfl, hlt⟩
  have hb := @lower_add_offset i.lower m hm
  have := hi.lower
  have := hi.upper
  have := hi.feasible
  rw [wrap64_neg hm hm'] at h
  constructor
  all_goals
    simp only [Interval.kMin_eq, Interval.kMax_eq] at *
    generalize i.lower.fdiv m * -m = o at *
    simp only [wrap64] at h
    omega

end Offset

section RewriteMod

variable {range : SymbolicExpr → Option Interval} {once : SymbolicExpr → Option SymbolicExpr}

theorem rewriteModByOffset_eq_some_iff :
    rewriteModByOffset range once e r = some (some (x, m, offset)) ↔
      range r = some ⟨m, m⟩ ∧ m ≠ 0 ∧ once e = some x ∧ ∃ i, range x = some i ∧ Replaces i m offset := by
  constructor
  case mp =>
    intro h
    obtain ⟨rhs, hr, h⟩ := Option.bind_eq_some_iff.mp h
    split at h
    case isTrue => simp at h
    case isFalse hp =>
      split at h
      case isTrue => simp at h
      case isFalse hm =>
        obtain ⟨x', ho, h⟩ := Option.bind_eq_some_iff.mp h
        obtain ⟨i, hi, h⟩ := Option.bind_eq_some_iff.mp h
        dsimp only at h
        split at h
        case isFalse => simp at h
        case isTrue hlt =>
          cases h
          have he : rhs.lower = rhs.upper := by simpa [Interval.isPoint] using hp
          refine ⟨?_, hm, ho, i, hi, rfl, hlt⟩
          rw [hr]
          exact congrArg some (Interval.mk.injEq .. ▸ ⟨rfl, he.symm⟩)
  case mpr =>
    rintro ⟨hr, hm, ho, i, hi, rfl, hlt⟩
    simp [rewriteModByOffset, hr, hm, ho, hi, hlt, Interval.isPoint]

-- Without overflows it is the branch of the rewriting over the integers.
theorem rewriteMod_of_rewriteModByOffset (hi : i.Bounded) (hm : 0 < m) (hm' : m ≤ kMax) (he : OffsetFits i m)
    (hx : range x = some i) (h : rewriteModByOffset range once e r = some (some (x, m, offset))) :
    rewriteMod range once e r = some (x.add (const offset)) := by
  obtain ⟨hr, hm₀, ho, i', hx', h⟩ := rewriteModByOffset_eq_some_iff.mp h
  cases hx.symm.trans hx'
  obtain ⟨rfl, hlt⟩ := replaces_exact hi hm hm' he h
  simp only [rewriteMod, hr, ho, hx, Option.bind_eq_bind, Option.bind_some, if_neg hm₀, if_pos hlt]
  simp [Interval.isPoint]

-- The replacement lies in the range of the remainders at every point of the domain where the dividend has
-- a value.
def OffsetSafe (map : IndexingMap) (x : SymbolicExpr) (m offset : Int) : Prop :=
  ∀ dims syms v, map.Domain (assignment dims syms) → x.safeEvaluate dims syms = some v →
    0 ≤ v + offset ∧ v + offset < m

variable {map : IndexingMap} {uc : Bool}

theorem offsetSafe_of_mem (h : ∀ v ∈ i, 0 ≤ v + offset ∧ v + offset < m)
    (hx : map.computeExpressionRange uc x = some i) : OffsetSafe map x m offset := by
  intro dims syms v hd hv
  obtain ⟨rfl, hm, hf⟩ := safeEvaluate_exact hv
  exact h _ <| IndexingMap.mem_computeExpressionRange hd.inBounds (fun _ => hd.constraints) hm hf hx

-- The map over a single dimension.
def singleDimension (i : Interval) : IndexingMap where
  symbolicMap  := ⟨1, 0, []⟩
  dimVars      := [i]
  rangeVars    := []
  rtVars       := []
  constraints  := []
  isKnownEmpty := false

theorem singleDimension_domain (hv : v ∈ i) : (singleDimension i).Domain (assignment [v] []) where
  notEmpty    := rfl
  constraints := nofun
  inBounds    := by
    intro id j hj
    have hid := IndexingMap.lt_of_variableBound hj
    obtain rfl : id = 0 := Nat.lt_one_iff.mp hid
    cases hj
    exact hv

theorem singleDimension_replaced (o : IterationOrder) (hm : m ≠ 0) (h : Replaces i m offset) :
    rewriteModByOffset ((singleDimension i).computeExpressionRange false)
      (simplifyOnce o ((singleDimension i).computeExpressionRange false) .preserve 1) (var 0) (const m) =
      some (some (var 0, m, offset)) :=
  rewriteModByOffset_eq_some_iff.mpr ⟨rfl, hm, rfl, i, rfl, h⟩

-- For the ranges of simplified dividends whose endpoints are values of 64-bit integers.
theorem rewriteModByOffset_safe_iff (o : IterationOrder) (hl : kMin ≤ i.lower) (hu : i.upper ≤ kMax) (hm : 0 < m)
    (hm' : m ≤ kMax) :
    (∀ map uc mode n l r x offset,
      rewriteModByOffset (IndexingMap.computeExpressionRange map uc)
        (simplifyOnce o (map.computeExpressionRange uc) mode n) l r = some (some (x, m, offset)) →
      map.computeExpressionRange uc x = some i → OffsetSafe map x m offset) ↔
    (i.lower ≤ i.upper → OffsetFits i m) := by
  constructor
  case mp =>
    intro h hf
    have hi : i.Bounded := ⟨hl, hu, hf⟩
    refine offsetFits_of_replaces hi hm hm' fun offset hr => ?_
    have hs := h _ _ _ _ _ _ _ _ (singleDimension_replaced o hm.ne' hr) rfl
    have hlow := hs [i.lower] [] i.lower (singleDimension_domain hi.lower_mem) rfl
    have hupp := hs [i.upper] [] i.upper (singleDimension_domain ⟨hf, le_rfl⟩) rfl
    exact ⟨hlow.1, hupp.2⟩
  case mpr =>
    intro he map uc mode n l r x offset h hx
    obtain ⟨_, _, _, i', hx', h⟩ := rewriteModByOffset_eq_some_iff.mp h
    cases hx.symm.trans hx'
    refine offsetSafe_of_mem (fun v hv => ?_) hx
    rw [Interval.mem_def] at hv
    have hf : i.lower ≤ i.upper := by omega
    obtain ⟨rfl, hlt⟩ := replaces_exact ⟨hl, hu, hf⟩ hm hm' (he hf) h
    have := @lower_add_offset i.lower m hm
    omega

-- The negative bytes fit below 300 after one addition, so the remainder by 300 is replaced.
theorem rewriteModByOffset_safe_iff_bytes :
    Replaces ⟨-128, -1⟩ 300 300 ∧ OffsetFits ⟨-128, -1⟩ 300 ∧
    ((∀ map uc mode n l r x offset,
      rewriteModByOffset (IndexingMap.computeExpressionRange map uc)
        (simplifyOnce ⟨id, .refl⟩ (map.computeExpressionRange uc) mode n) l r = some (some (x, 300, offset)) →
      map.computeExpressionRange uc x = some ⟨-128, -1⟩ → OffsetSafe map x 300 offset) ↔
    ((-128 : Int) ≤ -1 → OffsetFits ⟨-128, -1⟩ 300)) :=
  ⟨by decide, ⟨by decide, by decide⟩,
    rewriteModByOffset_safe_iff ⟨id, .refl⟩ (by decide) (by decide) (by decide) (by decide)⟩

-- The offset wraps around to the smallest value, and so does the sum that is compared with the modulus.
theorem not_rewriteModByOffset_safe :
    ¬∀ map uc mode n l r x m offset,
      rewriteModByOffset (IndexingMap.computeExpressionRange map uc)
        (simplifyOnce ⟨id, .refl⟩ (map.computeExpressionRange uc) mode n) l r = some (some (x, m, offset)) →
      0 < m → OffsetSafe map x m offset := by
  intro h
  have hr : Replaces ⟨kMin, kMax⟩ 2 kMin := by decide
  have hs := h _ _ _ _ _ _ _ _ _ (singleDimension_replaced ⟨id, .refl⟩ (by decide) hr) (by decide)
  have hv := hs [0] [] 0 (singleDimension_domain (by decide)) rfl
  exact absurd hv.1 (by decide)

end RewriteMod
end Indexing
