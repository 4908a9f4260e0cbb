import Mathlib.Data.Bool.Count
import Mathlib.Tactic

-- Removes the elements of a list that are marked in a bit vector. Elements past the end of the bit vector
-- are kept.
namespace Compaction

variable {mask : List Bool} {xs : List α} {i k : Nat}

def Kept (mask : List Bool) (i : Nat) : Prop :=
  mask.getD i false = false

instance : Decidable (Kept mask i) :=
  inferInstanceAs (Decidable (_ = _))

theorem not_kept_iff : ¬Kept mask i ↔ mask.getD i false = true := by
  rw [Kept, Bool.not_eq_false]

def keep : List Bool → List α → List α
  | [],            xs      => xs
  | _ :: _,        []      => []
  | true :: mask,  _ :: xs => keep mask xs
  | false :: mask, x :: xs => x :: keep mask xs

-- The new index of an element that is kept.
def rank : List Bool → Nat → Nat
  | [],            i     => i
  | _ :: _,        0     => 0
  | true :: mask,  i + 1 => rank mask i
  | false :: mask, i + 1 => rank mask i + 1

theorem getElem?_keep (h : Kept mask i) : (keep mask xs)[rank mask i]? = xs[i]? := by
  induction mask generalizing xs i
  case nil => rfl
  case cons b mask hi =>
    cases xs
    case nil       => simp [keep]
    case cons x xs =>
      cases i
      case zero   => cases b <;> simp_all [Kept, keep, rank]
      case succ i =>
        have hk : Kept mask i := by simpa [Kept] using h
        cases b
        case false => simpa [keep, rank] using hi hk
        case true  => simpa [keep, rank] using hi hk

theorem exists_rank (mask : List Bool) (k : Nat) : ∃ i, Kept mask i ∧ rank mask i = k := by
  induction mask generalizing k
  case nil => exact ⟨k, rfl, rfl⟩
  case cons b mask hi =>
    cases b
    case true =>
      obtain ⟨i, hk, hr⟩ := hi k
      exact ⟨i + 1, by simpa [Kept] using hk, hr⟩
    case false =>
      cases k
      case zero   => exact ⟨0, rfl, rfl⟩
      case succ k =>
        obtain ⟨i, hk, hr⟩ := hi k
        exact ⟨i + 1, by simpa [Kept] using hk, by rw [rank, hr]⟩

theorem keep_append {mask' : List Bool} {ys : List α} (h : xs.length = mask.length) :
    keep (mask ++ mask') (xs ++ ys) = keep mask xs ++ keep mask' ys := by
  induction mask generalizing xs
  case nil => simp [List.length_eq_zero_iff.mp h, keep]
  case cons b mask hi =>
    cases xs
    case nil       => simp at h
    case cons x xs =>
      have hl : xs.length = mask.length := by simpa using h
      cases b <;> simp [keep, hi hl]

theorem length_keep (h : xs.length = mask.length) : (keep mask xs).length = mask.count false := by
  induction mask generalizing xs
  case nil => simpa [keep] using h
  case cons b mask hi =>
    cases xs
    case nil       => simp at h
    case cons x xs =>
      have hl : xs.length = mask.length := by simpa using h
      cases b <;> simp [keep, hi hl]

theorem rank_append_left {mask' : List Bool} (h : i < mask.length) :
    rank (mask ++ mask') i = rank mask i := by
  induction mask generalizing i
  case nil => simp at h
  case cons b mask hi =>
    cases i
    case zero   => rfl
    case succ i =>
      have hl : i < mask.length := by simpa using h
      cases b <;> simp [rank, hi hl]

theorem rank_append_right {mask' : List Bool} (h : mask.length ≤ i) :
    rank (mask ++ mask') i = mask.count false + rank mask' (i - mask.length) := by
  induction mask generalizing i
  case nil => simp
  case cons b mask hi =>
    cases i
    case zero   => simp at h
    case succ i =>
      have hl : mask.length ≤ i := by simpa using h
      cases b
      case true  => simp [rank, hi hl]
      case false =>
        simp only [List.cons_append, rank, hi hl, List.length_cons, List.count_cons_self]
        rw [Nat.add_sub_add_right]
        omega

theorem rank_of_length_le (h : mask.length ≤ i) :
    rank mask i = mask.count false + (i - mask.length) := by
  have : rank (mask ++ []) i = mask.count false + (i - mask.length) := rank_append_right h
  rwa [List.append_nil] at this

theorem rank_lt (hk : Kept mask i) (h : i < mask.length) : rank mask i < mask.count false := by
  induction mask generalizing i
  case nil => simp at h
  case cons b mask hi =>
    cases i
    case zero   => cases b <;> simp_all [Kept, rank]
    case succ i =>
      have hl : i < mask.length := by simpa using h
      have hk' : Kept mask i := by simpa [Kept] using hk
      cases b <;> simp [rank, hi hk' hl]

theorem rank_of_count_eq_zero (h : mask.count true = 0) (i : Nat) : rank mask i = i := by
  induction mask generalizing i
  case nil => rfl
  case cons b mask hi =>
    cases b
    case true  => simp at h
    case false =>
      cases i
      case zero   => rfl
      case succ i => rw [rank, hi (by simpa using h)]

theorem kept_of_count_eq_zero (h : mask.count true = 0) (i : Nat) : Kept mask i := by
  by_contra hk
  have hk : mask.getD i false = true := by simpa [Kept] using hk
  rw [List.getD_eq_getElem?_getD] at hk
  cases hi : mask[i]?
  case none   => simp [hi] at hk
  case some b =>
    have : b = true := by simpa [hi] using hk
    exact List.count_eq_zero.mp h (this ▸ List.mem_of_getElem? hi)

theorem count_false (mask : List Bool) : mask.count false = mask.length - mask.count true := by
  have := List.count_false_add_count_true mask
  omega

theorem keep_of_count_eq_zero (h : mask.count true = 0) (xs : List α) : keep mask xs = xs := by
  refine List.ext_getElem? fun i => ?_
  have : (keep mask xs)[rank mask i]? = xs[i]? := getElem?_keep (kept_of_count_eq_zero h i)
  rwa [rank_of_count_eq_zero h] at this

theorem kept_append_left {mask' : List Bool} (h : i < mask.length) :
    Kept (mask ++ mask') i ↔ Kept mask i := by
  simp only [Kept, List.getD_eq_getElem?_getD, List.getElem?_append_left h]

theorem kept_append_right {mask' : List Bool} (h : mask.length ≤ i) :
    Kept (mask ++ mask') i ↔ Kept mask' (i - mask.length) := by
  simp only [Kept, List.getD_eq_getElem?_getD, List.getElem?_append_right h]

-- The elements of the first part are removed first.
theorem rank_rank {mask' : List Bool} (hk : Kept (mask ++ mask') i) :
    rank (List.replicate (mask.count false) false ++ mask') (rank mask i) = rank (mask ++ mask') i := by
  by_cases h : i < mask.length
  case pos =>
    have hlt := rank_lt ((kept_append_left h).mp hk) h
    rw [rank_append_left h, rank_append_left (by simpa using hlt),
      rank_of_count_eq_zero (by simp [List.count_replicate])]
  case neg =>
    have h := not_lt.mp h
    rw [rank_append_right h, rank_of_length_le h, rank_append_right (by simp)]
    simp

theorem kept_rank {mask' : List Bool} (hk : Kept (mask ++ mask') i) :
    Kept (List.replicate (mask.count false) false ++ mask') (rank mask i) := by
  by_cases h : i < mask.length
  case pos =>
    have hlt := rank_lt ((kept_append_left h).mp hk) h
    rw [kept_append_left (by simpa using hlt)]
    exact kept_of_count_eq_zero (by simp [List.count_replicate]) _
  case neg =>
    have h := not_lt.mp h
    rw [kept_append_right h] at hk
    rw [rank_of_length_le h, kept_append_right (by simp)]
    simpa using hk

theorem kept_of_kept_append {mask' : List Bool} (hk : Kept (mask ++ mask') i) : Kept mask i := by
  by_cases h : i < mask.length
  case pos => exact (kept_append_left h).mp hk
  case neg =>
    rw [Kept, List.getD_eq_getElem?_getD, List.getElem?_eq_none (not_lt.mp h)]
    rfl

-- A list is compacted in place by a loop over its elements. The elements before the index `i` are processed
-- and those that are kept have been moved to the front.
structure InPlace (xs kept : List α) (i : Nat) (ys : List α) : Prop where
  take   : ys.take kept.length = kept
  le     : kept.length ≤ i
  drop   : ys.drop i = xs.drop i
  length : ys.length = xs.length

namespace InPlace

variable {kept ys : List α} {y : α}

theorem init (xs : List α) : InPlace xs [] 0 xs :=
  ⟨rfl, le_rfl, rfl, rfl⟩

theorem getElem? (h : InPlace xs kept i ys) : ys[i]? = xs[i]? := by
  have := congrArg (·[0]?) h.drop
  simpa using this

theorem skip (h : InPlace xs kept i ys) : InPlace xs kept (i + 1) ys where
  take   := h.take
  le     := h.le.trans (Nat.le_succ i)
  drop   := by rw [← List.drop_drop, h.drop, List.drop_drop]
  length := h.length

theorem move (h : InPlace xs kept i ys) (hi : i < xs.length) :
    InPlace xs (kept ++ [y]) (i + 1) (ys.set kept.length y) where
  take := by
    have hl : kept.length < ys.length := by
      rw [h.length]
      exact h.le.trans_lt hi
    rw [List.length_append, List.length_singleton, List.take_add_one, List.take_set_of_le le_rfl, h.take]
    simp [hl]
  le := by simpa using h.le
  drop := by
    rw [List.drop_set_of_lt (Nat.lt_succ_of_le h.le)]
    exact h.skip.drop
  length := by simp [h.length]

end InPlace
end Compaction
