import Mathlib.Data.List.Nodup
import Mathlib.Tactic

-- A set with a deterministic iteration order. The index map always inverts the sequence: this is
-- the class invariant, so it is carried by every value of the type.
structure OrderedSet (α : Type u) where
  valueSequence : List α
  valueToIndex  : α → Option Nat
  index_iff     : ∀ v i, valueToIndex v = some i ↔ valueSequence[i]? = some v

namespace OrderedSet

variable {α : Type u}

instance : Membership α (OrderedSet α) where
  mem s v := v ∈ s.valueSequence

theorem mem_def {s : OrderedSet α} {v : α} : v ∈ s ↔ v ∈ s.valueSequence :=
  Iff.rfl

instance [DecidableEq α] {s : OrderedSet α} {v : α} : Decidable (v ∈ s) :=
  inferInstanceAs <| Decidable (v ∈ s.valueSequence)

def empty : OrderedSet α where
  valueSequence  := []
  valueToIndex _ := none
  index_iff      := by simp

@[simp]
theorem not_mem_empty {v : α} : ¬(v ∈ (empty : OrderedSet α)) := by
  simp [mem_def, empty]

def contains (s : OrderedSet α) (v : α) : Bool :=
  (s.valueToIndex v).isSome

def size (s : OrderedSet α) : Nat :=
  s.valueSequence.length

theorem contains_iff {s : OrderedSet α} {v : α} : s.contains v = true ↔ v ∈ s := by
  simp only [contains, Option.isSome_iff_exists, s.index_iff, mem_def, List.mem_iff_getElem?]

theorem index_unique {s : OrderedSet α} {v : α} {i j : Nat}
    (hi : s.valueSequence[i]? = some v) (hj : s.valueSequence[j]? = some v) : i = j := by
  rw [←s.index_iff] at hi hj
  simpa [hi] using hj

variable [DecidableEq α]

theorem insert_index_iff (s : OrderedSet α) {v : α} (hv : ¬(v ∈ s)) (w : α) (i : Nat) :
    Function.update s.valueToIndex v (some s.valueSequence.length) w = some i ↔
    (s.valueSequence ++ [v])[i]? = some w := by
  by_cases hw : w = v
  case pos =>
    subst hw
    simp only [Function.update_self, Option.some.injEq, List.getElem?_append]
    split
    case isTrue hi  => exact ⟨fun h => by omega, fun h => absurd (List.mem_of_getElem? h) hv⟩
    case isFalse hi => rw [List.getElem?_singleton]; split <;> simp <;> omega
  case neg =>
    simp only [Function.update_of_ne hw, s.index_iff, List.getElem?_append]
    split
    case isTrue     => rfl
    case isFalse hi =>
      rw [List.getElem?_singleton, List.getElem?_eq_none (by omega)]
      split <;> simp [Ne.symm hw]

-- Returns whether the value was not present before the insertion.
def insert (s : OrderedSet α) (v : α) : Bool × OrderedSet α :=
  if h : s.contains v then
    (false, s)
  else
    (true, {
      valueSequence := s.valueSequence ++ [v]
      valueToIndex  := Function.update s.valueToIndex v (some s.valueSequence.length)
      index_iff     := s.insert_index_iff <| mt contains_iff.mpr h
    })

@[simp]
theorem mem_insert {s : OrderedSet α} {v w : α} : w ∈ (s.insert v).2 ↔ w ∈ s ∨ w = v := by
  unfold insert
  split
  case isTrue h =>
    refine ⟨.inl, ?_⟩
    rintro (h' | rfl)
    · exact h'
    · exact contains_iff.mp h
  case isFalse => simp [mem_def]

theorem insert_fst {s : OrderedSet α} {v : α} : (s.insert v).1 = true ↔ ¬(v ∈ s) := by
  unfold insert
  split
  case isTrue h  => simpa using contains_iff.mp h
  case isFalse h => simpa using mt contains_iff.mpr h

theorem insert_of_mem {s : OrderedSet α} {v : α} (h : v ∈ s) : s.insert v = (false, s) := by
  simp [insert, contains_iff.mpr h]

-- The value at index `i` is overwritten by the last value before the sequence is cut by one.
theorem erase_index_iff (s : OrderedSet α) {v back : α} {i : Nat}
    (hi : s.valueSequence[i]? = some v)
    (hb : s.valueSequence[s.valueSequence.length - 1]? = some back) (w : α) (j : Nat) :
    Function.update (Function.update s.valueToIndex back (some i)) v none w = some j ↔
    (s.valueSequence.set i back).dropLast[j]? = some w := by
  have hl : i < s.valueSequence.length := (List.getElem?_eq_some_iff.mp hi).1
  have hset : (s.valueSequence.set i back).dropLast[j]? = some w ↔
      j < s.valueSequence.length - 1 ∧
      ((j = i ∧ w = back) ∨ (j ≠ i ∧ s.valueSequence[j]? = some w)) := by
    simp only [List.getElem?_dropLast, List.length_set, List.getElem?_set]
    by_cases hji : i = j
    case pos =>
      subst hji
      simp [hl, eq_comm]
    case neg => simp [hji, Ne.symm hji]
  rw [hset]
  by_cases hwv : w = v
  case pos =>
    subst hwv
    simp only [Function.update_self, reduceCtorEq, false_iff, not_and, not_or, ne_eq]
    refine fun hj => ⟨fun hji hwb => ?_, fun hji h => hji (index_unique h hi)⟩
    have := index_unique hi (hwb ▸ hb)
    omega
  case neg =>
    rw [Function.update_of_ne hwv]
    by_cases hwb : w = back
    case pos =>
      subst hwb
      have hne : i ≠ s.valueSequence.length - 1 := by
        intro he
        exact hwv <| Option.some.inj (hb.symm.trans <| he ▸ hi)
      rw [Function.update_self, Option.some.injEq]
      constructor
      · rintro rfl
        exact ⟨by omega, .inl ⟨rfl, rfl⟩⟩
      · rintro ⟨hj, ⟨rfl, -⟩ | ⟨-, h⟩⟩
        · rfl
        · have := index_unique h hb
          omega
    case neg =>
      rw [Function.update_of_ne hwb, s.index_iff]
      constructor
      · intro h
        have h₁ : j ≠ s.valueSequence.length - 1 := by
          rintro rfl
          exact hwb <| Option.some.inj (h.symm.trans hb)
        have h₂ : j ≠ i := by
          rintro rfl
          exact hwv <| Option.some.inj (h.symm.trans hi)
        have h₃ := (List.getElem?_eq_some_iff.mp h).1
        exact ⟨by omega, .inr ⟨h₂, h⟩⟩
      · rintro ⟨-, ⟨-, rfl⟩ | ⟨-, h⟩⟩
        · contradiction
        · exact h

-- The source assumes that the value is present. Erasing an absent value is undefined behavior there
-- and does nothing here.
def erase (s : OrderedSet α) (v : α) : OrderedSet α :=
  match h : s.valueToIndex v with
  | none   => s
  | some i =>
    have hi := s.index_iff v i |>.mp h
    let back := s.valueSequence.getLast (List.ne_nil_of_mem <| List.mem_of_getElem? hi)
    {
      valueSequence := (s.valueSequence.set i back).dropLast
      valueToIndex  := Function.update (Function.update s.valueToIndex back (some i)) v none
      index_iff     := s.erase_index_iff hi <| by simp [back, List.getLast_eq_getElem]
    }

@[simp]
theorem mem_erase {s : OrderedSet α} {v w : α} : w ∈ s.erase v ↔ w ∈ s ∧ w ≠ v := by
  rw [←contains_iff, ←contains_iff]
  unfold erase
  split
  case h_1 h =>
    have hv : s.contains v = false := by simp [contains, h]
    refine ⟨fun hw => ⟨hw, ?_⟩, And.left⟩
    rintro rfl
    simp [hv] at hw
  case h_2 i h =>
    have hi := s.index_iff v i |>.mp h
    simp only [contains]
    by_cases hwv : w = v
    case pos => simp [hwv]
    case neg =>
      rw [Function.update_of_ne hwv]
      by_cases hwb : w = s.valueSequence.getLast (List.ne_nil_of_mem <| List.mem_of_getElem? hi)
      case pos =>
        have hw : s.contains w = true := by
          rw [contains_iff, mem_def, hwb]
          exact List.getLast_mem _
        subst hwb
        simpa [hwv, contains] using hw
      case neg => simp [Function.update_of_ne hwb, hwv]

end OrderedSet
