import Mathlib.Data.List.TakeWhile
import Mathlib.Tactic

-- Lists that are split at the first element that does not have a property.
namespace Span

variable {p : α → Bool} {l w rest : List α}

def Stops (p : α → Bool) (l : List α) : Prop :=
  ∀ a ∈ l.head?, p a = false

-- The elements of `w` are the longest prefix of elements with property `p`.
structure Splits (p : α → Bool) (l w rest : List α) : Prop where
  append : l = w ++ rest
  all    : ∀ a ∈ w, p a
  stops  : Stops p rest

theorem stops_nil : Stops p [] := by
  simp [Stops]

theorem stops_cons : Stops p (a :: l) ↔ p a = false := by
  simp [Stops]

theorem Stops.takeWhile (h : Stops p l) : l.takeWhile p = [] := by
  cases l
  case nil      => rfl
  case cons a l => simp [stops_cons.mp h]

theorem stops_dropWhile (p : α → Bool) (l : List α) : Stops p (l.dropWhile p) := by
  induction l
  case nil => exact stops_nil
  case cons a l hi =>
    rw [List.dropWhile_cons]
    split
    case isTrue    => exact hi
    case isFalse h => simpa [stops_cons] using h

theorem splits_takeWhile (p : α → Bool) (l : List α) : Splits p l (l.takeWhile p) (l.dropWhile p) where
  append := List.takeWhile_append_dropWhile.symm
  all    := fun _ ha => List.mem_takeWhile_imp ha
  stops  := stops_dropWhile p l

namespace Splits

theorem takeWhile (h : Splits p l w rest) : l.takeWhile p = w := by
  rw [h.append, List.takeWhile_append_of_pos h.all, h.stops.takeWhile, List.append_nil]

theorem drop (h : Splits p l w rest) : l.drop w.length = rest := by
  rw [h.append, List.drop_left]

theorem length_le (h : Splits p l w rest) : rest.length ≤ l.length := by
  simp [h.append]

theorem length_lt (h : Splits p l w rest) (hw : w ≠ []) : rest.length < l.length := by
  have := List.length_pos_of_ne_nil hw
  simp [h.append]
  omega

end Splits

theorem splits_iff : Splits p l w rest ↔ l.takeWhile p = w ∧ l.drop w.length = rest := by
  constructor
  case mp => exact fun h => ⟨h.takeWhile, h.drop⟩
  case mpr =>
    rintro ⟨rfl, rfl⟩
    have h := splits_takeWhile p l
    rw [h.drop]
    exact h

theorem dropWhile_eq_iff : l.dropWhile p = rest ↔ ∃ w, Splits p l w rest := by
  constructor
  case mp =>
    rintro rfl
    exact ⟨_, splits_takeWhile p l⟩
  case mpr =>
    rintro ⟨w, h⟩
    rw [h.append, List.dropWhile_append_of_pos h.all]
    cases rest
    case nil         => rfl
    case cons a rest => simp [stops_cons.mp h.stops]

end Span
