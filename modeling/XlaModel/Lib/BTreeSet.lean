import Mathlib.Data.List.TakeWhile
import Mathlib.Order.Defs.Unbundled
import Mathlib.Tactic

-- Ordered sets as sorted lists, with the iterators of an ordered container.
namespace BTreeSet

variable {α : Type u} (lt : α → α → Prop) [DecidableRel lt]

-- The elements in front of the lower bound of `x`.
def before (x : α) (xs : List α) : List α :=
  xs.takeWhile (lt · x)

def lowerBound (x : α) (xs : List α) : List α :=
  xs.dropWhile (lt · x)

-- An equivalent element is kept.
def insert (x : α) (xs : List α) : List α :=
  match lowerBound lt x xs with
  | []      => xs ++ [x]
  | y :: ys => if lt x y then before lt x xs ++ x :: y :: ys else xs

variable {lt} {x y : α} {xs ys : List α}

-- An iterator that passes over some elements stops at one it does not.
theorem exists_append_dropWhile (p : α → Bool) (xs : List α) :
    ∃ passed, xs = passed ++ xs.dropWhile p ∧ (∀ a ∈ passed, p a) ∧ ∀ a ∈ (xs.dropWhile p).head?, p a = false := by
  refine ⟨xs.takeWhile p, List.takeWhile_append_dropWhile.symm, fun a ha => List.mem_takeWhile_imp ha, fun a ha => ?_⟩
  have hn := List.head?_dropWhile_not p xs
  rwa [Option.mem_def.mp ha] at hn

theorem before_append (h : ∀ a ∈ xs, lt a x) (h' : ∀ a ∈ ys, ¬lt a x) : before lt x (xs ++ ys) = xs := by
  rw [before, List.takeWhile_append_of_pos (by simpa using h)]
  cases ys
  case nil       => simp
  case cons y ys => simp [h' y]

theorem lowerBound_append (h : ∀ a ∈ xs, lt a x) (h' : ∀ a ∈ ys, ¬lt a x) : lowerBound lt x (xs ++ ys) = ys := by
  rw [lowerBound, List.dropWhile_append_of_pos (by simpa using h)]
  cases ys
  case nil       => rfl
  case cons y ys => simp [h' y]

theorem insert_append (h : ∀ a ∈ xs, lt a x) (h' : ∀ a ∈ ys, ¬lt a x ∧ lt x a) :
    insert lt x (xs ++ ys) = xs ++ x :: ys := by
  rw [insert, lowerBound_append h fun a ha => (h' a ha).1, before_append h fun a ha => (h' a ha).1]
  cases ys
  case nil       => simp
  case cons y ys => simp [h' y]

section Sorted

variable [IsTrans α lt]

-- A sorted list is divided by the lower bound of an element.
theorem before_append_lowerBound (h : xs.Pairwise lt) (x : α) :
    xs = before lt x xs ++ lowerBound lt x xs ∧ (∀ a ∈ before lt x xs, lt a x) ∧ ∀ a ∈ lowerBound lt x xs, ¬lt a x := by
  refine ⟨List.takeWhile_append_dropWhile.symm, ?before, ?rest⟩
  case before => exact fun a ha => by simpa using List.mem_takeWhile_imp ha
  case rest =>
    induction xs
    case nil => exact fun a ha => absurd ha List.not_mem_nil
    case cons y ys hi =>
      obtain ⟨hy, hys⟩ := List.pairwise_cons.mp h
      by_cases hlt : lt y x
      case pos => simpa [lowerBound, hlt] using hi hys
      case neg =>
        simp only [lowerBound, hlt, decide_false, Bool.false_eq_true, not_false_eq_true, List.dropWhile_cons_of_neg]
        refine List.forall_mem_cons.mpr ⟨hlt, fun a ha hax => hlt (trans_of lt (hy a ha) hax)⟩

-- The insertion of an element that is comparable with the others.
theorem insert_eq (h : xs.Pairwise lt) (hx : ∀ a ∈ xs, lt a x ∨ lt x a) :
    insert lt x xs = before lt x xs ++ x :: lowerBound lt x xs := by
  obtain ⟨he, hb, hl⟩ := before_append_lowerBound h x
  conv_lhs => rw [he]
  refine insert_append hb fun a ha => ⟨hl a ha, ?_⟩
  exact (hx a (he ▸ List.mem_append_right _ ha)).resolve_left (hl a ha)

theorem mem_insert (h : xs.Pairwise lt) (hx : ∀ a ∈ xs, lt a x ∨ lt x a) : y ∈ insert lt x xs ↔ y = x ∨ y ∈ xs := by
  rw [insert_eq h hx]
  conv_rhs => rw [(before_append_lowerBound h x).1]
  simp only [List.mem_append, List.mem_cons]
  tauto

theorem pairwise_insert (h : xs.Pairwise lt) (hx : ∀ a ∈ xs, lt a x ∨ lt x a) : (insert lt x xs).Pairwise lt := by
  obtain ⟨he, hb, hl⟩ := before_append_lowerBound h x
  rw [insert_eq h hx]
  rw [he, List.pairwise_append] at h
  refine List.pairwise_append.mpr ⟨h.1, List.pairwise_cons.mpr ⟨fun a ha => ?lt, h.2.1⟩, fun a ha b hb' => ?others⟩
  case lt => exact (hx a (he ▸ List.mem_append_right _ ha)).resolve_left (hl a ha)
  case others =>
    obtain rfl | hb' := List.mem_cons.mp hb'
    case inl => exact hb a ha
    case inr => exact h.2.2 a ha b hb'

end Sorted
end BTreeSet
