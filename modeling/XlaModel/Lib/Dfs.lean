import Mathlib.Algebra.BigOperators.Group.Finset.Basic
import Mathlib.Data.Finset.Basic
import Mathlib.Logic.Relation
import Mathlib.Tactic

-- Depth first search with an explicit stack. A node is marked when it is popped, so the stack may
-- hold a node more than once. The search is restricted to nodes that satisfy `ok` and is aborted
-- when an edge to a node that satisfies `stop` is found.
namespace Dfs

section

variable {α : Type u} (stop ok : α → Bool)

def push (marks : α → Bool) : List α → (stack : List α) → Option (List α)
  | [],      stack => some stack
  | w :: ws, stack =>
    if stop w then
      none
    else if ¬marks w ∧ ok w then
      push marks ws (w :: stack)
    else
      push marks ws stack

variable [DecidableEq α] (succ : α → List α)

-- Returns whether the search was completed, the marks and the list of nodes marked by the search.
def loop : (fuel : Nat) → (marks : α → Bool) → (stack delta : List α) → Bool × (α → Bool) × List α
  | 0,        marks, _,          delta => (true, marks, delta)
  | _,        marks, [],         delta => (true, marks, delta)
  | fuel + 1, marks, n :: stack, delta =>
    if marks n then
      loop fuel marks stack delta
    else
      let marks := Function.update marks n true
      match push stop ok marks (succ n) stack with
      | none       => (false, marks, delta ++ [n])
      | some stack => loop fuel marks stack (delta ++ [n])

def Step (a b : α) : Prop :=
  b ∈ succ a ∧ ok b

def Reach : α → α → Prop :=
  Relation.ReflTransGen (Step ok succ)

-- The work that is left for a search in the universe `U`: the edges of the unmarked nodes are yet
-- to be pushed and the stack is yet to be popped.
def work (U : Finset α) (marks : α → Bool) (stack : List α) : Nat :=
  (∑ n ∈ U with ¬marks n, (succ n).length) + stack.length

end

variable {α : Type u} {stop ok marks : α → Bool} {succ : α → List α}

theorem push_some (h : push stop ok marks ws stack = some stack') :
    (∀ w ∈ ws, stop w = false) ∧
    (∀ m, m ∈ stack' ↔ m ∈ stack ∨ (m ∈ ws ∧ ¬marks m ∧ ok m)) := by
  induction ws generalizing stack <;> simp only [push] at h
  case nil => simp_all
  case cons w ws hi =>
    split at h
    case isTrue => contradiction
    case isFalse hs =>
      split at h
      case isTrue hw =>
        have ⟨h₁, h₂⟩ := hi h
        refine ⟨by simpa [hs] using h₁, fun m => ?_⟩
        rw [h₂, List.mem_cons, List.mem_cons]
        grind
      case isFalse hw =>
        have ⟨h₁, h₂⟩ := hi h
        refine ⟨by simpa [hs] using h₁, fun m => ?_⟩
        rw [h₂, List.mem_cons]
        grind

theorem push_none (h : push stop ok marks ws stack = none) : ∃ w ∈ ws, stop w = true := by
  induction ws generalizing stack <;> simp only [push] at h
  case nil => contradiction
  case cons w ws hi =>
    split at h
    case isTrue hs  => exact ⟨w, by simp, hs⟩
    case isFalse hs =>
      have ⟨v, hv, hs⟩ : ∃ w ∈ ws, stop w = true := by split at h <;> exact hi h
      exact ⟨v, by simp [hv], hs⟩

theorem push_length (h : push stop ok marks ws stack = some stack') :
    stack'.length ≤ stack.length + ws.length := by
  induction ws generalizing stack <;> simp only [push] at h
  case nil => simp_all
  case cons w ws hi =>
    split at h <;> try contradiction
    split at h <;> have := hi h <;> simp only [List.length_cons] at * <;> omega

variable [DecidableEq α]

theorem work_mark {U : Finset α} (stack : List α) (hn : n ∈ U) (hm : marks n = false) :
    work succ U (Function.update marks n true) stack + (succ n).length = work succ U marks stack := by
  have h : (U.filter (¬marks · = true)) =
      insert n (U.filter (¬Function.update marks n true · = true)) := by
    ext m
    by_cases hmn : m = n <;> simp [hmn, hn, hm]
  rw [work, work, h, Finset.sum_insert (by simp)]
  omega

-- The state of a search that has been started at `root` with the marks `marks₀`.
structure Inv (stop ok : α → Bool) (succ : α → List α) (marks₀ : α → Bool) (root : α)
    (marks : α → Bool) (stack delta : List α) : Prop where
  marks_iff : ∀ m, marks m = true ↔ marks₀ m = true ∨ m ∈ delta
  nodup     : delta.Nodup
  unmarked  : ∀ m ∈ delta, marks₀ m = false
  reach     : ∀ m, m ∈ delta ∨ m ∈ stack → Reach ok succ root m
  no_stop   : ∀ m ∈ delta, ∀ w ∈ succ m, stop w = false
  closed    : ∀ m ∈ delta, ∀ w ∈ succ m, ok w → marks w ∨ w ∈ stack
  root      : marks root ∨ root ∈ stack

omit [DecidableEq α] in
theorem Inv.init {marks₀ : α → Bool} {root : α} : Inv stop ok succ marks₀ root marks₀ [root] [] where
  marks_iff := by simp
  nodup     := by simp
  unmarked  := by simp
  reach     := by simpa using .refl
  no_stop   := by simp
  closed    := by simp
  root      := by simp

variable {marks₀ : α → Bool} {root n : α} {stack delta : List α}

omit [DecidableEq α] in
theorem Inv.pop (i : Inv stop ok succ marks₀ root marks (n :: stack) delta) (h : marks n = true) :
    Inv stop ok succ marks₀ root marks stack delta := by
  refine { i with reach := fun m hm => i.reach m ?_, closed := fun m hm w hw ho => ?_, root := ?_ }
  · simp only [List.mem_cons]
    tauto
  · have := i.closed m hm w hw ho
    simp only [List.mem_cons] at this
    rcases this with h' | rfl | h' <;> simp [*]
  · have := i.root
    simp only [List.mem_cons] at this
    rcases this with h' | rfl | h' <;> simp [*]

omit [DecidableEq α] in
theorem Inv.not_mem_delta (i : Inv stop ok succ marks₀ root marks stack delta)
    (h : marks n = false) : n ∉ delta := by
  intro hn
  simp [i.marks_iff n |>.mpr (.inr hn)] at h

theorem Inv.marks_iff_mark (i : Inv stop ok succ marks₀ root marks stack delta) (m : α) :
    Function.update marks n true m = true ↔ marks₀ m = true ∨ m ∈ delta ++ [n] := by
  by_cases hm : m = n
  case pos => simp [hm]
  case neg => simp [hm, i.marks_iff m]

omit [DecidableEq α] in
theorem Inv.nodup_mark (i : Inv stop ok succ marks₀ root marks stack delta) (h : marks n = false) :
    (delta ++ [n]).Nodup := by
  have := i.not_mem_delta h
  rw [List.nodup_append]
  exact ⟨i.nodup, by simp, by grind⟩

omit [DecidableEq α] in
theorem Inv.unmarked_mark (i : Inv stop ok succ marks₀ root marks stack delta)
    (h : marks n = false) : ∀ m ∈ delta ++ [n], marks₀ m = false := by
  intro m hm
  simp only [List.mem_append, List.mem_singleton] at hm
  rcases hm with hm | rfl
  · exact i.unmarked m hm
  · by_contra hc
    simp [i.marks_iff m |>.mpr (.inl <| by simpa using hc)] at h

theorem Inv.push (i : Inv stop ok succ marks₀ root marks (n :: stack) delta)
    (h : marks n = false)
    (hp : push stop ok (Function.update marks n true) (succ n) stack = some stack') :
    Inv stop ok succ marks₀ root (Function.update marks n true) stack' (delta ++ [n]) := by
  have ⟨hs, hw⟩ := push_some hp
  have hn : Reach ok succ root n := i.reach n (by simp)
  refine ⟨i.marks_iff_mark, i.nodup_mark h, i.unmarked_mark h, ?reach, ?noStop, ?closed, ?root⟩
  case reach =>
    intro m hm
    rw [List.mem_append, List.mem_singleton, hw] at hm
    rcases hm with (hm | rfl) | hm | ⟨hm, -, ho⟩
    · exact i.reach m (.inl hm)
    · exact hn
    · exact i.reach m (by simp [hm])
    · exact hn.tail ⟨hm, ho⟩
  case noStop =>
    intro m hm
    rw [List.mem_append, List.mem_singleton] at hm
    rcases hm with hm | rfl
    · exact i.no_stop m hm
    · exact hs
  case closed =>
    intro m hm w hwm ho
    rw [List.mem_append, List.mem_singleton] at hm
    by_cases hwn : w = n
    case pos => simp [hwn]
    case neg =>
      rw [Function.update_of_ne hwn, hw]
      rcases hm with hm | rfl
      · have := i.closed m hm w hwm ho
        simp only [List.mem_cons, hwn, false_or] at this
        tauto
      · by_cases hmw : marks w = true <;> simp [hmw, hwm, ho, hwn]
  case root =>
    by_cases hrn : root = n
    case pos => simp [hrn]
    case neg =>
      have := i.root
      simp only [List.mem_cons, hrn, false_or] at this
      rw [Function.update_of_ne hrn, hw]
      tauto

-- The result of a search that was not aborted.
structure Complete (stop ok : α → Bool) (succ : α → List α) (marks₀ : α → Bool) (root : α)
    (marks : α → Bool) (delta : List α) : Prop where
  marks_iff : ∀ m, marks m = true ↔ marks₀ m = true ∨ m ∈ delta
  nodup     : delta.Nodup
  unmarked  : ∀ m ∈ delta, marks₀ m = false
  reach     : ∀ m ∈ delta, Reach ok succ root m
  no_stop   : ∀ m ∈ delta, ∀ w ∈ succ m, stop w = false
  closed    : ∀ m ∈ delta, ∀ w ∈ succ m, ok w → marks w
  root      : marks root

-- The result of a search that was aborted.
structure Aborted (stop ok : α → Bool) (succ : α → List α) (marks₀ : α → Bool) (root : α)
    (marks : α → Bool) (delta : List α) : Prop where
  marks_iff : ∀ m, marks m = true ↔ marks₀ m = true ∨ m ∈ delta
  unmarked  : ∀ m ∈ delta, marks₀ m = false
  found     : ∃ m, Reach ok succ root m ∧ ∃ w ∈ succ m, stop w = true

omit [DecidableEq α] in
theorem Inv.complete (i : Inv stop ok succ marks₀ root marks [] delta) :
    Complete stop ok succ marks₀ root marks delta where
  marks_iff := i.marks_iff
  nodup     := i.nodup
  unmarked  := i.unmarked
  reach m h := i.reach m (.inl h)
  no_stop   := i.no_stop
  closed    := by simpa using i.closed
  root      := by simpa using i.root

def Result (stop ok : α → Bool) (succ : α → List α) (marks₀ : α → Bool) (root : α) :
    Bool × (α → Bool) × List α → Prop
  | (true,  marks, delta) => Complete stop ok succ marks₀ root marks delta
  | (false, marks, delta) => Aborted stop ok succ marks₀ root marks delta

theorem Inv.loop {U : Finset α} (hU : ∀ n ∈ U, ∀ w ∈ succ n, w ∈ U) (hs : ∀ n ∈ stack, n ∈ U)
    (i : Inv stop ok succ marks₀ root marks stack delta) (hf : work succ U marks stack ≤ fuel) :
    Result stop ok succ marks₀ root (loop stop ok succ fuel marks stack delta) := by
  induction fuel generalizing marks stack delta
  case zero =>
    cases stack
    case nil  => simpa [Dfs.loop, Result] using i.complete
    case cons => simp [work] at hf
  case succ fuel hi =>
    cases stack
    case nil => simpa [Dfs.loop, Result] using i.complete
    case cons n stack =>
      simp only [Dfs.loop]
      split
      case isTrue h =>
        refine hi (fun m hm => hs m (by simp [hm])) (i.pop h) ?_
        simp only [work, List.length_cons] at hf ⊢
        omega
      case isFalse h =>
        simp only [Bool.not_eq_true] at h
        split
        case h_1 hp =>
          exact ⟨i.marks_iff_mark, i.unmarked_mark h, n, i.reach n (by simp), push_none hp⟩
        case h_2 stack' hp =>
          have hn := hs n (by simp)
          refine hi (fun m hm => ?_) (i.push h hp) ?_
          · rw [(push_some hp).2] at hm
            rcases hm with hm | ⟨hm, -⟩
            · exact hs m (by simp [hm])
            · exact hU n hn m hm
          · have h₁ := @work_mark _ _ succ _ _ U stack hn h
            have h₂ := push_length hp
            simp only [work, List.length_cons] at hf h₁ ⊢
            omega

theorem loop_result {U : Finset α} (hU : ∀ n ∈ U, ∀ w ∈ succ n, w ∈ U) (hr : root ∈ U)
    (hf : work succ U marks₀ [root] ≤ fuel) :
    Result stop ok succ marks₀ root (loop stop ok succ fuel marks₀ [root] []) :=
  Inv.init.loop hU (by simpa using hr) hf

omit [DecidableEq α] in
-- A complete search finds all reachable nodes, if none of them has been marked before.
theorem Complete.mem_of_reach (c : Complete stop ok succ marks₀ root marks delta)
    (h₀ : ∀ m, Reach ok succ root m → marks₀ m = false) (h : Reach ok succ root m) : m ∈ delta := by
  have hmem {m : α} (hr : Reach ok succ root m) (hm : marks m = true) : m ∈ delta := by
    simpa [h₀ m hr] using c.marks_iff m |>.mp hm
  induction h
  case refl           => exact hmem .refl c.root
  case tail hr hs hi => exact hmem (hr.tail hs) (c.closed _ hi _ hs.1 hs.2)

end Dfs
