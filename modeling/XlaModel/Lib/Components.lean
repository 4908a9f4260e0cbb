import Mathlib.Data.List.Infix
import Mathlib.Tactic

-- Strings that are split into their non-empty components at a separator.
namespace Components

variable {α : Type u} {x : α} {s t : List α} {cs ds : List (List α)}

def join (x : α) (cs : List (List α)) : List α :=
  [x].intercalate cs

structure Valid (x : α) (cs : List (List α)) : Prop where
  ne_nil  : ∀ c ∈ cs, c ≠ []
  not_mem : ∀ c ∈ cs, x ∉ c

theorem Valid.cons (h : Valid x (s :: cs)) : s ≠ [] ∧ x ∉ s ∧ Valid x cs where
  left        := h.ne_nil s List.mem_cons_self
  right.left  := h.not_mem s List.mem_cons_self
  right.right := ⟨fun c hc => h.ne_nil c (.tail _ hc), fun c hc => h.not_mem c (.tail _ hc)⟩

section Join

@[simp]
theorem join_nil : join x ([] : List (List α)) = [] :=
  rfl

@[simp]
theorem join_singleton : join x [s] = s :=
  List.intercalate_singleton

theorem join_cons (h : cs ≠ []) : join x (s :: cs) = s ++ x :: join x cs := by
  rw [join, List.intercalate_cons_of_ne_nil h, join, List.append_assoc, List.singleton_append]

theorem join_append (hc : cs ≠ []) (hd : ds ≠ []) : join x (cs ++ ds) = join x cs ++ x :: join x ds := by
  induction cs
  case nil => exact absurd rfl hc
  case cons c cs hi =>
    cases cs
    case nil => simpa using join_cons hd
    case cons b cs =>
      have hbc : b :: cs ≠ [] := List.cons_ne_nil _ _
      rw [List.cons_append, join_cons (by simp), hi hbc, join_cons hbc, List.append_assoc, List.cons_append]

theorem mem_join {a : α} (h : a ∈ join x cs) : a = x ∨ ∃ c ∈ cs, a ∈ c := by
  induction cs
  case nil => cases h
  case cons c cs hi =>
    cases cs
    case nil => exact .inr ⟨c, List.mem_cons_self, by simpa using h⟩
    case cons b cs =>
      rw [join_cons (List.cons_ne_nil _ _), List.mem_append, List.mem_cons] at h
      obtain h | h | h := h
      case inl     => exact .inr ⟨c, List.mem_cons_self, h⟩
      case inr.inl => exact .inl h
      case inr.inr => exact (hi h).imp_right fun ⟨c, hc, ha⟩ => ⟨c, .tail _ hc, ha⟩

theorem subset_join (h : s ∈ cs) : s ⊆ join x cs := by
  induction cs
  case nil => cases h
  case cons c cs hi =>
    cases cs
    case nil => simp [List.mem_singleton.mp h]
    case cons b cs =>
      rw [join_cons (List.cons_ne_nil _ _)]
      obtain rfl | h := List.mem_cons.mp h
      case inl => exact List.subset_append_left ..
      case inr => exact fun a ha => List.mem_append_right _ (.tail _ (hi h ha))

end Join

variable [DecidableEq α]

def components (x : α) (s : List α) : List (List α) :=
  (s.splitOn x).filter (· ≠ [])

section Components

theorem components_append : components x (s ++ x :: t) = components x s ++ components x t := by
  rw [components, List.splitOn_append_cons_self, List.filter_append, components, components]

@[simp]
theorem components_nil : components x [] = [] := by
  simp [components]

@[simp]
theorem components_cons_self : components x (x :: s) = components x s := by
  simpa using components_append (s := []) (t := s)

theorem components_of_not_mem (h : x ∉ s) (hs : s ≠ []) : components x s = [s] := by
  simp [components, List.splitOn_eq_singleton h, hs]

theorem not_mem_of_mem_splitOn (h : t ∈ s.splitOn x) : x ∉ t := by
  induction s generalizing t
  case nil => simp_all
  case cons a s hi =>
    rw [List.splitOn_cons_eq_if_modifyHead] at h
    split_ifs at h with ha
    case pos =>
      obtain rfl | h := List.mem_cons.mp h
      case inl => exact List.not_mem_nil
      case inr => exact hi h
    case neg =>
      cases hs : s.splitOn x
      case nil => simp [hs] at h
      case cons u us =>
        rw [hs] at h hi
        obtain rfl | h := List.mem_cons.mp h
        case inl => simpa [Ne.symm (by simpa using ha : a ≠ x)] using hi List.mem_cons_self
        case inr => exact hi (.tail _ h)

theorem valid_components : Valid x (components x s) where
  ne_nil c hc  := by simpa using (List.mem_filter.mp hc).2
  not_mem c hc := not_mem_of_mem_splitOn (List.mem_filter.mp hc).1

theorem subset_of_mem_components (h : t ∈ components x s) : t ⊆ s := by
  have ht : t ⊆ join x (s.splitOn x) := subset_join (List.mem_filter.mp h).1
  rwa [join, List.intercalate_splitOn] at ht

-- Joining the components of a string removes separators only.
theorem mem_of_mem_join_components {a : α} (h : a ∈ join x (components x s)) (ha : a ≠ x) : a ∈ s := by
  obtain h | ⟨c, hc, h⟩ := mem_join h
  case inl => exact absurd h ha
  case inr => exact subset_of_mem_components hc h

end Components

section ComponentsJoin

theorem components_join (h : Valid x cs) : components x (join x cs) = cs := by
  induction cs
  case nil => exact components_nil
  case cons c cs hi =>
    obtain ⟨hne, hx, hv⟩ := h.cons
    cases cs
    case nil => rw [join_singleton, components_of_not_mem hx hne]
    case cons b cs =>
      rw [join_cons (List.cons_ne_nil _ _), components_append, components_of_not_mem hx hne, hi hv, List.singleton_append]

-- A joined string does not end with a separator.
theorem getLast?_join_ne (h : Valid x cs) : (join x cs).getLast? ≠ some x := by
  induction cs
  case nil => simp
  case cons c cs hi =>
    obtain ⟨hne, hx, hv⟩ := h.cons
    cases cs
    case nil =>
      rw [join_singleton]
      exact fun hl => hx (List.mem_of_getLast? hl)
    case cons b cs =>
      have hb : join x (b :: cs) ≠ [] := fun hn => by
        have hc := components_join hv
        simp [hn] at hc
      rw [join_cons (List.cons_ne_nil _ _), List.getLast?_append_of_ne_nil _ (List.cons_ne_nil _ _),
        List.getLast?_cons, List.getLast?_eq_some_getLast hb, Option.getD_some, ←List.getLast?_eq_some_getLast hb]
      exact hi hv

-- A string that is followed by a separator is a prefix if its components are the first ones of others.
theorem join_append_prefix_iff (hc : Valid x cs) (hd : Valid x ds) (hne : ds ≠ []) :
    join x ds ++ [x] <+: join x cs ↔ ds <+: cs ∧ ds ≠ cs := by
  constructor
  case mp =>
    rintro ⟨t, ht⟩
    rw [List.append_assoc, List.singleton_append] at ht
    have he : ds ++ components x t = cs := by
      rw [←components_join hc, ←ht, components_append, components_join hd]
    refine ⟨⟨_, he⟩, fun hcs => ?_⟩
    have hlen := congrArg List.length ht
    simp [hcs] at hlen
  case mpr =>
    rintro ⟨⟨es, rfl⟩, hcs⟩
    have hes : es ≠ [] := by
      rintro rfl
      simp at hcs
    rw [join_append hne hes]
    exact ⟨join x es, by simp⟩

end ComponentsJoin

end Components
