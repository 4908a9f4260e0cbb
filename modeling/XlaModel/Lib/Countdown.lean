import Mathlib

-- An acyclic graph. The targets of the edges from a node can be repeated.
structure Dag (ν : Type u) where
  nodes    : Finset ν
  succ     : ν → Multiset ν
  rank     : ν → Nat
  succ_mem : i ∈ nodes → j ∈ succ i → j ∈ nodes
  rank_lt  : i ∈ nodes → j ∈ succ i → rank i < rank j

variable {ν : Type u} [DecidableEq ν]

namespace Dag

variable {G : Dag ν} {visited : Finset ν}

def sinks (G : Dag ν) : Finset ν :=
  G.nodes.filter (G.succ · = 0)

-- The targets of the edges from the nodes that have not been visited.
def targets (G : Dag ν) (visited : Finset ν) : Multiset ν :=
  ∑ i ∈ G.nodes \ visited, G.succ i

theorem mem_sinks : i ∈ G.sinks ↔ i ∈ G.nodes ∧ G.succ i = 0 :=
  Finset.mem_filter

theorem mem_targets : j ∈ G.targets visited ↔ ∃ i ∈ G.nodes, i ∉ visited ∧ j ∈ G.succ i := by
  simp [targets, Multiset.mem_sum, and_assoc]

theorem targets_insert (hi : i ∈ G.nodes) (hv : i ∉ visited) :
    G.targets visited = G.succ i + G.targets (insert i visited) := by
  have he : G.nodes \ visited = insert i (G.nodes \ insert i visited) := by grind
  rw [targets, he, Finset.sum_insert (by simp), targets]

theorem sinks_insert (hi : i ∈ G.nodes) (hv : i ∉ visited) :
    (G.sinks \ visited).card = (G.sinks \ insert i visited).card + if G.succ i = 0 then 1 else 0 := by
  split
  case isTrue h =>
    have he : G.sinks \ visited = insert i (G.sinks \ insert i visited) := by grind [mem_sinks]
    rw [he, Finset.card_insert_of_notMem (by simp)]
  case isFalse h =>
    have he : G.sinks \ visited = G.sinks \ insert i visited := by grind [mem_sinks]
    rw [he, Nat.add_zero]

-- A set that is closed under successors and not empty has a sink.
theorem exists_sink {S : Finset ν} (hs : S ⊆ G.nodes) (hc : ∀ i ∈ S, ∀ j ∈ G.succ i, j ∈ S) (hn : S.Nonempty) :
    ∃ i ∈ S, i ∈ G.sinks := by
  obtain ⟨i, hi, hm⟩ := S.exists_max_image G.rank hn
  refine ⟨i, hi, mem_sinks.mpr ⟨hs hi, Multiset.eq_zero_of_forall_notMem fun j hj => ?_⟩⟩
  exact absurd (hm j <| hc i hi j hj) (Nat.not_le.mpr <| G.rank_lt (hs hi) hj)

omit [DecidableEq ν] in
-- A set that is not empty has a node without predecessors in the set.
theorem exists_minimal {S : Finset ν} (hs : S ⊆ G.nodes) (hn : S.Nonempty) :
    ∃ j ∈ S, ∀ i ∈ S, j ∉ G.succ i := by
  obtain ⟨j, hj, hm⟩ := S.exists_min_image G.rank hn
  exact ⟨j, hj, fun i hi h => absurd (hm i hi) (Nat.not_le.mpr <| G.rank_lt (hs hi) h)⟩

-- Properties that are passed on to the sources of edges hold for all nodes if they hold for the sinks.
theorem induction_succ {P : ν → Prop} (hsink : ∀ i ∈ G.sinks, P i)
    (hsucc : ∀ i ∈ G.nodes, ∀ j ∈ G.succ i, P j → P i) : ∀ i ∈ G.nodes, P i := by
  classical
  by_contra h
  push Not at h
  obtain ⟨i, hi, hp⟩ := h
  have hc : ∀ i ∈ G.nodes.filter (¬P ·), ∀ j ∈ G.succ i, j ∈ G.nodes.filter (¬P ·) := by
    intro i hi j hj
    obtain ⟨hi, hp⟩ := Finset.mem_filter.mp hi
    exact Finset.mem_filter.mpr ⟨G.succ_mem hi hj, fun h => hp <| hsucc i hi j hj h⟩
  obtain ⟨j, hj, hs⟩ := exists_sink (Finset.filter_subset _ _) hc ⟨i, Finset.mem_filter.mpr ⟨hi, hp⟩⟩
  exact (Finset.mem_filter.mp hj).2 (hsink j hs)

end Dag

-- The execution of an acyclic graph by counters. The counter of a node is the number of edges to the node that have not
-- been processed, and the node becomes ready when its counter drops to zero. The edges that are `due` are those from
-- visited nodes. The number of `pending` nodes tells when the execution is finished.
namespace Countdown

@[ext]
structure State (ν : Type u) where
  counter  : ν → Int
  visited  : Finset ν
  ready    : Multiset ν
  due      : Multiset (ν × ν)
  pending  : Int
  drops    : Multiset ν
  finished : Nat

-- The initial number of pending nodes is the number of sinks.
structure Init (G : Dag ν) (s : State ν) : Prop where
  counter  : ∀ j, s.counter j = (G.targets ∅).count j
  visited  : s.visited = ∅
  ready    : ∀ j, s.ready.count j = if j ∈ G.nodes ∧ s.counter j = 0 then 1 else 0
  due      : s.due = 0
  pending  : s.pending = G.sinks.card
  drops    : s.drops = 0
  finished : s.finished = 0

inductive Step (G : Dag ν) : State ν → State ν → Prop
  -- A visited sink has to drop the number of pending nodes.
  | visit (s : State ν) (i : ν) :
    Step G { s with ready := i ::ₘ s.ready } { s with
      visited := insert i s.visited
      due     := (G.succ i).map (i, ·) + s.due
      drops   := (if G.succ i = 0 then {i} else 0) + s.drops
    }
  | decrement (s : State ν) (i j : ν) :
    Step G { s with due := (i, j) ::ₘ s.due } { s with
      counter := Function.update s.counter j (s.counter j - 1)
      ready   := (if s.counter j = 1 then {j} else 0) + s.ready
    }
  -- Only while one of the edges of the node is due.
  | increment (s : State ν) (i : ν) (h : (i, j) ∈ s.due) :
    Step G s { s with
      pending := s.pending + 1
      drops   := i ::ₘ s.drops
    }
  | drop (s : State ν) (i : ν) :
    Step G { s with drops := i ::ₘ s.drops } { s with
      pending  := s.pending - 1
      finished := s.finished + if s.pending = 1 then 1 else 0
    }

structure Inv (G : Dag ν) (s : State ν) : Prop where
  visited  : s.visited ⊆ G.nodes
  due      : ∀ e ∈ s.due, e.1 ∈ s.visited ∧ e.2 ∈ G.succ e.1
  counter  : ∀ j, s.counter j = (G.targets s.visited).count j + (s.due.map Prod.snd).count j
  ready    : ∀ j, s.ready.count j + (if j ∈ s.visited then 1 else 0) = if j ∈ G.nodes ∧ s.counter j = 0 then 1 else 0
  pending  : s.pending = (G.sinks \ s.visited).card + s.drops.card
  finished : s.finished = if s.pending = 0 then 1 else 0

namespace Inv

variable {G : Dag ν} {s s₁ s₂ : State ν}

theorem of_init (h : Init G s) (hn : G.nodes.Nonempty) : Inv G s where
  visited  := by simp [h.visited]
  due      := by simp [h.due]
  counter  := by simp [h.counter, h.visited, h.due]
  ready    := by simp [h.ready, h.visited]
  pending  := by simp [h.pending, h.visited, h.drops]
  finished := by
    obtain ⟨i, -, hi⟩ := Dag.exists_sink (Finset.Subset.refl _) (fun i hi j hj => G.succ_mem hi hj) hn
    have : 0 < G.sinks.card := Finset.card_pos.mpr ⟨i, hi⟩
    rw [h.finished, h.pending, if_neg (by omega)]

variable (i : Inv G s)
include i

theorem of_mem_ready (h : j ∈ s.ready) : j ∈ G.nodes ∧ j ∉ s.visited ∧ s.counter j = 0 := by
  have hc := Multiset.one_le_count_iff_mem.mpr h
  have hr := i.ready j
  split_ifs at hr <;> grind

theorem not_visited (h : s.counter j ≠ 0) : j ∉ s.visited := by
  intro hv
  have hr := i.ready j
  rw [if_pos hv, if_neg fun hz => h hz.2] at hr
  exact absurd hr (Nat.succ_ne_zero _)

theorem mem_nodes_of_due (h : e ∈ s.due) : e.2 ∈ G.nodes :=
  have hd := i.due e h
  G.succ_mem (i.visited hd.1) hd.2

-- A counter is not decremented below zero.
theorem counter_pos (h : e ∈ s.due) : 1 ≤ s.counter e.2 := by
  have := Multiset.one_le_count_iff_mem.mpr (Multiset.mem_map_of_mem Prod.snd h)
  rw [i.counter]
  omega

-- All edges to a node whose counter is zero have been processed.
theorem processed (h : s.counter k = 0) (hj : j ∈ G.nodes) (hk : k ∈ G.succ j) : j ∈ s.visited ∧ (j, k) ∉ s.due := by
  have hc := i.counter k
  constructor
  case left =>
    by_contra hv
    have := Multiset.one_le_count_iff_mem.mpr (Dag.mem_targets.mpr ⟨j, hj, hv, hk⟩)
    omega
  case right =>
    intro hd
    have := i.counter_pos hd
    simp only at this
    omega

-- As long as a node has not been visited, there is a sink that has not been visited.
theorem pending_pos (hn : k ∈ G.nodes) (hk : k ∉ s.visited) : 0 < s.pending := by
  have hc : ∀ i ∈ G.nodes \ s.visited, ∀ j ∈ G.succ i, j ∈ G.nodes \ s.visited := by
    intro a ha b hb
    rw [Finset.mem_sdiff] at ha ⊢
    refine ⟨G.succ_mem ha.1 hb, i.not_visited fun hz => ?_⟩
    exact ha.2 (i.processed hz ha.1 hb).1
  obtain ⟨j, hj, hs⟩ := Dag.exists_sink Finset.sdiff_subset hc ⟨k, Finset.mem_sdiff.mpr ⟨hn, hk⟩⟩
  have : 0 < (G.sinks \ s.visited).card :=
    Finset.card_pos.mpr ⟨j, Finset.mem_sdiff.mpr ⟨hs, (Finset.mem_sdiff.mp hj).2⟩⟩
  rw [i.pending]
  omega

theorem pending_pos_of_due (h : e ∈ s.due) : 0 < s.pending := by
  have := i.counter_pos h
  exact i.pending_pos (i.mem_nodes_of_due h) (i.not_visited (by omega))

-- Nothing is left to do when there are no pending nodes.
theorem of_pending_eq_zero (h : s.pending = 0) :
    s.visited = G.nodes ∧ s.due = 0 ∧ s.ready = 0 ∧ s.drops = 0 := by
  have hv : s.visited = G.nodes := by
    refine i.visited.antisymm fun j hj => ?_
    by_contra hn
    have := i.pending_pos hj hn
    omega
  refine ⟨hv, ?due, ?ready, ?pending⟩
  case due =>
    refine Multiset.eq_zero_of_forall_notMem fun e he => ?_
    have := i.pending_pos_of_due he
    omega
  case ready =>
    refine Multiset.eq_zero_of_forall_notMem fun j hj => ?_
    have := i.of_mem_ready hj
    exact this.2.1 (hv ▸ this.1)
  case pending =>
    have := i.pending
    exact Multiset.card_eq_zero.mp (by omega)

-- There is a ready node unless edges have to be processed or all nodes have been visited.
theorem exists_ready (hd : s.due = 0) (hv : s.visited ≠ G.nodes) : ∃ j, j ∈ s.ready := by
  have hn : (G.nodes \ s.visited).Nonempty :=
    Finset.sdiff_nonempty.mpr fun h => hv (i.visited.antisymm h)
  obtain ⟨j, hj, hm⟩ := Dag.exists_minimal Finset.sdiff_subset hn
  rw [Finset.mem_sdiff] at hj
  have hc : s.counter j = 0 := by
    have ht : j ∉ G.targets s.visited := by
      rw [Dag.mem_targets]
      rintro ⟨k, hk, hv, hs⟩
      exact hm k (Finset.mem_sdiff.mpr ⟨hk, hv⟩) hs
    simp [i.counter, hd, Multiset.count_eq_zero.mpr ht]
  have hr := i.ready j
  rw [if_neg hj.2, if_pos ⟨hj.1, hc⟩] at hr
  exact ⟨j, Multiset.one_le_count_iff_mem.mp hr.ge⟩

omit i

theorem visit {k : ν} (h : Inv G { s with ready := k ::ₘ s.ready }) : Inv G { s with
    visited := insert k s.visited
    due     := (G.succ k).map (k, ·) + s.due
    drops   := (if G.succ k = 0 then {k} else 0) + s.drops } := by
  obtain ⟨hk, hv, hz⟩ := h.of_mem_ready (Multiset.mem_cons_self _ _)
  simp only at hv hz
  constructor
  case visited => exact Finset.insert_subset hk h.visited
  case due =>
    intro e he
    rcases Multiset.mem_add.mp he with he | he
    case inl =>
      obtain ⟨j, hj, rfl⟩ := Multiset.mem_map.mp he
      exact ⟨Finset.mem_insert_self _ _, hj⟩
    case inr => exact ⟨Finset.mem_insert_of_mem (h.due e he).1, (h.due e he).2⟩
  case counter =>
    intro j
    have hc := h.counter j
    simp only [Dag.targets_insert hk hv, Multiset.count_add, Nat.cast_add] at hc
    simp only [Multiset.map_add, Multiset.map_map, Function.comp_apply, Multiset.map_id', Multiset.count_add,
      Nat.cast_add]
    omega
  case ready =>
    intro j
    have hr := h.ready j
    simp only [Multiset.count_cons, Finset.mem_insert] at hr ⊢
    by_cases hj : j = k
    case pos => subst hj; simp_all
    case neg => simpa [hj] using hr
  case pending =>
    have hp := h.pending
    have hs := Dag.sinks_insert hk hv
    have hd : (if G.succ k = 0 then ({k} : Multiset ν) else 0).card = if G.succ k = 0 then 1 else 0 := by
      split <;> simp
    simp only [Multiset.card_add, hd, Nat.cast_add] at hp ⊢
    omega
  case finished => exact h.finished

theorem decrement {k j : ν} (h : Inv G { s with due := (k, j) ::ₘ s.due }) : Inv G { s with
    counter := Function.update s.counter j (s.counter j - 1)
    ready   := (if s.counter j = 1 then {j} else 0) + s.ready } := by
  have hd := Multiset.mem_cons_self (k, j) s.due
  have hp : 1 ≤ s.counter j := h.counter_pos hd
  have hv : j ∉ s.visited := h.not_visited (by simp only; omega)
  have hn : j ∈ G.nodes := h.mem_nodes_of_due hd
  constructor
  case visited  => exact h.visited
  case due      => exact fun e he => h.due e (Multiset.mem_cons_of_mem he)
  case pending  => exact h.pending
  case finished => exact h.finished
  case counter =>
    intro m
    have hc := h.counter m
    simp only [Multiset.map_cons, Multiset.count_cons] at hc
    simp only [Function.update_apply]
    split_ifs at hc ⊢
    all_goals
      push_cast at hc
      grind
  case ready =>
    intro m
    have hr := h.ready m
    simp only [Function.update_apply, Multiset.count_add] at hr ⊢
    by_cases hm : m = j
    case pos =>
      subst hm
      rw [if_neg hv, if_neg (by rintro ⟨-, hz⟩; omega)] at hr
      rw [if_neg hv]
      split_ifs <;> simp_all
      omega
    case neg =>
      rw [if_neg hm]
      split_ifs at hr ⊢ <;> simp_all

theorem increment {k j : ν} (h : Inv G s) (hd : (k, j) ∈ s.due) :
    Inv G { s with pending := s.pending + 1, drops := k ::ₘ s.drops } where
  visited  := h.visited
  due      := h.due
  counter  := h.counter
  ready    := h.ready
  pending  := by
    have := h.pending
    simp only [Multiset.card_cons]
    omega
  finished := by
    have := h.pending_pos_of_due hd
    have hf := h.finished
    rw [if_neg (by omega)] at hf
    simp only [hf]
    rw [if_neg (by omega)]

theorem drop {k : ν} (h : Inv G { s with drops := k ::ₘ s.drops }) : Inv G { s with
    pending  := s.pending - 1
    finished := s.finished + if s.pending = 1 then 1 else 0 } where
  visited  := h.visited
  due      := h.due
  counter  := h.counter
  ready    := h.ready
  pending  := by
    have := h.pending
    simp only [Multiset.card_cons] at this ⊢
    omega
  finished := by
    have hp := h.pending
    have hf := h.finished
    simp only [Multiset.card_cons] at hp hf ⊢
    rw [if_neg (by omega)] at hf
    rw [hf]
    split_ifs <;> omega

theorem step (h : Inv G s₁) (hs : Step G s₁ s₂) : Inv G s₂ := by
  cases hs
  case visit           => exact h.visit
  case decrement       => exact h.decrement
  case increment hd    => exact h.increment hd
  case drop            => exact h.drop

end Inv
end Countdown
