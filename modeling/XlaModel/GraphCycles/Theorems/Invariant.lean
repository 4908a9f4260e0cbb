import XlaModel.GraphCycles.Theorems.Reorder
import XlaModel.Lib.Path

namespace GraphCycles.Rep

variable {r : Rep}

def Edge (r : Rep) (x y : Nat) : Prop :=
  y ∈ r.outs x

instance : Decidable (r.Edge x y) :=
  inferInstanceAs <| Decidable (y ∈ r.outs x)

structure Live (r : Rep) (n : Nat) : Prop where
  lt       : n < r.nodes.length
  not_free : n ∉ r.freeNodes

-- The part of the representation invariant that does not relate the ranks to the edges. It also
-- holds while an edge is being inserted.
structure Valid (r : Rep) : Prop where
  length    : r.nodeIo.length = r.nodes.length
  ranks     : (r.nodes.map Node.rank).Perm (List.range r.nodes.length)
  mirrored  : ∀ x y, y ∈ r.outs x ↔ x ∈ r.ins y
  live      : ∀ x y, r.Edge x y → r.Live x ∧ r.Live y
  free_lt   : ∀ n ∈ r.freeNodes, n < r.nodes.length
  free      : r.freeNodes.Nodup
  unvisited : ∀ n ∈ r.nodes, n.visited = false

structure Inv (r : Rep) : Prop extends Valid r where
  rank_lt : ∀ x y, r.Edge x y → r.rank x < r.rank y

theorem map_node_range (r : Rep) : (List.range r.nodes.length).map r.node = r.nodes := by
  apply List.ext_getElem <;> simp [node]
  intro n h
  simp [h]

theorem map_rank_range (r : Rep) :
    (List.range r.nodes.length).map r.rank = r.nodes.map Node.rank := by
  nth_rewrite 2 [←r.map_node_range]
  simp [rank]

theorem forall_visited : (∀ n ∈ r.nodes, n.visited = false) ↔ ∀ n, r.visited n = false := by
  constructor
  · intro h n
    by_cases hn : n < r.nodes.length
    case pos => simpa [visited, node, hn] using h _ (List.getElem_mem hn)
    case neg => exact visited_of_le (by omega)
  · intro h n hn
    obtain ⟨i, hi⟩ := List.mem_iff_getElem?.mp hn
    simpa [visited, node, hi] using h i

namespace Valid

theorem inRange (v : Valid r) : InRange r where
  length     := v.length
  outs _ _ h := v.live _ _ h |>.2.lt
  ins  _ _ h := v.live _ _ (v.mirrored _ _ |>.mpr h) |>.1.lt

theorem not_visited (v : Valid r) (n : Nat) : r.visited n = false :=
  forall_visited.mp v.unvisited n

theorem rank_nodup (v : Valid r) : ((List.range r.nodes.length).map r.rank).Nodup := by
  rw [map_rank_range]
  exact v.ranks.nodup_iff.mpr List.nodup_range

theorem rank_inj (v : Valid r) (hx : x < r.nodes.length) (hy : y < r.nodes.length)
    (h : r.rank x = r.rank y) : x = y :=
  List.inj_on_of_nodup_map v.rank_nodup (List.mem_range.mpr hx) (List.mem_range.mpr hy) h

end Valid

-- The edges and ranks of the graph are unchanged.
structure Unchanged (r r' : Rep) : Prop where
  edge      : ∀ a b, r'.Edge a b ↔ r.Edge a b
  rank      : ∀ n, r'.rank n = r.rank n
  freeNodes : r'.freeNodes = r.freeNodes
  length    : r'.nodes.length = r.nodes.length

theorem Unchanged.live_iff (u : Unchanged r r') : r'.Live n ↔ r.Live n := by
  constructor <;> intro ⟨h₁, h₂⟩
  · exact ⟨u.length ▸ h₁, u.freeNodes ▸ h₂⟩
  · exact ⟨u.length ▸ h₁, u.freeNodes ▸ h₂⟩

theorem Unchanged.edge_eq (u : Unchanged r r') : r'.Edge = r.Edge := by
  funext a b
  exact propext (u.edge a b)

theorem SameGraph.unchanged (h : SameGraph r r') : Unchanged r r' where
  edge a b  := by simp [Edge, h.outs]
  rank      := h.rank
  freeNodes := h.freeNodes
  length    := h.length

theorem Inv.unchanged (i : Inv r) (u : Unchanged r r') (hl : r'.nodeIo.length = r.nodeIo.length)
    (hi : ∀ a b, a ∈ r'.ins b ↔ a ∈ r.ins b) (hv : ∀ n, r'.visited n = false) : Inv r' where
  length        := by rw [hl, u.length, i.length]
  ranks         := by
    have := i.ranks
    rw [←map_rank_range] at this ⊢
    rwa [u.length, funext u.rank]
  mirrored x y  := u.edge x y |>.trans <| i.mirrored x y |>.trans <| hi x y |>.symm
  live x y h    := by
    rw [u.live_iff, u.live_iff]
    exact i.live x y <| u.edge x y |>.mp h
  free_lt       := by simpa only [u.freeNodes, u.length] using i.free_lt
  free          := by simpa only [u.freeNodes] using i.free
  unvisited     := forall_visited.mpr hv
  rank_lt x y h := by
    rw [u.rank, u.rank]
    exact i.rank_lt x y <| u.edge x y |>.mp h

theorem Inv.sameGraph (i : Inv r) (h : SameGraph r r') (hv : ∀ n, r'.visited n = false) : Inv r' :=
  i.unchanged h.unchanged (by rw [h.nodeIo]) (by simp [h.ins]) hv

section RemoveEdge

theorem mem_outs_removeEdge (hx : x < r.nodeIo.length) :
    b ∈ (r.removeEdge x y).outs a ↔ b ∈ r.outs a ∧ ¬(a = x ∧ b = y) := by
  simp only [removeEdge, outs_modifyIns, outs_modifyOuts hx]
  split <;> simp_all

theorem mem_ins_removeEdge (hy : y < r.nodeIo.length) :
    a ∈ (r.removeEdge x y).ins b ↔ a ∈ r.ins b ∧ ¬(a = x ∧ b = y) := by
  simp only [removeEdge, ins_modifyIns (r := r.modifyOuts ..) (by simpa using hy), ins_modifyOuts]
  split <;> simp_all

theorem Inv.removeEdge (i : Inv r) (hx : r.Live x) (hy : r.Live y) : Inv (r.removeEdge x y) where
  length        := by simpa [Rep.removeEdge] using i.length
  ranks         := i.ranks
  mirrored a b  := by
    rw [mem_outs_removeEdge (i.length ▸ hx.lt), mem_ins_removeEdge (i.length ▸ hy.lt), i.mirrored]
  live a b h    := by
    have ⟨ha, hb⟩ := i.live a b (mem_outs_removeEdge (i.length ▸ hx.lt) |>.mp h |>.1)
    exact ⟨⟨ha.lt, ha.not_free⟩, ⟨hb.lt, hb.not_free⟩⟩
  free_lt       := i.free_lt
  free          := i.free
  unvisited     := i.unvisited
  rank_lt a b h := i.rank_lt a b (mem_outs_removeEdge (i.length ▸ hx.lt) |>.mp h |>.1)

end RemoveEdge

namespace Inv

open Relation

theorem rank_lt_of_path (i : Inv r) (h : TransGen r.Edge x y) : r.rank x < r.rank y :=
  h.rank_lt i.rank_lt

theorem rank_le_of_path (i : Inv r) (h : ReflTransGen r.Edge x y) : r.rank x ≤ r.rank y :=
  h.rank_le i.rank_lt

theorem acyclic (i : Inv r) (n : Nat) : ¬TransGen r.Edge n n :=
  fun h => lt_irrefl _ <| i.rank_lt_of_path h

-- Paths are found by a search that is bounded by the rank of the end of the path.
theorem reach_of_path (i : Inv r) (h : ReflTransGen r.Edge x y) (hb : r.rank y < b) :
    Dfs.Reach (r.rank · < b) (fun n => (r.outs n).valueSequence) x y := by
  induction h
  case refl => exact .refl
  case tail m y _ h hi =>
    have hl := i.rank_lt m y h
    exact hi (hl.trans hb) |>.tail ⟨h, by simpa using hb⟩

-- A search up to the rank of `y` does not miss a path to `y`.
theorem no_path_of_complete (i : Inv r) {succ : Nat → List Nat} (hs : ∀ a b, r.Edge a b → b ∈ succ a)
    (hr : r.rank x < r.rank y) (c : Dfs.Complete (r.rank · = r.rank y) (r.rank · < r.rank y)
      succ (fun _ => false) x marks delta) : ¬ReflTransGen r.Edge x y := by
  intro h
  rcases h.cases_tail with rfl | ⟨m, h, he⟩
  · omega
  · have hm : m ∈ delta := by
      refine c.mem_of_reach (by simp) ?_
      exact (i.reach_of_path h <| i.rank_lt m y he).imp fun a b h => ⟨hs a b h.1, h.2⟩
    have := c.no_stop m hm y (hs m y he)
    simp at this

end Inv

theorem path_of_reach {ok : Nat → Bool}
    (h : Dfs.Reach ok (fun n => (r.outs n).valueSequence) x y) :
    Relation.ReflTransGen r.Edge x y :=
  h.imp fun _ _ h => h.1

theorem path_of_reach_ins {ok : Nat → Bool} (hm : ∀ x y, y ∈ r.outs x ↔ x ∈ r.ins y)
    (h : Dfs.Reach ok (fun n => (r.ins n).valueSequence) y x) :
    Relation.ReflTransGen r.Edge x y := by
  induction h
  case refl         => rfl
  case tail _ h hi => exact hi.head (hm _ _ |>.mpr h.1)

-- A search only visits nodes within its bound.
theorem ok_of_reach {ok : Nat → Bool} {succ : Nat → List Nat} (h : Dfs.Reach ok succ x y)
    (hx : ok x) : ok y := by
  cases h
  case refl     => exact hx
  case tail _ h => exact h.2

end GraphCycles.Rep
