import XlaModel.Lib.Countdown
import XlaModel.Runtime.ExecutionGraph.Theorems.Priority

namespace Runtime.ExecutionGraph

-- The nodes are numbered in topological order, and there is at most one edge between two nodes.
structure WellFormed (g : ExecutionGraph) : Prop where
  mirrored  : ∀ k i j, ⟨k, j⟩ ∈ g.outEdges i ↔ ⟨k, i⟩ ∈ g.inEdges j
  forward   : ∀ k i j, g.Edge k i j → i < j ∧ j < g.nodesDefs.length
  outSorted : ∀ i, (g.outEdges i).Pairwise (·.id < ·.id)
  inSorted  : ∀ i, (g.inEdges i).Pairwise (·.id < ·.id)
  source    : g.source = (List.range g.nodesDefs.length).filter fun i => (g.inEdges i).isEmpty
  sink      : g.sink = (List.range g.nodesDefs.length).filter fun i => (g.outEdges i).isEmpty

theorem create_wellFormed (h : create ops = .ok g) : g.WellFormed := by
  have w := (Reduction.run_reduced (connectAll_connected ops).wf).wf
  have ho := outEdges_create h
  have hi := inEdges_create h
  have he := create_eq h
  constructor
  case mirrored  => simpa only [ho, hi] using w.mirrored
  case outSorted => simpa only [ho] using w.outSorted
  case inSorted  => simpa only [hi] using w.inSorted
  case source    => rw [he]; rfl
  case sink      => rw [he]; rfl
  case forward =>
    have hl : g.nodesDefs.length = (runTransitiveReductionAndUpdatePriorities (connectAll ops)).builders.length := by
      rw [he, ofNodesDefs, createNodeDefs, List.length_map]
    simpa only [Edge, ho, hl, Builders.Edge] using w.forward

theorem create_length (h : create ops = .ok g) : g.nodesDefs.length = ops.length := by
  rw [create_eq h, ofNodesDefs, createNodeDefs, List.length_map, Reduction.run_length, (connectAll_connected ops).length]

variable {g : ExecutionGraph}

def successors (g : ExecutionGraph) (i : Nat) : Multiset Nat :=
  (g.outEdges i).map NodeEdge.id

theorem mem_successors : j ∈ g.successors i ↔ ∃ k, g.Edge k i j := by
  simp only [successors, Multiset.mem_coe, List.mem_map, Edge]
  constructor
  case mp =>
    rintro ⟨⟨k, _⟩, h, rfl⟩
    exact ⟨k, h⟩
  case mpr =>
    rintro ⟨k, h⟩
    exact ⟨_, h, rfl⟩

namespace WellFormed

variable (w : g.WellFormed)

def dag : Dag Nat where
  nodes    := Finset.range g.nodesDefs.length
  succ     := g.successors
  rank     := id
  succ_mem := by
    intro i j _ h
    obtain ⟨k, h⟩ := mem_successors.mp h
    exact Finset.mem_range.mpr (w.forward k i j h).2
  rank_lt  := by
    intro i j _ h
    obtain ⟨k, h⟩ := mem_successors.mp h
    exact (w.forward k i j h).1

include w

theorem successors_nodup (i : Nat) : (g.successors i).Nodup :=
  Multiset.coe_nodup.mpr <| List.pairwise_map.mpr <| (w.outSorted i).imp Nat.ne_of_lt

theorem kind_unique (h₁ : g.Edge k₁ i j) (h₂ : g.Edge k₂ i j) : k₁ = k₂ := by
  have hn : ((g.outEdges i).map NodeEdge.id).Nodup := w.successors_nodup i
  have he := List.inj_on_of_nodup_map hn h₁ h₂ rfl
  exact congrArg NodeEdge.kind he

theorem lt_length_of_edge (h : g.Edge k i j) : i < g.nodesDefs.length :=
  have ⟨hlt, hj⟩ := w.forward k i j h
  hlt.trans hj

-- The counter of a node starts with the number of edges to the node.
theorem length_inEdges (j : Nat) : (g.inEdges j).length = (w.dag.targets ∅).count j := by
  have hn : ((g.inEdges j).map NodeEdge.id).Nodup := List.pairwise_map.mpr <| (w.inSorted j).imp Nat.ne_of_lt
  have hf : (Finset.range g.nodesDefs.length).filter (j ∈ g.successors ·) = ((g.inEdges j).map NodeEdge.id).toFinset := by
    ext i
    simp only [Finset.mem_filter, Finset.mem_range, mem_successors, List.mem_toFinset, List.mem_map]
    constructor
    case mp =>
      rintro ⟨-, k, h⟩
      exact ⟨_, (w.mirrored k i j).mp h, rfl⟩
    case mpr =>
      rintro ⟨⟨k, _⟩, h, rfl⟩
      have he := (w.mirrored k _ j).mpr h
      exact ⟨w.lt_length_of_edge he, k, he⟩
  rw [← List.length_map NodeEdge.id, ← List.toFinset_card_of_nodup hn, ← hf, Finset.card_filter, Dag.targets,
    Multiset.count_sum', Finset.sdiff_empty]
  refine Finset.sum_congr rfl fun i _ => ?_
  exact (Multiset.count_eq_of_nodup (w.successors_nodup i)).symm

theorem isEmpty_inEdges_iff (j : Nat) : (g.inEdges j).isEmpty ↔ (w.dag.targets ∅).count j = 0 := by
  rw [← w.length_inEdges, List.isEmpty_iff, List.length_eq_zero_iff]

theorem count_source (j : Nat) :
    (g.source : Multiset Nat).count j = if j ∈ w.dag.nodes ∧ (w.dag.targets ∅).count j = 0 then 1 else 0 := by
  have hn : g.source.Nodup := w.source ▸ List.nodup_range.filter _
  rw [Multiset.count_eq_of_nodup (Multiset.coe_nodup.mpr hn)]
  refine if_congr ?_ rfl rfl
  rw [Multiset.mem_coe, w.source, List.mem_filter, List.mem_range, w.isEmpty_inEdges_iff]
  exact and_congr_left' Finset.mem_range.symm

theorem length_sink : g.sink.length = w.dag.sinks.card := by
  have hn : g.sink.Nodup := w.sink ▸ List.nodup_range.filter _
  rw [← List.toFinset_card_of_nodup hn]
  congr
  ext i
  rw [List.mem_toFinset, w.sink, List.mem_filter, List.mem_range, Dag.mem_sinks, List.isEmpty_iff]
  refine and_congr Finset.mem_range.symm ?_
  change _ ↔ g.successors i = 0
  simp [successors]

end WellFormed
end Runtime.ExecutionGraph
