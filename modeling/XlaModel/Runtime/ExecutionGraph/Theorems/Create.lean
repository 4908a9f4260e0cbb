import XlaModel.Runtime.ExecutionGraph.Theorems.Reduction

namespace Runtime.ExecutionGraph

-- The edges of the full conflict graph.
def ConflictEdge (ops : List Operation) (k : Kind) (i j : Nat) : Prop :=
  i < j ∧ ∃ a b, ops[i]? = some a ∧ ops[j]? = some b ∧ conflictKind a b = some k

namespace Builders

variable {bs : Builders}

theorem mem_outEdges_addEdge (hj : j < bs.length) :
    e ∈ (bs.addEdge k j i).outEdges a ↔ e ∈ bs.outEdges a ∨ (a = j ∧ e = ⟨k, i⟩) := by
  rw [addEdge, outEdges_modifyIn, outEdges_modifyOut hj]
  split <;> simp_all

theorem mem_inEdges_addEdge (hi : i < bs.length) :
    e ∈ (bs.addEdge k j i).inEdges b ↔ e ∈ bs.inEdges b ∨ (b = i ∧ e = ⟨k, j⟩) := by
  rw [addEdge, inEdges_modifyIn (by simpa using hi), inEdges_modifyOut]
  split <;> simp_all

theorem pairwise_append_edge {l : List NodeEdge} (hl : l.Pairwise (·.id < ·.id))
    (h : ∀ e ∈ l, e.id < i) : (l ++ [(⟨k, i⟩ : NodeEdge)]).Pairwise (·.id < ·.id) := by
  refine List.pairwise_append.mpr ⟨hl, by simp, ?_⟩
  simpa using h

theorem WellFormed.addEdge (w : WellFormed bs) (hj : j < i) (hi : i < bs.length)
    (ho : ∀ e ∈ bs.outEdges j, e.id < i) (hn : ∀ e ∈ bs.inEdges i, e.id < j) :
    WellFormed (bs.addEdge k j i) where
  mirrored k' a b   := by
    rw [mem_outEdges_addEdge (by omega), mem_inEdges_addEdge hi, w.mirrored]
    grind
  forward k' a b h := by
    cases mem_outEdges_addEdge (by omega) |>.mp h
    case inl h => simpa [Builders.addEdge] using w.forward k' a b h
    case inr h => simp_all [Builders.addEdge]
  outSorted a      := by
    rw [Builders.addEdge, outEdges_modifyIn, outEdges_modifyOut (by omega)]
    split
    case isTrue h => exact pairwise_append_edge (w.outSorted a) (h ▸ ho)
    case isFalse  => exact w.outSorted a
  inSorted b       := by
    rw [Builders.addEdge, inEdges_modifyIn (by simpa using hi), inEdges_modifyOut]
    split
    case isTrue h => exact pairwise_append_edge (w.inSorted b) (h ▸ hn)
    case isFalse  => exact w.inSorted b

theorem edges_setId (bs : Builders) (i j : Nat) :
    (bs.setId i).outEdges j = bs.outEdges j ∧ (bs.setId i).inEdges j = bs.inEdges j := by
  simp only [outEdges, inEdges, get, setId]
  by_cases h : i < bs.length
  case pos => rw [List.getD_modify h]; split <;> simp
  case neg => rw [List.getD_modify_of_le (by omega)]; simp

end Builders

-- The edges to the nodes below `i` and the edges from the nodes below `m` to `i` have been added.
structure Connected (ops : List Operation) (i m : Nat) (bs : Builders) : Prop where
  wf     : bs.WellFormed
  length : bs.length = ops.length
  edge   : ∀ k a b, bs.Edge k a b ↔ (b < i ∨ (b = i ∧ a < m)) ∧ ConflictEdge ops k a b

namespace Connected

variable {ops : List Operation} {bs : Builders}

theorem connect (c : Connected ops i m bs) (hm : m < i) (hi : i < ops.length) :
    Connected ops i (m + 1) (connect ops i bs m) := by
  have hm' : ops[m]? = some ops[m] := List.getElem?_eq_getElem _
  have hi' : ops[i]? = some ops[i] := List.getElem?_eq_getElem hi
  simp only [ExecutionGraph.connect, hm', hi']
  split
  case h_1 kind hk =>
    have hl := c.length
    have ho (e : NodeEdge) (he : e ∈ bs.outEdges m) : e.id < i := by
      have := c.edge e.kind m e.id |>.mp he |>.1
      omega
    have hn (e : NodeEdge) (he : e ∈ bs.inEdges i) : e.id < m := by
      have := c.edge e.kind e.id i |>.mp (c.wf.mirrored _ _ _ |>.mpr he) |>.1
      omega
    refine ⟨c.wf.addEdge hm (by omega) ho hn, by simpa [Builders.addEdge] using hl, ?_⟩
    intro k a b
    have he := c.edge k a b
    rw [Builders.Edge] at he ⊢
    rw [Builders.mem_outEdges_addEdge (by omega), he]
    grind [ConflictEdge]
  case h_2 hk =>
    refine ⟨c.wf, c.length, fun k a b => ?_⟩
    rw [c.edge]
    grind [ConflictEdge]

theorem connectRow (c : Connected ops i 0 bs) (hm : m ≤ i) (hi : i < ops.length) :
    Connected ops i m ((List.range m).foldl (ExecutionGraph.connect ops i) bs) := by
  induction m
  case zero      => exact c
  case succ m ih =>
    rw [List.range_succ, List.foldl_append]
    exact ih (by omega) |>.connect hm hi

theorem next (c : Connected ops i i bs) : Connected ops (i + 1) 0 bs := by
  refine ⟨c.wf, c.length, fun k a b => ?_⟩
  rw [c.edge]
  grind [ConflictEdge]

theorem setId (c : Connected ops i 0 bs) : Connected ops i 0 (bs.setId i) := by
  have h := bs.edges_setId i
  refine ⟨c.wf.congr (by simp [Builders.setId]) (h · |>.1) (h · |>.2),
    by simpa [Builders.setId] using c.length, fun k a b => ?_⟩
  rw [Builders.Edge, (h a).1]
  exact c.edge k a b

end Connected

theorem connectAll_connected (ops : List Operation) :
    Connected ops ops.length 0 (connectAll ops) := by
  have h (n : Nat) (hn : n ≤ ops.length) : Connected ops n 0 ((List.range n).foldl
      (fun bs i => (List.range i).foldl (connect ops i) (bs.setId i))
      (List.replicate ops.length ⟨0, [], [], 0⟩)) := by
    induction n
    case zero =>
      have hg (i : Nat) : Builders.get (List.replicate ops.length ⟨0, [], [], 0⟩) i =
          ⟨0, [], [], 0⟩ := by
        simp only [Builders.get, List.getD_eq_getElem?_getD, List.getElem?_replicate]
        split <;> rfl
      refine ⟨?_, by simp, ?_⟩
      · constructor <;> simp [Builders.Edge, Builders.outEdges, Builders.inEdges, hg]
      · simp [Builders.Edge, Builders.outEdges, hg]
    case succ n hi =>
      rw [List.range_succ, List.foldl_append]
      exact (hi (by omega)).setId.connectRow le_rfl (by omega) |>.next
  exact h _ le_rfl

section Kinds

variable {a b : Operation}

def BufferConflict (a b : Operation) : Prop :=
  ∃ u ∈ a.bufferUses, ∃ v ∈ b.bufferUses, u.Conflict v

def ResourceConflict (a b : Operation) : Prop :=
  ∃ u ∈ a.resourceUses, ∃ v ∈ b.resourceUses, u.Conflict v

def TokenConflict (a b : Operation) : Prop :=
  ∃ u ∈ a.resourceUses, ∃ v ∈ b.resourceUses, u.Conflict v ∧ v.resource.kind = .token

theorem conflictKind_of_buffer (h : BufferConflict a b) : conflictKind a b = some .execution := by
  simp [conflictKind, BufferUse.ReadWriteSet.hasConflicts_iff.mpr h]

theorem conflictKind_of_resource (h : ResourceConflict a b) : ∃ k, conflictKind a b = some k := by
  simp only [conflictKind, ResourceUse.ReadWriteSet.hasConflicts_iff.mpr h]
  split
  case isTrue  => exact ⟨_, rfl⟩
  case isFalse => exact ⟨_, rfl⟩

theorem conflictKind_of_token (h : TokenConflict a b) : conflictKind a b = some .execution := by
  have ⟨u, hu, v, hv, hc, hk⟩ := h
  have hr : ResourceConflict a b := ⟨u, hu, v, hv, hc⟩
  simp only [conflictKind, ResourceUse.ReadWriteSet.hasConflicts_iff.mpr hr]
  split
  case isTrue  => rfl
  case isFalse =>
    have he : (ResourceUse.ReadWriteSet.empty.addAll a.resourceUses |>.conflicts
        (.addAll .empty b.resourceUses)).any (Kind.of ·.resource.kind = .execution) = true := by
      refine List.any_eq_true.mpr ⟨v, ResourceUse.ReadWriteSet.mem_conflicts.mpr ⟨hv, u, hu, hc⟩, ?_⟩
      simp [hk, Kind.of]
    simp [edgeKind, he]

end Kinds

-- Start and end times of the operations that respect the edges of an execution graph.
structure Schedule {T : Type u} [Preorder T] (g : ExecutionGraph) (start finish : Nat → T) :
    Prop where
  start_le   : ∀ i, start i ≤ finish i
  execution  : ∀ i j, ⟨.execution, j⟩ ∈ g.outEdges i → finish i ≤ start j
  scheduling : ∀ i j, ⟨.scheduling, j⟩ ∈ g.outEdges i → start i ≤ start j

theorem outEdges_create (h : create ops = .ok g) :
    g.outEdges = (runTransitiveReductionAndUpdatePriorities (connectAll ops)).builders.outEdges := by
  unfold create at h
  split at h
  case isTrue  => contradiction
  case isFalse =>
    cases h
    funext i
    simp only [outEdges, ofNodesDefs, createNodeDefs, Builders.outEdges, Builders.get,
      List.getD_eq_getElem?_getD, List.getElem?_map]
    cases (runTransitiveReductionAndUpdatePriorities (connectAll ops)).builders[i]? <;> rfl

def Edge (g : ExecutionGraph) (k : Kind) (i j : Nat) : Prop :=
  ⟨k, j⟩ ∈ g.outEdges i

theorem create_reduced (h : create ops = .ok g) :
    (∀ k i j, g.Edge k i j → ConflictEdge ops k i j) ∧
    (∀ k i j, ConflictEdge ops k i j → Precedence.Before g.Edge k i j) := by
  have c := connectAll_connected ops
  have r := Reduction.run_reduced c.wf
  have hb : (connectAll ops).Edge = ConflictEdge ops := by
    funext k i j
    refine propext <| (c.edge k i j).trans ⟨And.right, fun h => ⟨.inl ?_, h⟩⟩
    have ⟨_, _, _, _, hj, _⟩ := h
    exact (List.getElem?_eq_some_iff.mp hj).1
  have hg : g.Edge = (runTransitiveReductionAndUpdatePriorities (connectAll ops)).builders.Edge := by
    funext k i j
    simp [Edge, outEdges_create h, Builders.Edge]
  rw [hg, ←hb]
  exact ⟨r.sub, r.kept⟩

namespace Schedule

open Precedence

variable {T : Type u} [Preorder T] {start finish : Nat → T} {g : ExecutionGraph}

theorem start_le_of_path (s : Schedule g start finish)
    (h : Relation.ReflTransGen (Step g.Edge) i j) : start i ≤ start j := by
  induction h
  case refl => rfl
  case tail j m _ h hi =>
    obtain ⟨k, h⟩ := h
    cases k
    case scheduling => exact hi.trans (s.scheduling j m h)
    case execution  => exact hi.trans <| (s.start_le j).trans (s.execution j m h)

theorem finish_le_of_before (s : Schedule g start finish) (h : Before g.Edge .execution i j) :
    finish i ≤ start j := by
  have ⟨k, m, hk, he, hp⟩ := h
  have hk : k = .execution := by cases k <;> first | rfl | exact absurd hk (by decide)
  subst hk
  exact (s.execution i m he).trans (s.start_le_of_path hp)

end Schedule

-- The sequence of operations itself is a schedule of the graph.
theorem sequential_schedule (h : create ops = .ok g) :
    Schedule g (fun i => 2 * i) (fun i => 2 * i + 1) := by
  have hlt {k : Kind} {i j : Nat} (he : g.Edge k i j) : i < j := (create_reduced h).1 k i j he |>.1
  constructor
  case start_le   => exact fun i => Nat.le_succ _
  case execution  => exact fun i j he => by have := hlt he; omega
  case scheduling => exact fun i j he => by have := hlt he; omega

-- The times of conflicting operations are ordered in all schedules of the execution graph, although
-- most of the edges between them have been erased.
theorem create_race_free {T : Type u} [Preorder T] {start finish : Nat → T} {ops : List Operation}
    {g : ExecutionGraph} (h : create ops = .ok g) (s : Schedule g start finish) (hij : i < j)
    (hi : ops[i]? = some a) (hj : ops[j]? = some b) :
    (BufferConflict a b ∨ TokenConflict a b → finish i ≤ start j) ∧
    (ResourceConflict a b → start i ≤ start j) := by
  have hb {k : Kind} (hk : conflictKind a b = some k) : Precedence.Before g.Edge k i j :=
    (create_reduced h).2 k i j ⟨hij, a, b, hi, hj, hk⟩
  constructor
  case left =>
    intro hc
    cases hc
    case inl hc => exact s.finish_le_of_before <| hb (conflictKind_of_buffer hc)
    case inr hc => exact s.finish_le_of_before <| hb (conflictKind_of_token hc)
  case right =>
    intro hc
    have ⟨k, hk⟩ := conflictKind_of_resource hc
    exact s.start_le_of_path (hb hk).path

-- A write to a buffer that is read by the next operation.
def writeRead : List Operation :=
  [⟨[⟨⟨0, 0, 8⟩, .write⟩], []⟩, ⟨[⟨⟨0, 4, 8⟩, .read⟩], []⟩]

theorem create_race_free_writeRead :
    ∃ g, create writeRead = .ok g ∧ Schedule g (fun i => 2 * i) (fun i => 2 * i + 1) ∧
      (fun i => 2 * i + 1) 0 ≤ (fun i => 2 * i) 1 := by
  have ⟨g, h⟩ : ∃ g, create writeRead = .ok g := ⟨_, rfl⟩
  have s := sequential_schedule h
  refine ⟨g, h, s, (create_race_free h s (by decide) rfl rfl).1 (.inl ?_)⟩
  exact ⟨_, List.mem_singleton.mpr rfl, _, List.mem_singleton.mpr rfl, .inl (by decide), .inl rfl⟩

end Runtime.ExecutionGraph
