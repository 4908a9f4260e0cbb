import XlaModel.Runtime.ExecutionGraph.Theorems.Create

namespace Runtime.ExecutionGraph

open Relation

namespace Builders

variable {bs : Builders}

theorem le_getLast_of_sorted {l : List NodeEdge} {e back : NodeEdge} (hs : l.Pairwise (·.id < ·.id))
    (he : e ∈ l) (hb : l.getLast? = some back) : e.id ≤ back.id := by
  obtain ⟨l, rfl⟩ := List.getLast?_eq_some_iff.mp hb
  cases List.mem_append.mp he
  case inl h => exact (List.pairwise_append.mp hs).2.2 e h back (List.mem_singleton.mpr rfl) |>.le
  case inr h => rw [List.mem_singleton.mp h]

theorem head_le_of_sorted {l : List NodeEdge} {e front : NodeEdge} (hs : l.Pairwise (·.id < ·.id))
    (he : e ∈ l) (hf : l.head? = some front) : front.id ≤ e.id := by
  obtain ⟨l, rfl⟩ := List.head?_eq_some_iff.mp hf
  cases List.mem_cons.mp he
  case inl h => rw [h]
  case inr h => exact (List.pairwise_cons.mp hs).1 e h |>.le

theorem eraseEdge_of_edge (w : WellFormed bs) (h : bs.Edge k src dst) (hk : k ≤ kind) :
    bs.eraseEdge src dst kind = (1, bs.eraseAt src dst) := by
  have hin := w.mirrored k src dst |>.mp h
  have ho : (bs.outEdges src)[lowerBound (bs.outEdges src) dst]? = some ⟨k, dst⟩ :=
    lowerBound_of_mem (w.outSorted src) h
  have hi : (bs.inEdges dst)[lowerBound (bs.inEdges dst) src]? = some ⟨k, src⟩ :=
    lowerBound_of_mem (w.inSorted dst) hin
  rcases hb : (bs.outEdges src).getLast? with _ | back
  case none => simp [List.getLast?_eq_none_iff.mp hb, Edge] at h
  case some =>
    rcases hf : (bs.inEdges dst).head? with _ | front
    case none => simp [List.head?_eq_none_iff.mp hf] at hin
    case some =>
      have hback  : ¬back.id < dst := not_lt.mpr <| le_getLast_of_sorted (w.outSorted src) h hb
      have hfront : ¬src < front.id := not_lt.mpr <| head_le_of_sorted (w.inSorted dst) hin hf
      simp [eraseEdge, hb, hf, ho, hi, hback, hfront, hk.not_gt, eraseAt]

-- Exactly the edges from `src` to `dst` up to the given kind are erased.
theorem eraseEdge_spec (w : WellFormed bs) (src dst : Nat) (kind : Kind) :
    WellFormed (bs.eraseEdge src dst kind).2 ∧ ∀ k i j,
      (bs.eraseEdge src dst kind).2.Edge k i j ↔ bs.Edge k i j ∧ ¬(i = src ∧ j = dst ∧ k ≤ kind) := by
  cases @eraseEdge_result bs src dst kind w
  case inl h =>
    refine ⟨by rwa [h], fun k i j => ?_⟩
    rw [h]
    refine ⟨fun he => ⟨he, ?_⟩, And.left⟩
    rintro ⟨rfl, rfl, hk⟩
    have := h.symm.trans (eraseEdge_of_edge w he hk)
    exact Nat.zero_ne_one (Prod.mk.inj this).1
  case inr h =>
    obtain ⟨bs', h, e⟩ := h
    obtain ⟨k', hk', he'⟩ := e.erased
    refine ⟨by rw [h]; exact e.wf, fun k i j => ?_⟩
    rw [h, e.edge]
    refine and_congr_right fun he => not_congr ⟨?_, fun ⟨hi, hj, _⟩ => ⟨hi, hj⟩⟩
    rintro ⟨rfl, rfl⟩
    exact ⟨rfl, rfl, w.kind_unique he he' ▸ hk'⟩

end Builders

-- An iteration of the traversal, with the state that remains when `node` has been popped.
structure Iteration where
  src     : Nat
  outEdge : NodeEdge
  node    : NodeEdge
  state   : DfsState

-- The source only checks the first edge, the last edge and the edges that are still on the stack.
def Iteration.SeesExecution (it : Iteration) : Prop :=
  it.outEdge.kind = .execution ∧ it.node.kind = .execution ∧ it.state.numSchedulingEdges = 0

namespace Reduction

def traverseIterations (src : Nat) (outEdge : NodeEdge) : (fuel : Nat) → Reduction → List Iteration
  | 0,        _ => []
  | fuel + 1, r =>
    match r.state.pop with
    | none               => []
    | some (node, state) =>
      let (erased, bs) := r.builders.eraseEdge src node.id (eraseKind outEdge node state)
      ⟨src, outEdge, node, state⟩ :: traverseIterations src outEdge fuel {
        builders  := bs
        state     := state.pushAll (bs.outEdges node.id)
        numErased := r.numErased + erased
      }

def followEdgeIterations (src : Nat) (r : Reduction) (outEdge : NodeEdge) : List Iteration :=
  let state := r.state.markVisited outEdge.id |>.pushAll (r.builders.outEdges outEdge.id)
  traverseIterations src outEdge r.builders.length { r with state }

-- The iterations of a loop whose body has the given effect and iterations.
def loopIterations (body : Reduction → α → Reduction) (iterations : Reduction → α → List Iteration) :
    Reduction → List α → List Iteration
  | _, []      => []
  | r, a :: as => iterations r a ++ loopIterations body iterations (body r a) as

def reduceNodeIterations (r : Reduction) (i : Nat) : List Iteration :=
  let r := { r with state := r.state.clear r.builders.length }
  loopIterations (followEdge i) (followEdgeIterations i) r (r.builders.outEdges i)

end Reduction

def iterations (bs : Builders) : List Iteration :=
  Reduction.loopIterations Reduction.reduceNode Reduction.reduceNodeIterations ⟨bs, .empty, 0⟩ (List.range bs.length).reverse

-- The execution edges of `bs'` are those of `bs` that are not erased by an iteration.
structure Traced (bs bs' : Builders) (its : List Iteration) : Prop where
  wf   : bs'.WellFormed
  edge : ∀ i j, bs'.Edge .execution i j ↔
    bs.Edge .execution i j ∧ ∀ it ∈ its, it.SeesExecution → ¬(i = it.src ∧ j = it.node.id)

namespace Traced

open Reduction

theorem refl {bs : Builders} (w : bs.WellFormed) : Traced bs bs [] where
  wf       := w
  edge i j := by simp

theorem trans {bs₁ bs₂ bs₃ : Builders} (h₁ : Traced bs₁ bs₂ its₁) (h₂ : Traced bs₂ bs₃ its₂) :
    Traced bs₁ bs₃ (its₁ ++ its₂) where
  wf       := h₂.wf
  edge i j := by rw [h₂.edge, h₁.edge, List.forall_mem_append, and_assoc]

theorem execution_le_eraseKind_iff {outEdge node : NodeEdge} {state : DfsState} :
    .execution ≤ eraseKind outEdge node state ↔ Iteration.SeesExecution ⟨src, outEdge, node, state⟩ := by
  simp only [eraseKind, Iteration.SeesExecution]
  cases outEdge.kind <;> cases node.kind <;> by_cases h : state.numSchedulingEdges = 0 <;> simp [h] <;> decide

theorem eraseEdge {bs : Builders} (w : bs.WellFormed) (src : Nat) (outEdge node : NodeEdge) (state : DfsState) :
    Traced bs (bs.eraseEdge src node.id (eraseKind outEdge node state)).2 [⟨src, outEdge, node, state⟩] := by
  have ⟨w', he⟩ := Builders.eraseEdge_spec w src node.id (eraseKind outEdge node state)
  refine ⟨w', fun i j => ?_⟩
  rw [he, List.forall_mem_singleton, @execution_le_eraseKind_iff src]
  tauto

theorem traverse {r : Reduction} (w : r.builders.WellFormed) (src : Nat) (outEdge : NodeEdge) (fuel : Nat) :
    Traced r.builders (traverse src outEdge fuel r).builders (traverseIterations src outEdge fuel r) := by
  induction fuel generalizing r
  case zero => exact .refl w
  case succ fuel hi =>
    simp only [Reduction.traverse, traverseIterations]
    rcases r.state.pop with _ | ⟨node, state⟩
    case none => exact .refl w
    case some =>
      have h₁ := eraseEdge w src outEdge node state
      exact h₁.trans <| hi (r := {
        builders  := (r.builders.eraseEdge src node.id (eraseKind outEdge node state)).2
        state     := state.pushAll (Builders.outEdges _ node.id)
        numErased := _
      }) h₁.wf

theorem loop {body : Reduction → α → Reduction} {iterations : Reduction → α → List Iteration}
    (h : ∀ r a, r.builders.WellFormed → Traced r.builders (body r a).builders (iterations r a))
    {r : Reduction} (w : r.builders.WellFormed) (as : List α) :
    Traced r.builders (as.foldl body r).builders (loopIterations body iterations r as) := by
  induction as generalizing r
  case nil => exact .refl w
  case cons a as hi =>
    have h₁ := h r a w
    exact h₁.trans (hi h₁.wf)

theorem setPriority {bs bs' : Builders} (h : Traced bs bs' its) (i p : Nat) :
    Traced bs (bs'.setPriority i p) its where
  wf       := h.wf.congr (by simp [Builders.setPriority])
    (fun j => outEdges_setPriority bs' i p j |>.1) (fun j => outEdges_setPriority bs' i p j |>.2)
  edge a b := by rw [Builders.Edge, (outEdges_setPriority bs' i p a).1, ←h.edge, Builders.Edge]

theorem followEdge (src : Nat) (r : Reduction) (outEdge : NodeEdge) (w : r.builders.WellFormed) :
    Traced r.builders (followEdge src r outEdge).builders (followEdgeIterations src r outEdge) :=
  let state := r.state.markVisited outEdge.id |>.pushAll (r.builders.outEdges outEdge.id)
  @traverse { r with state := state } w src outEdge r.builders.length

theorem reduceNode (r : Reduction) (i : Nat) (w : r.builders.WellFormed) :
    Traced r.builders (reduceNode r i).builders (reduceNodeIterations r i) := by
  have h := @loop _ (Reduction.followEdge i) _ (followEdge i) { r with state := r.state.clear r.builders.length } w
  exact (h (r.builders.outEdges i)).setPriority _ _

theorem run {bs : Builders} (w : bs.WellFormed) :
    Traced bs (runTransitiveReductionAndUpdatePriorities bs).builders (iterations bs) :=
  @loop _ _ _ reduceNode ⟨bs, .empty, 0⟩ w (List.range bs.length).reverse

end Traced

-- The reduction replaces execution edges by paths of execution edges iff there are such paths in the
-- input graph whenever the check of the source succeeds.
theorem run_executionPaths_iff {bs : Builders} (w : bs.WellFormed) :
    (∀ i j, bs.Edge .execution i j →
      ¬(runTransitiveReductionAndUpdatePriorities bs).builders.Edge .execution i j →
      TransGen ((runTransitiveReductionAndUpdatePriorities bs).builders.Edge .execution) i j) ↔
    ∀ it ∈ iterations bs, it.SeesExecution → bs.Edge .execution it.src it.node.id →
      ∃ m, bs.Edge .execution it.src m ∧ TransGen (bs.Edge .execution) m it.node.id := by
  have t := Traced.run w
  rw [TransGen.thinned_iff (fun i j h => w.forward _ i j h |>.1) fun i j h => t.edge i j |>.mp h |>.1]
  constructor
  case mp =>
    intro h it hit hs he
    refine h _ _ he fun he' => ?_
    exact (t.edge _ _ |>.mp he').2 it hit hs ⟨rfl, rfl⟩
  case mpr =>
    intro h i j he hn
    have ⟨it, hit, hs, hi, hj⟩ : ∃ it ∈ iterations bs, it.SeesExecution ∧ i = it.src ∧ j = it.node.id := by
      by_contra hc
      refine hn <| t.edge i j |>.mpr ⟨he, fun it hit hs hij => hc ⟨it, hit, hs, hij⟩⟩
    subst hi hj
    exact h it hit hs he

-- Three writes to the same buffer.
def writes : List Operation :=
  List.replicate 3 ⟨[⟨⟨0, 0, 8⟩, .write⟩], []⟩

theorem run_executionPaths_iff_writes :
    (connectAll writes).WellFormed ∧ ∀ i j, (connectAll writes).Edge .execution i j →
      ¬(runTransitiveReductionAndUpdatePriorities (connectAll writes)).builders.Edge .execution i j →
      TransGen ((runTransitiveReductionAndUpdatePriorities (connectAll writes)).builders.Edge .execution) i j := by
  have w := (connectAll_connected writes).wf
  refine ⟨w, run_executionPaths_iff w |>.mpr fun it hit _ _ => ?_⟩
  have h : (iterations (connectAll writes)).map (fun it => (it.src, it.node.id)) = [(0, 2)] := by decide
  have h : (it.src, it.node.id) ∈ [(0, 2)] := h ▸ List.mem_map_of_mem hit
  have ⟨hs, hn⟩ := Prod.mk.inj (List.mem_singleton.mp h)
  rw [hs, hn]
  refine ⟨1, ?_, .single ?_⟩ <;> (rw [Builders.Edge]; decide)

-- The second and third operation use the same communicator, the last operation reads what the first
-- operation and the third operation write.
def sharedCommunicator : List Operation :=
  let buffer i := Slice.mk i 0 8
  let communicator := Resource.mk 0 .collectiveCommunicator
  [
    ⟨[⟨buffer 0, .write⟩, ⟨buffer 1, .write⟩], []⟩,
    ⟨[⟨buffer 0, .read⟩], [⟨communicator, .write⟩]⟩,
    ⟨[⟨buffer 2, .write⟩], [⟨communicator, .write⟩]⟩,
    ⟨[⟨buffer 1, .read⟩, ⟨buffer 2, .read⟩], []⟩
  ]

-- The scheduling edge between the users of the communicator is not on the stack anymore, when the
-- traversal erases the execution edge to the last operation.
theorem run_erases_execution_edge :
    (connectAll sharedCommunicator).WellFormed ∧ (connectAll sharedCommunicator).Edge .execution 0 3 ∧
    ¬(runTransitiveReductionAndUpdatePriorities (connectAll sharedCommunicator)).builders.Edge .execution 0 3 ∧
    ¬TransGen ((runTransitiveReductionAndUpdatePriorities
      (connectAll sharedCommunicator)).builders.Edge .execution) 0 3 := by
  have h : ∀ i ≤ 1, ∀ e ∈ (runTransitiveReductionAndUpdatePriorities
      (connectAll sharedCommunicator)).builders.outEdges i, e.kind = .execution → i = 0 ∧ e.id = 1 := by
    decide
  have h₀ : ¬(runTransitiveReductionAndUpdatePriorities (connectAll sharedCommunicator)).builders.Edge .execution 0 3 :=
    fun he => absurd (h 0 zero_le_one _ he rfl).2 (by decide)
  refine ⟨(connectAll_connected sharedCommunicator).wf, ?edge, h₀, fun hp => ?noPath⟩
  case edge => rw [Builders.Edge]; decide
  case noPath =>
    obtain ⟨m, hm, hp⟩ := TransGen.head'_iff.mp hp
    obtain rfl := (h 0 zero_le_one _ hm rfl).2
    obtain ⟨n, hn, _⟩ := hp.cases_head.resolve_left (by decide)
    exact absurd (h 1 le_rfl _ hn rfl).1 Nat.one_ne_zero

end Runtime.ExecutionGraph
