import XlaModel.Runtime.ExecutionGraph.Basic
import XlaModel.Lib.List
import XlaModel.Lib.Path

namespace Runtime.ExecutionGraph

section LowerBound

open Builders

variable {l : List NodeEdge} {e : NodeEdge}

theorem lowerBound_of_mem (hs : l.Pairwise (·.id < ·.id)) (he : e ∈ l) :
    l[lowerBound l e.id]? = some e := by
  induction l
  case nil => contradiction
  case cons x l hi =>
    have ⟨hx, hs⟩ := List.pairwise_cons.mp hs
    cases List.mem_cons.mp he
    case inl h => simp [lowerBound, h, List.findIdx_cons]
    case inr h =>
      have hlt := hx e h
      have hn : ¬e.id ≤ x.id := by omega
      simpa [lowerBound, List.findIdx_cons, hn] using hi hs h

theorem id_ne_of_ne {i j : Nat} (hs : l.Pairwise (·.id < ·.id)) (hi : l[i]? = some e)
    (hj : l[j]? = some x) (hne : j ≠ i) : x.id ≠ e.id := by
  have ⟨hi, he⟩ := List.getElem?_eq_some_iff.mp hi
  have ⟨hj, hx⟩ := List.getElem?_eq_some_iff.mp hj
  have hs := List.pairwise_iff_getElem.mp hs
  cases Nat.lt_or_gt_of_ne hne
  case inl h => have := hs j i hj hi h; simp_all; omega
  case inr h => have := hs i j hi hj h; simp_all; omega

theorem mem_eraseIdx_iff {i : Nat} (hs : l.Pairwise (·.id < ·.id)) (he : l[i]? = some e) :
    x ∈ l.eraseIdx i ↔ x ∈ l ∧ x.id ≠ e.id := by
  rw [List.mem_eraseIdx_iff_getElem?]
  constructor
  case mp =>
    intro ⟨j, hne, hj⟩
    exact ⟨List.mem_of_getElem? hj, id_ne_of_ne hs he hj hne⟩
  case mpr =>
    intro ⟨hx, hid⟩
    have ⟨j, hj⟩ := List.mem_iff_getElem?.mp hx
    refine ⟨j, ?_, hj⟩
    rintro rfl
    simp_all

end LowerBound

namespace Builders

variable {bs : Builders}

def Edge (bs : Builders) (k : Kind) (i j : Nat) : Prop :=
  ⟨k, j⟩ ∈ bs.outEdges i

-- The in-edges mirror the out-edges, all edges point forward and are sorted.
structure WellFormed (bs : Builders) : Prop where
  mirrored  : ∀ k i j, ⟨k, j⟩ ∈ bs.outEdges i ↔ ⟨k, i⟩ ∈ bs.inEdges j
  forward   : ∀ k i j, bs.Edge k i j → i < j ∧ j < bs.length
  outSorted : ∀ i, (bs.outEdges i).Pairwise (·.id < ·.id)
  inSorted  : ∀ i, (bs.inEdges i).Pairwise (·.id < ·.id)

theorem WellFormed.congr {bs' : Builders} (w : WellFormed bs) (hl : bs'.length = bs.length)
    (ho : ∀ i, bs'.outEdges i = bs.outEdges i) (hi : ∀ i, bs'.inEdges i = bs.inEdges i) :
    WellFormed bs' where
  mirrored  := by simpa only [ho, hi] using w.mirrored
  forward   := by simpa only [Edge, ho, hl] using w.forward
  outSorted := by simpa only [ho] using w.outSorted
  inSorted  := by simpa only [hi] using w.inSorted

@[simp] theorem length_modifyOut : (bs.modifyOut i f).length = bs.length := by
  simp [modifyOut]

@[simp] theorem length_modifyIn : (bs.modifyIn i f).length = bs.length := by
  simp [modifyIn]

theorem outEdges_modifyOut (h : i < bs.length) :
    (bs.modifyOut i f).outEdges j = if j = i then f (bs.outEdges j) else bs.outEdges j := by
  simp only [outEdges, get, modifyOut, List.getD_modify h]
  split <;> rfl

theorem inEdges_modifyIn (h : i < bs.length) :
    (bs.modifyIn i f).inEdges j = if j = i then f (bs.inEdges j) else bs.inEdges j := by
  simp only [inEdges, get, modifyIn, List.getD_modify h]
  split <;> rfl

@[simp]
theorem inEdges_modifyOut : (bs.modifyOut i f).inEdges j = bs.inEdges j := by
  simp only [inEdges, get, modifyOut]
  by_cases h : i < bs.length
  case pos => rw [List.getD_modify h]; split <;> rfl
  case neg => rw [List.getD_modify_of_le (by omega)]

@[simp]
theorem outEdges_modifyIn : (bs.modifyIn i f).outEdges j = bs.outEdges j := by
  simp only [outEdges, get, modifyIn]
  by_cases h : i < bs.length
  case pos => rw [List.getD_modify h]; split <;> rfl
  case neg => rw [List.getD_modify_of_le (by omega)]

-- The edge from `src` to `dst` has been erased.
structure Erased (bs bs' : Builders) (src dst : Nat) (kind : Kind) : Prop where
  wf     : WellFormed bs'
  erased : ∃ k ≤ kind, bs.Edge k src dst
  edge   : ∀ k a b, bs'.Edge k a b ↔ bs.Edge k a b ∧ ¬(a = src ∧ b = dst)
  length : bs'.length = bs.length

theorem WellFormed.lt_length (w : WellFormed bs) (h : bs.Edge k i j) :
    i < bs.length ∧ j < bs.length := by
  have := w.forward k i j h
  omega

-- There is at most one edge between two nodes.
theorem WellFormed.kind_unique (w : WellFormed bs) (h₁ : bs.Edge k₁ i j) (h₂ : bs.Edge k₂ i j) :
    k₁ = k₂ := by
  have h₁ := lowerBound_of_mem (w.outSorted i) h₁
  have h₂ := lowerBound_of_mem (w.outSorted i) h₂
  simp_all

-- The last part of `eraseEdge`.
def eraseAt (bs : Builders) (src dst : Nat) : Builders :=
  bs.modifyOut src (·.eraseIdx (lowerBound (bs.outEdges src) dst))
    |>.modifyIn dst (·.eraseIdx (lowerBound (bs.inEdges dst) src))

section EraseAt

variable (w : WellFormed bs) (h : bs.Edge k src dst)

include w h

theorem mem_outEdges_eraseAt :
    e ∈ (bs.eraseAt src dst).outEdges a ↔ e ∈ bs.outEdges a ∧ ¬(a = src ∧ e.id = dst) := by
  have ho := lowerBound_of_mem (w.outSorted src) h
  rw [eraseAt, outEdges_modifyIn, outEdges_modifyOut (w.lt_length h).1]
  split
  case isTrue h  => rw [h, mem_eraseIdx_iff (w.outSorted src) ho]; simp
  case isFalse h => simp [h]

theorem mem_inEdges_eraseAt :
    e ∈ (bs.eraseAt src dst).inEdges b ↔ e ∈ bs.inEdges b ∧ ¬(b = dst ∧ e.id = src) := by
  have hi := lowerBound_of_mem (w.inSorted dst) (w.mirrored k src dst |>.mp h)
  rw [eraseAt, inEdges_modifyIn (by simpa using (w.lt_length h).2), inEdges_modifyOut]
  split
  case isTrue h  => rw [h, mem_eraseIdx_iff (w.inSorted dst) hi]; simp
  case isFalse h => simp [h]

theorem eraseAt_wellFormed : WellFormed (bs.eraseAt src dst) where
  mirrored k' a b  := by
    rw [mem_outEdges_eraseAt w h, mem_inEdges_eraseAt w h, w.mirrored, and_comm (a := a = src)]
  forward k' a b h' := by
    have := w.forward k' a b (mem_outEdges_eraseAt w h |>.mp h' |>.1)
    simpa [eraseAt] using this
  outSorted a      := by
    rw [eraseAt, outEdges_modifyIn, outEdges_modifyOut (w.lt_length h).1]
    split
    case isTrue  => exact (w.outSorted a).sublist (List.eraseIdx_sublist ..)
    case isFalse => exact w.outSorted a
  inSorted b       := by
    rw [eraseAt, inEdges_modifyIn (by simpa using (w.lt_length h).2), inEdges_modifyOut]
    split
    case isTrue  => exact (w.inSorted b).sublist (List.eraseIdx_sublist ..)
    case isFalse => exact w.inSorted b

theorem eraseAt_erased (hk : k ≤ kind) : Erased bs (bs.eraseAt src dst) src dst kind where
  wf         := eraseAt_wellFormed w h
  erased     := ⟨k, hk, h⟩
  edge _ _ _ := mem_outEdges_eraseAt w h
  length     := by simp [eraseAt]

end EraseAt

-- All possible results of `eraseEdge`.
theorem eraseEdge_result (w : WellFormed bs) :
    bs.eraseEdge src dst kind = (0, bs) ∨
    ∃ bs', bs.eraseEdge src dst kind = (1, bs') ∧ Erased bs bs' src dst kind := by
  unfold eraseEdge
  split <;> try exact .inl rfl
  split <;> try exact .inl rfl
  simp only
  split <;> try exact .inl rfl
  case h_1 outEdge inEdge ho hi =>
    split <;> try exact .inl rfl
    case isFalse hn =>
      have ⟨hd, hk⟩ := not_or.mp hn
      have hd : outEdge.id = dst := by simpa using hd
      have he : bs.Edge outEdge.kind src dst := by
        have := List.mem_of_getElem? ho
        simpa [Edge, ←hd] using this
      have hi' := lowerBound_of_mem (w.inSorted dst) (w.mirrored _ _ _ |>.mp he)
      have hk' : inEdge = ⟨outEdge.kind, src⟩ := Option.some.inj (hi.symm.trans hi')
      exact .inr ⟨bs.eraseAt src dst, rfl, eraseAt_erased w he (by simpa [hk'] using hk)⟩

end Builders

end Runtime.ExecutionGraph

namespace Runtime.ExecutionGraph

open Relation Precedence

namespace DfsState

variable {s : DfsState}

theorem mem_stack_push (h : e ∈ (s.push edge).stack) : e = edge ∨ e ∈ s.stack := by
  unfold push at h
  split at h
  case isTrue  => exact .inr h
  case isFalse => cases hk : edge.kind <;> simpa [hk, markVisited] using h

theorem mem_stack_pushAll {edges : List NodeEdge} (h : e ∈ (s.pushAll edges).stack) :
    e ∈ edges ∨ e ∈ s.stack := by
  induction edges generalizing s
  case nil => exact .inr h
  case cons edge edges hi =>
    cases @hi (s.push edge) h
    case inl h => exact .inl <| List.mem_cons_of_mem _ h
    case inr h =>
      cases mem_stack_push h
      case inl h => simp [h]
      case inr h => exact .inr h

-- The number of nodes that are yet to be popped.
def remaining (s : DfsState) : Nat :=
  s.visited.count false + s.stack.length

@[simp]
theorem visited_length_push : (s.push edge).visited.length = s.visited.length := by
  unfold push
  split
  case isTrue  => rfl
  case isFalse => cases edge.kind <;> simp [markVisited]

@[simp]
theorem visited_length_pushAll {edges : List NodeEdge} :
    (s.pushAll edges).visited.length = s.visited.length := by
  induction edges generalizing s
  case nil            => rfl
  case cons edge _ hi => simpa [pushAll] using @hi (s.push edge)

theorem count_set_true {l : List Bool} (h : i < l.length) (hv : l.getD i false = false) :
    (l.set i true).count false + 1 = l.count false := by
  have hi : l[i] = false := by simpa [h] using hv
  have hpos : 0 < l.count false := List.count_pos_iff.mpr (hi ▸ List.getElem_mem h)
  rw [List.count_set h, hi]
  simp
  omega

theorem remaining_push (h : edge.id < s.visited.length) : (s.push edge).remaining = s.remaining := by
  unfold push
  split
  case isTrue     => rfl
  case isFalse hv =>
    have := count_set_true h (by simpa [isVisited] using hv)
    cases edge.kind <;> simp [markVisited, remaining] <;> omega

theorem remaining_pushAll {edges : List NodeEdge} (h : ∀ e ∈ edges, e.id < s.visited.length) :
    (s.pushAll edges).remaining = s.remaining := by
  induction edges generalizing s
  case nil => rfl
  case cons edge edges hi =>
    have ⟨h, h'⟩ := List.forall_mem_cons.mp h
    rw [pushAll, List.foldl_cons, ←pushAll, hi (by simpa using h'), remaining_push h]

-- All possible results of `pop`.
theorem pop_cases (s : DfsState) :
    (s.stack = [] ∧ s.pop = none) ∨
    ∃ e s', s.pop = some (e, s') ∧ s.stack = e :: s'.stack ∧ s'.visited = s.visited := by
  cases h : s.stack
  case nil         => exact .inl ⟨rfl, by simp [pop, h]⟩
  case cons e tail =>
    refine .inr ?_
    cases hk : e.kind <;> simp [pop, h, hk]

end DfsState

namespace Reduction

-- The builders represent a subgraph of the graph with the edges `E` that gives the same guarantees.
structure Reduced (E : Kind → Nat → Nat → Prop) (bs : Builders) : Prop where
  wf   : bs.WellFormed
  sub  : ∀ k i j, bs.Edge k i j → E k i j
  kept : ∀ k i j, E k i j → Before bs.Edge k i j

structure Inv (E : Kind → Nat → Nat → Prop) (r : Reduction) : Prop extends
    Reduced E r.builders where
  visited : r.state.visited.length = r.builders.length

-- The state of the traversal that starts at the node `src` with the edge `outEdge`.
structure TraverseInv (E : Kind → Nat → Nat → Prop) (src : Nat) (outEdge : NodeEdge)
    (r : Reduction) : Prop extends Inv E r where
  forward : src < outEdge.id
  before  : Before r.builders.Edge outEdge.kind src outEdge.id
  stack   : ∀ e ∈ r.state.stack, TransGen (Step r.builders.Edge) outEdge.id e.id

variable {E : Kind → Nat → Nat → Prop} {r : Reduction}

theorem step_lt {bs : Builders} (w : bs.WellFormed) (h : Step bs.Edge a b) : a < b :=
  have ⟨k, h⟩ := h
  w.forward k a b h |>.1

theorem path_le {bs : Builders} (w : bs.WellFormed) (h : ReflTransGen (Step bs.Edge) a b) : a ≤ b := by
  have h : id a ≤ id b := h.rank_le fun _ _ => step_lt w
  exact h

-- Paths that start behind `src` are not affected when an edge of `src` is erased.
theorem path_erased {bs bs' : Builders} (w : bs.WellFormed) (e : bs.Erased bs' src dst kind)
    (h : ReflTransGen (Step bs.Edge) a b) (ha : src < a) : ReflTransGen (Step bs'.Edge) a b := by
  induction h
  case refl => rfl
  case tail b c hp h hi =>
    obtain ⟨k, h⟩ := h
    have := path_le w hp
    exact hi.tail ⟨k, e.edge k b c |>.mpr ⟨h, by omega⟩⟩

-- The edge that is erased is replaced by the path via `outEdge`.
theorem before_erased {bs bs' : Builders} (w : bs.WellFormed) (e : bs.Erased bs' src dst kind)
    (h : Before bs.Edge k src m) (hm : m < dst) : Before bs'.Edge k src m := by
  obtain ⟨k', n, hk, he, hp⟩ := h
  have hn := path_le w hp
  have hs := w.forward k' src n he
  exact ⟨k', n, hk, e.edge k' src n |>.mpr ⟨he, by omega⟩, path_erased w e hp hs.1⟩

theorem eraseKind_le (outEdge node : NodeEdge) (state : DfsState) :
    eraseKind outEdge node state ≤ outEdge.kind := by
  unfold eraseKind
  split
  case isTrue    => cases outEdge.kind <;> decide
  case isFalse h =>
    cases hk : outEdge.kind
    case scheduling => simp [hk] at h
    case execution  => rfl

theorem trans_lt {bs : Builders} (w : bs.WellFormed) (h : TransGen (Step bs.Edge) a b) : a < b := by
  have h : id a < id b := h.rank_lt fun _ _ => step_lt w
  exact h

namespace TraverseInv

variable {src : Nat} {outEdge : NodeEdge}

theorem erase (i : TraverseInv E src outEdge r) {bs : Builders} {kind : Kind}
    (hn : TransGen (Step r.builders.Edge) outEdge.id node) (hk : kind ≤ outEdge.kind)
    (e : r.builders.Erased bs src node kind) :
    TraverseInv E src outEdge { r with builders := bs } ∧
    TransGen (Step bs.Edge) outEdge.id node := by
  have hlt := trans_lt i.wf hn
  have hp {n : Nat} (h : TransGen (Step r.builders.Edge) outEdge.id n) :
      TransGen (Step bs.Edge) outEdge.id n := by
    have ⟨m, ⟨k, hm⟩, h⟩ := TransGen.head'_iff.mp h
    have hm' := i.wf.forward k _ _ hm
    have hs := i.forward
    exact .head' ⟨k, e.edge _ _ _ |>.mpr ⟨hm, by omega⟩⟩ (path_erased i.wf e h (by omega))
  have hb := before_erased i.wf e i.before hlt
  have hb' : Before bs.Edge kind src node := hb.trans_path (hp hn).to_reflTransGen |>.weaken hk
  refine ⟨?_, hp hn⟩
  constructor
  case forward => exact i.forward
  case before  => exact hb
  case stack   => exact fun e he => hp (i.stack e he)
  case toInv =>
    refine { visited := i.visited.trans e.length.symm, toReduced := ?_ }
    constructor
    case wf  => exact e.wf
    case sub => exact fun k a b h => i.sub k a b (e.edge k a b |>.mp h |>.1)
    case kept =>
      intro k a b h
      refine i.kept k a b h |>.erase hb' fun k' a b h => ?_
      have ⟨k₀, hk₀, h₀⟩ := e.erased
      by_cases hab : a = src ∧ b = node
      case neg => exact .inl <| e.edge k' a b |>.mpr ⟨h, hab⟩
      case pos =>
        obtain ⟨rfl, rfl⟩ := hab
        exact .inr ⟨i.wf.kind_unique h h₀ ▸ hk₀, rfl, rfl⟩

theorem pushAll (i : TraverseInv E src outEdge r)
    (h : n = outEdge.id ∨ TransGen (Step r.builders.Edge) outEdge.id n) :
    TraverseInv E src outEdge { r with state := r.state.pushAll (r.builders.outEdges n) } := by
  refine { i with visited := by simpa using i.visited, stack := fun e he => ?_ }
  cases DfsState.mem_stack_pushAll he
  case inr he => exact i.stack e he
  case inl he =>
    have hs : Step r.builders.Edge n e.id := ⟨e.kind, he⟩
    cases h
    case inl h => exact .single (h ▸ hs)
    case inr h => exact h.tail hs

-- One iteration of the traversal.
theorem step (i : TraverseInv E src outEdge r) {node : NodeEdge} {state : DfsState}
    (hs : r.state.stack = node :: state.stack) (hv : state.visited = r.state.visited)
    (hk : kind ≤ outEdge.kind) (he : r.builders.eraseEdge src node.id kind = (erased, bs)) :
    TraverseInv E src outEdge ⟨bs, state.pushAll (bs.outEdges node.id), r.numErased + erased⟩ ∧
    (state.pushAll (bs.outEdges node.id)).remaining + 1 = r.state.remaining := by
  have hn := i.stack node (by simp [hs])
  have i₁ : TraverseInv E src outEdge { r with state } :=
    { i with visited := hv ▸ i.visited, stack := fun e he => i.stack e (by simp [hs, he]) }
  have hr : state.remaining + 1 = r.state.remaining := by simp [DfsState.remaining, hs, hv]; omega
  have hpush {r' : Reduction} (i : TraverseInv E src outEdge r') (h : r'.state = state) :
      (state.pushAll (r'.builders.outEdges node.id)).remaining + 1 = r.state.remaining := by
    rw [DfsState.remaining_pushAll, hr]
    intro e he
    rw [←h, i.visited]
    exact i.wf.forward _ _ _ he |>.2
  cases Builders.eraseEdge_result i.wf
  case inl h =>
    obtain ⟨rfl, rfl⟩ := Prod.mk.inj (h.symm.trans he)
    exact ⟨{ i₁.pushAll (.inr hn) with }, @hpush { r with state } i₁ rfl⟩
  case inr h =>
    obtain ⟨bs, h, e⟩ := h
    obtain ⟨rfl, rfl⟩ := Prod.mk.inj (h.symm.trans he)
    obtain ⟨i₂, hn₂⟩ := i₁.erase hn hk e
    exact ⟨{ i₂.pushAll (.inr hn₂) with }, hpush i₂ rfl⟩

theorem traverse (i : TraverseInv E src outEdge r) (hf : r.state.remaining ≤ fuel) :
    TraverseInv E src outEdge (traverse src outEdge fuel r) ∧
    (Reduction.traverse src outEdge fuel r).state.stack = [] := by
  induction fuel generalizing r
  case zero =>
    refine ⟨i, List.eq_nil_of_length_eq_zero ?_⟩
    simp only [DfsState.remaining] at hf
    simp only [Reduction.traverse]
    omega
  case succ fuel hi =>
    cases r.state.pop_cases
    case inl h =>
      simp only [Reduction.traverse, h.2]
      exact ⟨i, h.1⟩
    case inr h =>
      obtain ⟨node, state, hp, hs, hv⟩ := h
      rcases he : r.builders.eraseEdge src node.id (eraseKind outEdge node state) with ⟨erased, bs⟩
      simp only [Reduction.traverse, hp, he]
      obtain ⟨i', hr⟩ := i.step hs hv (eraseKind_le outEdge node state) he
      exact hi i' (by simp only; omega)

end TraverseInv

-- The invariant between the traversals, where the stack is empty.
structure IdleInv (E : Kind → Nat → Nat → Prop) (r : Reduction) : Prop extends Inv E r where
  idle : r.state.stack = []

theorem IdleInv.followEdge (i : IdleInv E r) (hE : E outEdge.kind src outEdge.id)
    (hf : src < outEdge.id) : IdleInv E (followEdge src r outEdge) := by
  let r₁ : Reduction := { r with state := r.state.markVisited outEdge.id }
  have i₁ : TraverseInv E src outEdge r₁ := by
    refine { i with forward := hf, before := i.kept _ _ _ hE, visited := ?_, stack := ?_ }
    · simpa [r₁, DfsState.markVisited] using i.visited
    · simp [r₁, DfsState.markVisited, i.idle]
  have i₂ := i₁.pushAll (.inl rfl)
  have hr : (r₁.state.pushAll (r₁.builders.outEdges outEdge.id)).remaining ≤ r.builders.length := by
    rw [DfsState.remaining_pushAll, DfsState.remaining]
    · have := List.count_le_length (a := false) (l := r₁.state.visited)
      simpa [r₁, DfsState.markVisited, i.idle, ←i.visited] using this
    · intro e he
      rw [i₁.visited]
      exact i₁.wf.forward _ _ _ he |>.2
  have ⟨i₃, hs⟩ := i₂.traverse hr
  exact { i₃ with idle := hs }

theorem IdleInv.followEdges {edges : List NodeEdge} (i : IdleInv E r)
    (h : ∀ e ∈ edges, E e.kind src e.id ∧ src < e.id) :
    IdleInv E (edges.foldl (Reduction.followEdge src) r) := by
  induction edges generalizing r
  case nil => exact i
  case cons e edges hi =>
    have ⟨he, h⟩ := List.forall_mem_cons.mp h
    exact hi (i.followEdge he.1 he.2) h

theorem outEdges_setPriority (bs : Builders) (i p j : Nat) :
    (bs.setPriority i p).outEdges j = bs.outEdges j ∧
    (bs.setPriority i p).inEdges j = bs.inEdges j := by
  simp only [Builders.outEdges, Builders.inEdges, Builders.get, Builders.setPriority]
  by_cases h : i < bs.length
  case pos => rw [List.getD_modify h]; split <;> simp
  case neg => rw [List.getD_modify_of_le (by omega)]; simp

-- The well-formedness and the guarantees only depend on the edges.
theorem Reduced.congr {bs bs' : Builders} (h : Reduced E bs) (hl : bs'.length = bs.length)
    (ho : ∀ i, bs'.outEdges i = bs.outEdges i) (hi : ∀ i, bs'.inEdges i = bs.inEdges i) :
    Reduced E bs' := by
  have he : bs'.Edge = bs.Edge := by funext k i j; simp [Builders.Edge, ho]
  refine ⟨h.wf.congr hl ho hi, ?_, ?_⟩
  · simpa only [he] using h.sub
  · simpa only [he] using h.kept

theorem reduceNode_reduced (h : Reduced E r.builders) : Reduced E (reduceNode r i).builders := by
  have i₁ : IdleInv E { r with state := r.state.clear r.builders.length } :=
    { h with visited := by simp [DfsState.clear], idle := rfl }
  have i₂ := @IdleInv.followEdges E _ i (r.builders.outEdges i) i₁ fun e he =>
    ⟨h.sub _ _ _ he, h.wf.forward _ _ _ he |>.1⟩
  exact i₂.toReduced.congr (by simp [reduceNode, Builders.setPriority])
    (fun j => outEdges_setPriority _ _ _ j |>.1) (fun j => outEdges_setPriority _ _ _ j |>.2)

theorem run_reduced {bs : Builders} (w : bs.WellFormed) :
    Reduced bs.Edge (runTransitiveReductionAndUpdatePriorities bs).builders := by
  have h : Reduced bs.Edge bs := ⟨w, fun _ _ _ => id, fun _ _ _ => .of_edge⟩
  unfold runTransitiveReductionAndUpdatePriorities
  generalize (List.range bs.length).reverse = is
  suffices ∀ r : Reduction, Reduced bs.Edge r.builders →
      Reduced bs.Edge (is.foldl reduceNode r).builders from this ⟨bs, .empty, 0⟩ h
  induction is <;> intro r h
  case nil          => exact h
  case cons i is hi => exact hi _ (reduceNode_reduced h)

end Reduction

end Runtime.ExecutionGraph
