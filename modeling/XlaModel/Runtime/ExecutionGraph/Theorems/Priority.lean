import Mathlib.Data.Set.Card
import XlaModel.Lib.PermutedView
import XlaModel.Runtime.ExecutionGraph.Theorems.Create

namespace Runtime.ExecutionGraph

open Relation Precedence

namespace DfsState

variable {s : DfsState} {edge : NodeEdge} {edges : List NodeEdge} {j : Nat}

theorem isVisited_markVisited (h : i < s.visited.length) :
    (s.markVisited i).isVisited j = true ↔ s.isVisited j = true ∨ j = i := by
  by_cases hj : j = i
  case pos => simp [isVisited, markVisited, hj, h]
  case neg => simp [isVisited, markVisited, hj, List.getElem?_set_ne (Ne.symm hj)]

theorem isVisited_push (h : edge.id < s.visited.length) :
    (s.push edge).isVisited j = true ↔ s.isVisited j = true ∨ j = edge.id := by
  rw [push]
  split_ifs with hv
  case pos => exact ⟨.inl, fun h => h.elim id fun h => h ▸ hv⟩
  case neg =>
    cases edge.kind
    case scheduling => exact isVisited_markVisited h
    case execution  => exact isVisited_markVisited h

theorem isVisited_pushAll (h : ∀ e ∈ edges, e.id < s.visited.length) :
    (s.pushAll edges).isVisited j = true ↔ s.isVisited j = true ∨ ∃ e ∈ edges, j = e.id := by
  induction edges generalizing s
  case nil => simp [pushAll]
  case cons edge edges hi =>
    obtain ⟨he, h⟩ := List.forall_mem_cons.mp h
    rw [pushAll, List.foldl_cons, ← pushAll, hi (by simpa using h), isVisited_push he]
    simp [or_assoc]

theorem mem_stack_of_push (h : s.isVisited j = true → ∃ e ∈ s.stack, e.id = j) (hj : (s.push edge).isVisited j = true)
    (he : edge.id < s.visited.length) : ∃ e ∈ (s.push edge).stack, e.id = j := by
  rw [isVisited_push he] at hj
  rw [push]
  split_ifs with hv
  case pos => exact h (hj.elim id fun hj => hj ▸ hv)
  case neg =>
    have hs : ∃ e ∈ edge :: s.stack, e.id = j := by
      obtain hj | rfl := hj
      case inl =>
        obtain ⟨e, he, hj⟩ := h hj
        exact ⟨e, .tail _ he, hj⟩
      case inr => exact ⟨edge, .head _, rfl⟩
    cases edge.kind
    case scheduling => exact hs
    case execution  => exact hs

theorem stack_subset_push (h : e ∈ s.stack) : e ∈ (s.push edge).stack := by
  rw [push]
  split_ifs
  case pos => exact h
  case neg =>
    cases edge.kind
    case scheduling => exact .tail _ h
    case execution  => exact .tail _ h

theorem stack_subset_pushAll (h : e ∈ s.stack) : e ∈ (s.pushAll edges).stack := by
  induction edges generalizing s
  case nil               => exact h
  case cons edge edges hi => exact hi (stack_subset_push h)

-- A node that is marked by `pushAll` is on the stack.
theorem mem_stack_of_pushAll (hj : (s.pushAll edges).isVisited j = true) (hn : s.isVisited j = false)
    (h : ∀ e ∈ edges, e.id < s.visited.length) : ∃ e ∈ (s.pushAll edges).stack, e.id = j := by
  induction edges generalizing s
  case nil =>
    rw [pushAll, List.foldl_nil, hn] at hj
    cases hj
  case cons edge edges hi =>
    obtain ⟨he, h⟩ := List.forall_mem_cons.mp h
    by_cases hp : (s.push edge).isVisited j = true
    case neg => exact hi hj (by simpa using hp) (by simpa using h)
    case pos =>
      obtain ⟨e, hs, hj⟩ := mem_stack_of_push (by simp [hn]) hp he
      have hs : e ∈ ((s.push edge).pushAll edges).stack := stack_subset_pushAll hs
      exact ⟨e, hs, hj⟩

theorem numVisited_eq {A : Set Nat} (h : ∀ j, s.isVisited j = true ↔ j ∈ A) : s.numVisited = A.ncard := by
  have hf : A = ((List.range s.visited.length).filter s.isVisited).toFinset := by
    ext j
    have hl : s.isVisited j = true → j < s.visited.length := fun hj => by
      by_contra hn
      simp [isVisited, List.getElem?_eq_none (Nat.le_of_not_lt hn)] at hj
    rw [← h]
    simp only [List.coe_toFinset, Set.mem_ofPred_eq, List.mem_filter, List.mem_range]
    exact ⟨fun hj => ⟨hl hj, hj⟩, And.right⟩
  have hc : s.visited.count true = ((List.range s.visited.length).filter s.isVisited).length := by
    conv_lhs => rw [← View.map_getD_range s.visited false]
    rw [List.count_eq_countP, List.countP_map, List.countP_eq_length_filter]
    congr 2
    funext j
    simp [isVisited]
  rw [numVisited, hc, hf, Set.ncard_coe_finset, List.toFinset_card_of_nodup (List.nodup_range.filter _)]

end DfsState

namespace Reduction

variable {r : Reduction} {G : Nat → Nat → Prop} {src : Nat} {outEdge : NodeEdge} {edges : List NodeEdge}

-- The traversals from the node `src`. The steps of the graph at their start are `G`.
structure Round (G : Nat → Nat → Prop) (src : Nat) (r : Reduction) : Prop where
  wf      : r.builders.WellFormed
  length  : r.state.visited.length = r.builders.length
  same    : ∀ a b, src < a → (Step r.builders.Edge a b ↔ G a b)
  forward : ∀ a b, G a b → a < b
  bound   : ∀ a b, G a b → b < r.builders.length
  sound   : ∀ j, r.state.isVisited j = true → TransGen G src j
  stack   : ∀ e ∈ r.state.stack, TransGen G src e.id

-- All steps of the visited nodes have been followed unless the node is on the stack.
structure RoundInv (G : Nat → Nat → Prop) (src : Nat) (r : Reduction) : Prop extends Round G src r where
  closed : ∀ j, r.state.isVisited j = true → (∃ e ∈ r.state.stack, e.id = j) ∨ ∀ m, G j m → r.state.isVisited m = true

namespace Round

theorem lt (h : Round G src r) (hj : TransGen G src j) : src < j := by
  have hj : id src < id j := hj.rank_lt h.forward
  exact hj

theorem lt_length (h : Round G src r) {e : NodeEdge} (he : e ∈ r.builders.outEdges j) :
    e.id < r.state.visited.length := by
  rw [h.length]
  exact (h.wf.forward _ _ _ he).2

-- The edges of a node behind `src` are pushed.
theorem pushAll (h : Round G src r) (hn : TransGen G src n)
    (hc : ∀ j, r.state.isVisited j = true → j ≠ n → (∃ e ∈ r.state.stack, e.id = j) ∨ ∀ m, G j m → r.state.isVisited m = true) :
    RoundInv G src { r with state := r.state.pushAll (r.builders.outEdges n) } := by
  have hlt := h.lt hn
  have hl : ∀ e ∈ r.builders.outEdges n, e.id < r.state.visited.length := fun e => h.lt_length
  have hstep {m : Nat} : G n m ↔ ∃ e ∈ r.builders.outEdges n, m = e.id := by
    rw [← h.same n m hlt]
    constructor
    case mp  => exact fun ⟨k, he⟩ => ⟨_, he, rfl⟩
    case mpr =>
      rintro ⟨e, he, rfl⟩
      exact ⟨e.kind, he⟩
  refine {
    h with
    length := by simpa using h.length
    sound  := fun j hj => ?sound
    stack  := fun e he => ?stack
    closed := fun j hj => ?closed
  }
  case sound =>
    obtain hj | hj := (DfsState.isVisited_pushAll hl).mp hj
    case inl => exact h.sound j hj
    case inr => exact hn.tail (hstep.mpr hj)
  case stack =>
    obtain he | he := DfsState.mem_stack_pushAll he
    case inl => exact hn.tail (hstep.mpr ⟨e, he, rfl⟩)
    case inr => exact h.stack e he
  case closed =>
    have hmono {m : Nat} (hm : r.state.isVisited m = true) : (r.state.pushAll (r.builders.outEdges n)).isVisited m = true :=
      (DfsState.isVisited_pushAll hl).mpr (.inl hm)
    by_cases hjn : j = n
    case pos => exact .inr fun m hm => (DfsState.isVisited_pushAll hl).mpr (.inr (hstep.mp (hjn ▸ hm)))
    case neg =>
      by_cases hv : r.state.isVisited j = true
      case neg => exact .inl (DfsState.mem_stack_of_pushAll hj (by simpa using hv) hl)
      case pos =>
        obtain ⟨e, he, hj⟩ | hm := hc j hv hjn
        case inl => exact .inl ⟨e, DfsState.stack_subset_pushAll he, hj⟩
        case inr => exact .inr fun m hg => hmono (hm m hg)

theorem erase {bs : Builders} (h : Round G src r) (e : r.builders.Erased bs src dst kind) :
    Round G src { r with builders := bs } := by
  refine {
    h with
    wf     := e.wf
    length := h.length.trans e.length.symm
    same   := fun a b ha => ?_
    bound  := fun a b hg => e.length.symm ▸ h.bound a b hg
  }
  rw [← h.same a b ha]
  refine exists_congr fun k => (e.edge k a b).trans (and_iff_left fun hab => ?_)
  omega

end Round

namespace RoundInv

theorem mono_traverse (h : RoundInv G src r) (fuel : Nat) : RoundInv G src (traverse src outEdge fuel r) ∧
    ∀ j, r.state.isVisited j = true → (traverse src outEdge fuel r).state.isVisited j = true := by
  induction fuel generalizing r
  case zero => exact ⟨h, fun _ => id⟩
  case succ fuel hi =>
    obtain hp | ⟨node, state, hp, hs, hv⟩ := r.state.pop_cases
    case inl =>
      simp only [traverse, hp.2]
      exact ⟨h, fun _ => id⟩
    case inr =>
      rcases he : r.builders.eraseEdge src node.id (eraseKind outEdge node state) with ⟨erased, bs⟩
      simp only [traverse, hp, he]
      have hvis (j : Nat) : state.isVisited j = r.state.isVisited j := by rw [DfsState.isVisited, hv, DfsState.isVisited]
      have hn : TransGen G src node.id := h.stack node (hs ▸ .head _)
      have h₁ : Round G src { r with state } :=
        {
          h.toRound with
          length := hv ▸ h.length
          sound  := fun j hj => h.sound j (hvis j ▸ hj)
          stack  := fun e he => h.stack e (hs ▸ .tail _ he)
        }
      have h₂ : Round G src ⟨bs, state, r.numErased + erased⟩ := by
        obtain hz | ⟨bs', hz, e⟩ := Builders.eraseEdge_result h.wf
        case inl =>
          obtain ⟨rfl, rfl⟩ := Prod.mk.inj (hz.symm.trans he)
          exact { h₁ with }
        case inr =>
          obtain ⟨rfl, rfl⟩ := Prod.mk.inj (hz.symm.trans he)
          exact { h₁.erase e with }
      have h₃ := h₂.pushAll hn fun j hj hjn => by
        simp only [hvis] at hj ⊢
        obtain ⟨e, he, hj⟩ | hm := h.closed j hj
        case inr => exact .inr hm
        case inl =>
          refine .inl ⟨e, ?_, hj⟩
          rw [hs] at he
          exact (List.mem_cons.mp he).resolve_left fun h => hjn (hj ▸ h ▸ rfl)
      obtain ⟨h₄, hm⟩ := hi h₃
      refine ⟨h₄, fun j hj => hm j ((DfsState.isVisited_pushAll fun e => h₂.lt_length).mpr (.inl ?_))⟩
      rwa [hvis]

theorem mono_followEdge (h : RoundInv G src r) (hi : r.state.stack = []) (he : G src outEdge.id) : RoundInv G src (followEdge src r outEdge) ∧
    ∀ j, r.state.isVisited j = true ∨ j = outEdge.id → (followEdge src r outEdge).state.isVisited j = true := by
  have hl : outEdge.id < r.state.visited.length := h.length.symm ▸ h.bound _ _ he
  have h₁ : Round G src { r with state := r.state.markVisited outEdge.id } := {
    h.toRound with
    length := by simpa [DfsState.markVisited] using h.length
    sound  := fun j hj => ((DfsState.isVisited_markVisited hl).mp hj).elim (h.sound j) fun hj => hj ▸ .single he
    stack  := h.stack
  }
  have h₂ := h₁.pushAll (.single he) fun j hj hne => by
    have hj := ((DfsState.isVisited_markVisited hl).mp hj).resolve_right hne
    obtain ⟨e, hs, -⟩ | hm := h.closed j hj
    case inl => simp [hi] at hs
    case inr => exact .inr fun m hg => (DfsState.isVisited_markVisited hl).mpr (.inl (hm m hg))
  obtain ⟨h₃, hm⟩ := @mono_traverse _ _ _ outEdge h₂ r.builders.length
  refine ⟨h₃, fun j hj => hm j ?_⟩
  exact (DfsState.isVisited_pushAll fun e => h₁.lt_length).mpr (.inl ((DfsState.isVisited_markVisited hl).mpr hj))

end RoundInv

-- All out-edges of the node are followed.
theorem RoundInv.followEdges {E : Kind → Nat → Nat → Prop} (i : IdleInv E r) (h : RoundInv G src r)
    (he : ∀ e ∈ edges, (E e.kind src e.id ∧ src < e.id) ∧ G src e.id) :
    RoundInv G src (edges.foldl (Reduction.followEdge src) r) ∧
    ∀ j, (r.state.isVisited j = true ∨ ∃ e ∈ edges, j = e.id) →
      (edges.foldl (Reduction.followEdge src) r).state.isVisited j = true := by
  induction edges generalizing r
  case nil => exact ⟨h, by simp⟩
  case cons e edges hi =>
    have ⟨⟨hE, hG⟩, he⟩ := List.forall_mem_cons.mp he
    obtain ⟨h', hm⟩ := h.mono_followEdge i.idle hG
    obtain ⟨h₂, hm₂⟩ := hi (i.followEdge hE.1 hE.2) h' he
    refine ⟨h₂, fun j hj => hm₂ j ?_⟩
    simp only [List.mem_cons, exists_eq_or_imp] at hj
    obtain hj | hj | hj := hj
    case inl     => exact .inl (hm j (.inl hj))
    case inr.inl => exact .inl (hm j (.inr hj))
    case inr.inr => exact .inr hj

section Priorities

def priorities (bs : Builders) : List Nat :=
  bs.map NodeDefBuilder.priority

theorem map_modify_eq {f : NodeDefBuilder → NodeDefBuilder} (bs : Builders) (i : Nat) (h : ∀ b, (f b).priority = b.priority) :
    priorities (bs.modify i f) = priorities bs := by
  refine List.ext_getElem (by simp [priorities]) fun j h₁ h₂ => ?_
  simp only [priorities, List.getElem_map, List.getElem_modify]
  split_ifs
  case pos => exact h _
  case neg => rfl

theorem priorities_eraseEdge (bs : Builders) (src dst : Nat) (kind : Kind) :
    priorities (bs.eraseEdge src dst kind).2 = priorities bs := by
  have he (i j : Nat) (f g : List NodeEdge → List NodeEdge) : priorities ((bs.modifyOut i f).modifyIn j g) = priorities bs := by
    rw [Builders.modifyIn, map_modify_eq _ j, Builders.modifyOut, map_modify_eq _ i]
    · exact fun _ => rfl
    · exact fun _ => rfl
  rw [Builders.eraseEdge]
  split <;> try rfl
  split_ifs <;> try rfl
  simp only
  split <;> try rfl
  split_ifs <;> try rfl
  simp only [he]

theorem priorities_traverse (fuel : Nat) : priorities (traverse src outEdge fuel r).builders = priorities r.builders := by
  induction fuel generalizing r
  case zero => rfl
  case succ fuel hi =>
    rw [traverse]
    cases r.state.pop
    case none => rfl
    case some p => exact hi.trans (priorities_eraseEdge _ _ _ _)

theorem priorities_followEdges : priorities (edges.foldl (followEdge src) r).builders = priorities r.builders := by
  induction edges generalizing r
  case nil             => rfl
  case cons e edges hi => exact hi.trans (priorities_traverse _)

theorem priorities_reduceNode : priorities (reduceNode r i).builders =
    (priorities r.builders).set i ((r.builders.outEdges i).foldl (followEdge i)
      { r with state := r.state.clear r.builders.length }).state.numVisited := by
  rw [reduceNode]
  generalize hr : (r.builders.outEdges i).foldl (followEdge i) { r with state := r.state.clear r.builders.length } = r'
  have hp : priorities r'.builders = priorities r.builders := hr ▸ priorities_followEdges
  rw [← hp]
  refine List.ext_getElem (by simp [priorities, Builders.setPriority]) fun j h₁ h₂ => ?_
  simp only [priorities, Builders.setPriority, List.getElem_map, List.getElem_modify, List.getElem_set]
  split_ifs
  case pos => rfl
  case neg => rfl

-- The nodes that are visited are the ones that are reachable.
theorem numVisited_reduceNode {E : Kind → Nat → Nat → Prop} (h : Reduced E r.builders) (i : Nat) :
    ((r.builders.outEdges i).foldl (followEdge i) { r with state := r.state.clear r.builders.length }).state.numVisited =
      {j | TransGen (Step r.builders.Edge) i j}.ncard := by
  have hv (j : Nat) : (r.state.clear r.builders.length).isVisited j = false := by
    rw [DfsState.isVisited, DfsState.clear, List.getD_eq_getElem?_getD, List.getElem?_replicate]
    split_ifs <;> rfl
  have i₁ : IdleInv E { r with state := r.state.clear r.builders.length } :=
    { h with visited := by simp [DfsState.clear], idle := rfl }
  have h₁ : RoundInv (Step r.builders.Edge) i { r with state := r.state.clear r.builders.length } := {
    wf      := h.wf
    length  := by simp [DfsState.clear]
    same    := fun _ _ _ => .rfl
    forward := fun a b hs => hs.elim fun k he => (h.wf.forward k a b he).1
    bound   := fun a b hs => hs.elim fun k he => (h.wf.forward k a b he).2
    sound   := fun j hj => by simp [hv] at hj
    stack   := fun e he => by cases he
    closed  := fun j hj => by simp [hv] at hj
  }
  have hedges (e) (he : e ∈ r.builders.outEdges i) : (E e.kind i e.id ∧ i < e.id) ∧ Step r.builders.Edge i e.id :=
    ⟨⟨h.sub _ _ _ he, (h.wf.forward _ _ _ he).1⟩, e.kind, he⟩
  obtain ⟨h₂, hm⟩ := h₁.followEdges i₁ hedges
  have i₂ := i₁.followEdges fun e he => (hedges e he).1
  refine DfsState.numVisited_eq fun j => ⟨h₂.sound j, fun hj => ?_⟩
  induction hj
  case single j hs =>
    obtain ⟨k, he⟩ := hs
    exact hm j (.inr ⟨_, he, rfl⟩)
  case tail j m _ hs hj =>
    obtain ⟨e, he, -⟩ | hg := h₂.closed j hj
    case inl => simp [i₂.idle] at he
    case inr => exact hg m hs

-- The reachable nodes are not changed by the reduction.
theorem Reduced.path_iff {E : Kind → Nat → Nat → Prop} {bs : Builders} (h : Reduced E bs) {i j : Nat} :
    TransGen (Step bs.Edge) i j ↔ TransGen (Step E) i j := by
  constructor
  case mp  => exact fun hp => hp.imp fun a b ⟨k, he⟩ => ⟨k, h.sub k a b he⟩
  case mpr =>
    intro hp
    have hb {a b : Nat} (hs : Step E a b) : TransGen (Step bs.Edge) a b := by
      obtain ⟨k, he⟩ := hs
      obtain ⟨k', m, _, he, hp⟩ := h.kept k a b he
      exact .head' ⟨k', he⟩ hp
    induction hp
    case single hs     => exact hb hs
    case tail hs hp => exact hp.trans (hb hs)

theorem run_length {bs : Builders} : (runTransitiveReductionAndUpdatePriorities bs).builders.length = bs.length := by
  have hfold (is : List Nat) (r : Reduction) : (is.foldl reduceNode r).builders.length = r.builders.length := by
    induction is generalizing r
    case nil          => rfl
    case cons i is hi =>
      have hp := congrArg List.length (priorities_reduceNode (r := r) (i := i))
      exact (hi _).trans (by simpa [priorities] using hp)
  exact hfold _ _

theorem run_priority {bs : Builders} (w : bs.WellFormed) (hi : i < bs.length) :
    ((runTransitiveReductionAndUpdatePriorities bs).builders.get i).priority = {j | TransGen (Step bs.Edge) i j}.ncard := by
  have hrun (n : Nat) (r : Reduction) (h : Reduced bs.Edge r.builders) (hl : r.builders.length = bs.length) :
      ∀ i < bs.length, (priorities ((List.range n).reverse.foldl reduceNode r).builders).getD i 0 =
        if i < n then {j | TransGen (Step bs.Edge) i j}.ncard else (priorities r.builders).getD i 0 := by
    induction n generalizing r
    case zero => simp
    case succ n hn =>
      intro i hi
      have hp := priorities_reduceNode (r := r) (i := n)
      rw [numVisited_reduceNode h] at hp
      have hl' : (reduceNode r n).builders.length = bs.length := by
        have := congrArg List.length hp
        simpa [priorities, hl] using this
      rw [List.range_succ, List.reverse_append, List.reverse_singleton, List.singleton_append, List.foldl_cons,
        hn _ (reduceNode_reduced h) hl' i hi, hp]
      have hpl : i < (priorities r.builders).length := by rwa [priorities, List.length_map, hl]
      simp only [h.path_iff, List.getD_eq_getElem?_getD, List.getElem?_set]
      obtain hlt | rfl | hgt := Nat.lt_trichotomy i n
      case inl     => simp [hlt, Nat.lt_succ_of_lt hlt]
      case inr.inl => simp [hpl]
      case inr.inr => simp [Nat.not_lt_of_gt hgt, Nat.not_lt_of_ge hgt, hgt.ne]
  have hr := hrun bs.length ⟨bs, .empty, 0⟩ ⟨w, fun _ _ _ => id, fun _ _ _ => .of_edge⟩ rfl i hi
  rw [if_pos hi] at hr
  rw [← hr, runTransitiveReductionAndUpdatePriorities, Builders.get, priorities]
  exact (List.getD_map _ _ _).symm

end Priorities

end Reduction

section Create

variable {ops : List Operation} {g : ExecutionGraph}

theorem conflictKind_isSome_iff {a b : Operation} :
    (∃ k, conflictKind a b = some k) ↔ BufferConflict a b ∨ ResourceConflict a b := by
  constructor
  case mp =>
    intro ⟨k, hk⟩
    by_contra hn
    obtain ⟨hb, hr⟩ := not_or.mp hn
    have hb : ¬(BufferUse.ReadWriteSet.empty.addAll a.bufferUses).hasConflicts (.addAll .empty b.bufferUses) = true :=
      mt BufferUse.ReadWriteSet.hasConflicts_iff.mp hb
    have hr : ¬(ResourceUse.ReadWriteSet.empty.addAll a.resourceUses).hasConflicts (.addAll .empty b.resourceUses) = true :=
      mt ResourceUse.ReadWriteSet.hasConflicts_iff.mp hr
    simp [conflictKind, hb, hr] at hk
  case mpr =>
    intro h
    obtain h | h := h
    case inl => exact ⟨_, conflictKind_of_buffer h⟩
    case inr => exact conflictKind_of_resource h

theorem create_eq (h : create ops = .ok g) :
    g = ofNodesDefs (createNodeDefs (runTransitiveReductionAndUpdatePriorities (connectAll ops)).builders) := by
  rw [create] at h
  split_ifs at h
  exact (Except.ok.inj h).symm

theorem inEdges_create (h : create ops = .ok g) :
    g.inEdges = (runTransitiveReductionAndUpdatePriorities (connectAll ops)).builders.inEdges := by
  funext i
  rw [create_eq h]
  simp only [inEdges, ofNodesDefs, createNodeDefs, Builders.inEdges, Builders.get, List.getD_eq_getElem?_getD,
    List.getElem?_map]
  cases (runTransitiveReductionAndUpdatePriorities (connectAll ops)).builders[i]? <;> rfl

theorem priority_create (h : create ops = .ok g) :
    g.priority i = ((runTransitiveReductionAndUpdatePriorities (connectAll ops)).builders.get i).priority := by
  rw [create_eq h]
  simp only [priority, ofNodesDefs, createNodeDefs, Builders.get, List.getD_eq_getElem?_getD, List.getElem?_map]
  cases (runTransitiveReductionAndUpdatePriorities (connectAll ops)).builders[i]? <;> rfl

theorem connectAll_edge : (connectAll ops).Edge = ConflictEdge ops := by
  funext k i j
  refine propext <| ((connectAll_connected ops).edge k i j).trans ⟨And.right, fun h => ⟨.inl ?_, h⟩⟩
  have ⟨_, _, _, _, hj, _⟩ := h
  exact (List.getElem?_eq_some_iff.mp hj).1

-- The edge between two consecutive operations is never erased.
theorem consecutive_edge_iff (h : create ops = .ok g) :
    (∃ k, g.Edge k i (i + 1)) ↔ ∃ k, ConflictEdge ops k i (i + 1) := by
  obtain ⟨hs, hk⟩ := create_reduced h
  constructor
  case mp  => exact fun ⟨k, he⟩ => ⟨k, hs k _ _ he⟩
  case mpr =>
    intro ⟨k, hc⟩
    obtain ⟨k', m, _, he, hp⟩ := hk k _ _ hc
    have hm : id m ≤ id (i + 1) := hp.rank_le fun a b ⟨k, he⟩ => (hs k a b he).1
    have hi := (hs k' i m he).1
    obtain rfl : m = i + 1 := Nat.le_antisymm hm hi
    exact ⟨k', he⟩

theorem isSequential_iff (h : create ops = .ok g) : g.isSequential = true ↔
    ∀ i a b, ops[i]? = some a → ops[i + 1]? = some b → BufferConflict a b ∨ ResourceConflict a b := by
  have c := connectAll_connected ops
  have hl : g.nodesDefs.length = ops.length := by
    rw [create_eq h, ofNodesDefs, createNodeDefs, List.length_map, Reduction.run_length, c.length]
  have hs : g.isSequential = (List.range g.nodesDefs.length).all fun i => i = 0 ∨ (g.inEdges i).any (·.id = i - 1) := by
    rw [create_eq h]
    rfl
  have hm (k : Kind) (i j : Nat) : g.Edge k i j ↔ ⟨k, i⟩ ∈ g.inEdges j := by
    rw [Edge, outEdges_create h, inEdges_create h]
    exact (Reduction.run_reduced c.wf).wf.mirrored k i j
  have he (i : Nat) : (g.inEdges (i + 1)).any (·.id = i) = true ↔ ∃ k, ConflictEdge ops k i (i + 1) := by
    rw [← consecutive_edge_iff h, List.any_eq_true]
    simp only [hm, decide_eq_true_eq]
    constructor
    case mp =>
      rintro ⟨e, he, rfl⟩
      exact ⟨e.kind, he⟩
    case mpr => exact fun h => h.elim fun k he => ⟨_, he, rfl⟩
  rw [hs, hl, List.all_eq_true]
  simp only [List.mem_range, decide_eq_true_eq]
  constructor
  case mp =>
    intro hall i a b ha hb
    have hi := (List.getElem?_eq_some_iff.mp hb).1
    obtain ⟨k, _, a', b', ha', hb', hk⟩ := (he i).mp ((hall (i + 1) hi).resolve_left (Nat.succ_ne_zero i))
    obtain rfl := Option.some.inj (ha.symm.trans ha')
    obtain rfl := Option.some.inj (hb.symm.trans hb')
    exact conflictKind_isSome_iff.mp ⟨k, hk⟩
  case mpr =>
    intro hall i hi
    cases i
    case zero   => exact .inl rfl
    case succ i =>
      have hb := List.getElem?_eq_getElem hi
      have ha := List.getElem?_eq_getElem (Nat.lt_of_succ_lt hi)
      obtain ⟨k, hk⟩ := conflictKind_isSome_iff.mpr (hall i _ _ ha hb)
      exact .inr ((he i).mpr ⟨k, Nat.lt_succ_self i, _, _, ha, hb, hk⟩)

-- The reduction keeps the reachable nodes, and counts them.
theorem create_reachability (h : create ops = .ok g) :
    (∀ i j, TransGen (Step g.Edge) i j ↔ TransGen (Step (ConflictEdge ops)) i j) ∧
    (∀ k i j, ⟨k, j⟩ ∈ g.outEdges i ↔ ⟨k, i⟩ ∈ g.inEdges j) ∧
    (∀ i, (g.outEdges i).Pairwise (·.id < ·.id) ∧ (g.inEdges i).Pairwise (·.id < ·.id)) ∧
    (∀ i < ops.length, g.priority i = {j | j ≠ i ∧ ReflTransGen (Step (ConflictEdge ops)) i j}.ncard) ∧
    (g.isSequential = true ↔
      ∀ i a b, ops[i]? = some a → ops[i + 1]? = some b → BufferConflict a b ∨ ResourceConflict a b) := by
  have c := connectAll_connected ops
  have hr := Reduction.run_reduced c.wf
  have hg : g.Edge = (runTransitiveReductionAndUpdatePriorities (connectAll ops)).builders.Edge := by
    funext k i j
    simp [Edge, outEdges_create h, Builders.Edge]
  refine ⟨fun i j => ?path, ?outEdges, ?inEdges, fun i hi => ?priority, isSequential_iff h⟩
  case path =>
    rw [hg, hr.path_iff, connectAll_edge]
  case outEdges =>
    rw [outEdges_create h, inEdges_create h]
    exact hr.wf.mirrored
  case inEdges =>
    rw [outEdges_create h, inEdges_create h]
    exact fun i => ⟨hr.wf.outSorted i, hr.wf.inSorted i⟩
  case priority =>
    rw [priority_create h, Reduction.run_priority c.wf (c.length.symm ▸ hi), connectAll_edge]
    congr 1
    ext j
    rw [Set.mem_ofPred_eq, Set.mem_ofPred_eq, reflTransGen_iff_eq_or_transGen]
    constructor
    case mp =>
      intro hp
      have hlt : id i < id j := hp.rank_lt fun a b hs => hs.elim fun k hc => hc.1
      exact ⟨hlt.ne', .inr hp⟩
    case mpr => exact fun h => h.2.resolve_left h.1

theorem create_reachability_writeRead : ∃ g, create writeRead = .ok g ∧
    TransGen (Step g.Edge) 0 1 ∧ g.priority 0 = 1 ∧ g.isSequential = true := by
  have ⟨g, h⟩ : ∃ g, create writeRead = .ok g := ⟨_, rfl⟩
  have ⟨hp, _, _, hn, hs⟩ := create_reachability h
  have hc : ConflictEdge writeRead .execution 0 1 := by
    refine ⟨Nat.zero_lt_one, _, _, rfl, rfl, ?_⟩
    decide
  have hq : {j | j ≠ 0 ∧ ReflTransGen (Step (ConflictEdge writeRead)) 0 j} = {1} := by
    ext j
    rw [Set.mem_ofPred_eq, Set.mem_singleton_iff]
    constructor
    case mp =>
      intro ⟨hne, hp⟩
      cases hp.cases_tail
      case inl hj => contradiction
      case inr hp =>
        obtain ⟨m, _, _, hlt, _, _, _, hj, _⟩ := hp
        have hj : j < 2 := (List.getElem?_eq_some_iff.mp hj).1
        omega
    case mpr =>
      rintro rfl
      exact ⟨Nat.one_ne_zero, .single ⟨_, hc⟩⟩
  refine ⟨g, h, hp 0 1 |>.mpr (.single ⟨_, hc⟩), ?priority, ?sequential⟩
  case priority => rw [hn 0 Nat.two_pos, hq, Set.ncard_singleton]
  case sequential =>
    refine hs.mpr fun i a b ha hb => ?_
    obtain rfl : i = 0 := by
      have hb : i + 1 < 2 := (List.getElem?_eq_some_iff.mp hb).1
      omega
    obtain rfl := Option.some.inj ha
    obtain rfl := Option.some.inj hb
    exact .inl ⟨_, List.mem_singleton.mpr rfl, _, List.mem_singleton.mpr rfl, .inl (by decide), .inl rfl⟩

end Create

end Runtime.ExecutionGraph
