import XlaModel.GraphCycles.Theorems.ContractEdge
import XlaModel.Lib.Transition
import XlaModel.Lib.Path

namespace GraphCycles

open Relation

inductive Op
  | newNode
  | removeNode (n : Nat)
  | insertEdge (x y : Nat)
  | removeEdge (x y : Nat)
  | contractEdge (a b : Nat)
  | canContractEdge (a b : Nat)
  | isReachableNonConst (x y : Nat)

open GraphCycles.Rep

-- The calls of the public interface. All of them require live node ids.
inductive Step : Rep → Op → Rep → Prop
  | newNode : Step r .newNode r.newNode.2
  | removeNode : r.Live n → Step r (.removeNode n) (r.removeNode n)
  | insertEdge : r.Live x → r.Live y → Step r (.insertEdge x y) (r.insertEdge x y).2
  | removeEdge : r.Live x → r.Live y → r.Edge x y → Step r (.removeEdge x y) (r.removeEdge x y)
  | contractEdge : r.Live a → r.Live b → r.contractEdge a b = some (result, r') →
      Step r (.contractEdge a b) r'
  | canContractEdge : r.Live a → r.Live b → r.canContractEdge a b = some (result, r') →
      Step r (.canContractEdge a b) r'
  | isReachableNonConst : r.Live x → r.Live y →
      Step r (.isReachableNonConst x y) (r.isReachableNonConst x y).2

def execution : Transition Rep Op where
  init r := r = .empty
  step   := Step

theorem Rep.Inv.empty : Inv .empty := by
  constructor
  case rank_lt => simp [Edge, outs, io, Rep.empty]
  case toValid => constructor <;> simp [Edge, outs, ins, io, Rep.empty]

theorem Step.inv {r₁ r₂ : Rep} (i : Inv r₁) (h : Step r₁ op r₂) : Inv r₂ := by
  cases h
  case newNode                   => exact newNode_inv i
  case removeNode hn             => exact removeNode_inv i hn
  case insertEdge hx hy          => exact (insertEdge_result i hx hy).inv
  case removeEdge hx hy _        => exact i.removeEdge hx hy
  case contractEdge h            => exact (h ▸ contractEdge_result i (edge_of_contractEdge h)).inv
  case isReachableNonConst hx hy => exact (isReachableNonConst_result i hx hy).inv
  case canContractEdge h =>
    have ⟨can, r', hc, _, hr⟩ := canContractEdge_result i (edge_of_canContractEdge h)
    obtain ⟨rfl, rfl⟩ : _ ∧ r' = r₂ := by simpa [h, eq_comm] using hc
    exact hr.inv

theorem Step.reachable {r₁ r₂ : Rep} (h : execution.Reachable r₁) (s : Step r₁ op r₂) :
    execution.Reachable r₂ :=
  .step h s

theorem Reachable.inv {r : Rep} (h : execution.Reachable r) : Inv r :=
  h.invariant ⟨fun h => h ▸ .empty, Step.inv⟩

-- In all reachable states the ranks are a permutation and a topological order of the graph, the
-- in-sets mirror the out-sets, free nodes are disconnected and no node is marked as visited.
theorem reachable_rep_invariant {r : Rep} (h : execution.Reachable r) :
    (r.nodes.map Node.rank).Perm (List.range r.nodes.length) ∧
    (∀ x y, y ∈ r.outs x ↔ x ∈ r.ins y) ∧
    (∀ x y, y ∈ r.outs x → r.Live x ∧ r.Live y) ∧
    (∀ x y, y ∈ r.outs x → r.rank x < r.rank y) ∧
    (∀ n ∈ r.nodes, n.visited = false) ∧
    (∀ n, ¬TransGen r.Edge n n) :=
  have i := Reachable.inv h
  ⟨i.ranks, i.mirrored, i.live, i.rank_lt, i.unvisited, i.acyclic⟩

-- A graph whose only edge has been inserted against the order in which its nodes were created.
def reversedEdge : Rep :=
  (Rep.empty.newNode.2.newNode.2.insertEdge 1 0).2

theorem reversedEdge_live (h : n < 2) : reversedEdge.Live n := by
  constructor
  case lt =>
    have : reversedEdge.nodes.length = 2 := by decide +kernel
    omega
  case not_free =>
    have : reversedEdge.freeNodes = [] := by decide +kernel
    simp [this]

theorem reversedEdge_reachable : execution.Reachable reversedEdge := by
  have hl (n : Nat) (h : n < 2) : Rep.empty.newNode.2.newNode.2.Live n :=
    ⟨h, by simp [newNode, Rep.empty]⟩
  refine Step.reachable ?_ <| .insertEdge (hl 1 <| by decide) (hl 0 <| by decide)
  exact Step.reachable (Step.reachable (.init rfl) .newNode) .newNode

theorem reachable_rep_invariant_reversedEdge :
    reversedEdge.Edge 1 0 ∧ reversedEdge.rank 1 < reversedEdge.rank 0 := by
  have he : reversedEdge.Edge 1 0 := by decide +kernel
  exact ⟨he, (reachable_rep_invariant reversedEdge_reachable).2.2.2.1 1 0 he⟩

-- `insertEdge` fails iff the new edge closes a cycle, in this case nothing is changed.
theorem insertEdge_exact {r : Rep} (h : execution.Reachable r) (hx : r.Live x) (hy : r.Live y) :
    ((r.insertEdge x y).1 = false ↔ x = y ∨ TransGen r.Edge y x) ∧
    ((r.insertEdge x y).1 = false →
      (∀ a b, (r.insertEdge x y).2.Edge a b ↔ r.Edge a b) ∧
      (∀ n, (r.insertEdge x y).2.rank n = r.rank n) ∧
      (∀ n ∈ (r.insertEdge x y).2.nodes, n.visited = false)) ∧
    ((r.insertEdge x y).1 = true →
      ∀ a b, (r.insertEdge x y).2.Edge a b ↔ r.Edge a b ∨ (a = x ∧ b = y)) := by
  have hr := insertEdge_result (Reachable.inv h) hx hy
  generalize r.insertEdge x y = result at hr
  cases hr
  case cycle hc i u =>
    refine ⟨iff_of_true rfl ?_, fun _ => ⟨u.edge, u.rank, i.unvisited⟩, by simp⟩
    simpa [reflTransGen_iff_eq_or_transGen] using hc
  case added hne hp i ad =>
    refine ⟨iff_of_false (by simp) ?_, by simp, fun _ => ad.edge⟩
    rintro (h | h)
    · exact hne h
    · exact hp h.to_reflTransGen

theorem insertEdge_exact_reversedEdge :
    (reversedEdge.insertEdge 0 1).1 = false ∧ TransGen reversedEdge.Edge 1 0 := by
  have hi := insertEdge_exact reversedEdge_reachable (reversedEdge_live (n := 0) <| by decide)
    (reversedEdge_live (n := 1) <| by decide)
  have hp : TransGen reversedEdge.Edge 1 0 := .single (by decide +kernel)
  exact ⟨hi.1.mpr (.inr hp), hp⟩

-- `contractEdge` computes the graph in which the end points of the edge are identified, unless this
-- would result in a cycle.
theorem contractEdge_quotient {r : Rep} (h : execution.Reachable r) (he : r.Edge a b) :
    ∃ can r₁ result r₂,
      r.canContractEdge a b = some (can, r₁) ∧
      r.contractEdge a b = some (result, r₂) ∧
      (can = false ↔ HasDetour r a b) ∧
      (∀ x y, r₁.Edge x y ↔ r.Edge x y) ∧
      (result = none ↔ HasDetour r a b) ∧
      (result = none → ∀ x y, r₂.Edge x y ↔ r.Edge x y) ∧
      (∀ s, result = some s → ∃ g, ((s = a ∧ g = b) ∨ (s = b ∧ g = a)) ∧
        (∀ x y, r₂.Edge x y ↔ x ≠ y ∧ Identified r.Edge s g x y) ∧
        r₂.freeNodes = g :: r.freeNodes) := by
  have i := Reachable.inv h
  have ⟨can, r₁, hc, hcan, hr₁⟩ := canContractEdge_result i he
  have hr := contractEdge_result i he
  generalize r.contractEdge a b = result at hr
  cases hr
  case detour r₂ hd hr₂ =>
    exact ⟨can, r₁, none, r₂, hc, rfl, hcan, hr₁.edge, by simp [hd], fun _ => hr₂.edge, by simp⟩
  case first r₂ hd hr₂ =>
    refine ⟨can, r₁, some a, r₂, hc, rfl, hcan, hr₁.edge, by simp [hd], by simp, ?_⟩
    rintro s ⟨⟩
    exact ⟨b, .inl ⟨rfl, rfl⟩, hr₂.edge, hr₂.freeNodes⟩
  case second r₂ hd hr₂ =>
    refine ⟨can, r₁, some b, r₂, hc, rfl, hcan, hr₁.edge, by simp [hd], by simp, ?_⟩
    rintro s ⟨⟩
    exact ⟨a, .inr ⟨rfl, rfl⟩, hr₂.edge, hr₂.freeNodes⟩

theorem contractEdge_quotient_reversedEdge :
    reversedEdge.Edge 1 0 ∧ ∃ result r, reversedEdge.contractEdge 1 0 = some (result, r) := by
  have he : reversedEdge.Edge 1 0 := by decide +kernel
  have ⟨_, _, result, r, _, hc, _⟩ := contractEdge_quotient reversedEdge_reachable he
  exact ⟨he, result, r, hc⟩

end GraphCycles

namespace GraphCycles

namespace Rep

open Relation

variable {r : Rep} {x y n : Nat} {maxPathLen : Int} {path : Nat → Nat} {nodes : List Nat}

def successors (r : Rep) (n : Nat) : List Nat :=
  (r.outs n).valueSequence

section FindPath

-- The first entries of the array are the first nodes of the path, which lists its nodes from the last one to the first
-- one.
def Stored (maxPathLen : Int) (path : Nat → Nat) (nodes : List Nat) : Prop :=
  ∀ i < nodes.length, (i : Int) < maxPathLen → nodes.reverse[i]? = some (path i)

theorem Stored.tail (h : Stored maxPathLen path nodes) : Stored maxPathLen path nodes.tail := by
  cases nodes
  case nil            => exact h
  case cons n nodes =>
    intro i hi hm
    have hs := h i (Nat.lt_succ_of_lt hi) hm
    rwa [List.reverse_cons, List.getElem?_append_left (by simpa using hi)] at hs

theorem Stored.cons (h : Stored maxPathLen path nodes) (n : Nat) :
    Stored maxPathLen (if nodes.length < maxPathLen then Function.update path nodes.length n else path) (n :: nodes) := by
  intro i hi hm
  rw [List.reverse_cons]
  obtain hlt | rfl := Nat.lt_succ_iff_lt_or_eq.mp hi
  case inl =>
    rw [List.getElem?_append_left (by simpa using hlt), h i hlt hm]
    split_ifs
    case pos => rw [Function.update_of_ne hlt.ne]
    case neg => rfl
  case inr =>
    rw [if_pos hm, Function.update_self, ← List.length_reverse, List.getElem?_concat_length]

theorem findPath.pushOuts_eq_push (s : (Nat → Bool) × List (Option Nat)) (ws : List Nat) :
    findPath.pushOuts ws s = PathSearch.push ws s := by
  induction ws generalizing s
  case nil          => rfl
  case cons w ws hi => rw [pushOuts, PathSearch.push, hi, hi]

-- The loop keeps the length of the path and stores its first nodes.
theorem findPath.loop_simulates {fuel : Nat} {stack : List (Option Nat)} {seen : Nat → Bool} (h : Stored maxPathLen path nodes) :
    (∀ nodes', PathSearch.loop r.successors y fuel ⟨stack, seen, nodes⟩ = some nodes' →
      (loop r y maxPathLen fuel stack seen nodes.length path).1 = nodes'.length ∧
      Stored maxPathLen (loop r y maxPathLen fuel stack seen nodes.length path).2 nodes') ∧
    (PathSearch.loop r.successors y fuel ⟨stack, seen, nodes⟩ = none →
      (loop r y maxPathLen fuel stack seen nodes.length path).1 = 0) := by
  induction fuel generalizing stack seen nodes path
  case zero => exact ⟨by simp [PathSearch.loop], fun _ => rfl⟩
  case succ fuel hi =>
    cases stack
    case nil => exact ⟨by simp [PathSearch.loop], fun _ => rfl⟩
    case cons n stack =>
      cases n
      case none =>
        rw [loop, PathSearch.loop, ← List.length_tail]
        exact hi h.tail
      case some n =>
        have hs := h.cons n
        simp only [loop, PathSearch.loop, pushOuts_eq_push]
        generalize (if (nodes.length : Int) < maxPathLen then Function.update path nodes.length n else path) = path at hs ⊢
        by_cases hn : n = y
        case neg =>
          simp only [if_neg hn]
          exact hi hs
        case pos =>
          simp only [if_pos hn]
          refine ⟨fun nodes' hp => ?_, by simp⟩
          obtain rfl := Option.some.inj hp
          exact ⟨rfl, hs⟩

open PathSearch in
theorem isPath_spec {root : Nat} (h : IsPath r.successors root nodes) :
    nodes.reverse.head? = some root ∧ nodes.reverse.IsChain r.Edge := by
  induction h
  case root => exact ⟨rfl, List.isChain_singleton _⟩
  case cons n m nodes hs _ hi =>
    obtain ⟨hh, hc⟩ := hi
    rw [List.reverse_cons]
    refine ⟨by rw [List.head?_append, hh]; rfl, List.isChain_append.mpr ⟨hc, List.isChain_singleton _, ?_⟩⟩
    intro a ha b hb
    rw [List.getLast?_reverse, List.head?_cons] at ha
    obtain rfl := Option.some.inj ha
    obtain rfl := Option.some.inj hb
    exact hs

-- The ranks increase along a path.
theorem Inv.nodup_of_isChain (i : Inv r) (h : nodes.IsChain r.Edge) : nodes.Nodup := by
  have hr : nodes.IsChain fun a b => r.rank a < r.rank b := h.imp fun a b => i.rank_lt a b
  have ht : IsTrans Nat fun a b => r.rank a < r.rank b := ⟨fun _ _ _ => Nat.lt_trans⟩
  exact hr.pairwise.imp fun hlt he => absurd (he ▸ hlt) (Nat.lt_irrefl _)

-- The result of the search in the graph.
structure FindPathResult (r : Rep) (x y : Nat) (maxPathLen : Int) (result : Nat × (Nat → Nat)) : Prop where
  reach : 0 < result.1 ↔ ReflTransGen r.Edge x y
  path  : 0 < result.1 → ∃ nodes : List Nat, nodes.length = result.1 ∧ nodes.head? = some x ∧ nodes.getLast? = some y ∧
    nodes.IsChain r.Edge ∧ nodes.Nodup ∧ ∀ i < nodes.length, (i : Int) < maxPathLen → nodes[i]? = some (result.2 i)

theorem findPath_result (i : Inv r) : FindPathResult r x y maxPathLen (r.findPath x y maxPathLen path) := by
  have hU (n) (w) (hw : w ∈ r.successors n) : w ∈ Finset.range r.nodes.length :=
    Finset.mem_range.mpr (i.live n w hw).2.lt
  have hf : PathSearch.work (Finset.range r.nodes.length) [some x] (fun _ => false) ≤ 2 * r.nodes.length + 2 := by
    simp [PathSearch.work, PathSearch.weight]
  have hi : PathSearch.Inv r.successors x y ⟨[some x], fun _ => false, []⟩ := .init
  have hr := hi.loop hU hf
  obtain ⟨hfound, hnone⟩ := @findPath.loop_simulates r y maxPathLen path [] (2 * r.nodes.length + 2) [some x]
    (fun _ => false) (by simp [Stored])
  rw [List.length_nil] at hfound hnone
  rw [findPath]
  cases hl : PathSearch.loop r.successors y (2 * r.nodes.length + 2) ⟨[some x], fun _ => false, []⟩
  case none =>
    rw [hl] at hr
    have hz := hnone hl
    exact ⟨iff_of_false (by omega) (hr.notFound rfl), fun h => by omega⟩
  case some nodes =>
    rw [hl] at hr
    obtain ⟨hp, hy⟩ := hr.found nodes rfl
    obtain ⟨hlen, hs⟩ := hfound nodes hl
    obtain ⟨hx, hc⟩ := isPath_spec hp
    have hy' : y ∈ nodes := List.mem_of_head? hy
    have hreach : ReflTransGen r.Edge x y := hp.reach y hy'
    have hpos : 0 < nodes.length := List.length_pos_of_mem hy'
    refine ⟨iff_of_true (by omega) hreach, fun _ =>
      ⟨nodes.reverse, ?length, hx, ?last, hc, i.nodup_of_isChain hc, ?bounded⟩⟩
    case length => rw [List.length_reverse, hlen]
    case last => rw [List.getLast?_reverse, hy]
    case bounded =>
      intro i hi hm
      exact hs i (by simpa using hi) hm

end FindPath

section PostOrder

theorem mem_allNodesInPostOrder : n ∈ r.allNodesInPostOrder ↔ r.Live n := by
  rw [allNodesInPostOrder, sortInPostOrder, List.mem_insertionSort, List.mem_filter, List.mem_range, decide_eq_true_iff]
  exact ⟨fun h => ⟨h.1, h.2⟩, fun h => ⟨h.lt, h.not_free⟩⟩

theorem allNodesInPostOrder_nodup : r.allNodesInPostOrder.Nodup :=
  (List.perm_insertionSort _ _).nodup_iff.mpr (List.nodup_range.filter _)

-- A node is not followed by a node to which it has a path.
theorem allNodesInPostOrder_order (i : Inv r) : r.allNodesInPostOrder.Pairwise fun a b => ¬ReflTransGen r.Edge a b := by
  have htotal : Std.Total fun a b => r.rank a ≥ r.rank b := ⟨fun a b => Nat.le_total (r.rank b) (r.rank a)⟩
  have htrans : IsTrans Nat fun a b => r.rank a ≥ r.rank b := ⟨fun _ _ _ h h' => Nat.le_trans h' h⟩
  have hs : r.allNodesInPostOrder.Pairwise fun a b => r.rank a ≥ r.rank b := List.pairwise_insertionSort _ _
  refine (hs.and allNodesInPostOrder_nodup).imp fun {a b} ⟨hle, hne⟩ hp => ?_
  obtain rfl | hp := reflTransGen_iff_eq_or_transGen.mp hp
  case inl => exact hne rfl
  case inr => exact absurd hle (Nat.not_le_of_lt (i.rank_lt_of_path hp))

end PostOrder

end Rep

open Relation GraphCycles.Rep

-- All queries agree with the paths of the graph.
theorem queries_agree {r : Rep} (h : execution.Reachable r) (hx : r.Live x) (hy : r.Live y) (maxPathLen : Int)
    (path : Nat → Nat) :
    ((r.isReachableNonConst x y).1 = true ↔ ReflTransGen r.Edge x y) ∧
    (r.isReachable x y = true ↔ ReflTransGen r.Edge x y) ∧
    FindPathResult r x y maxPathLen (r.findPath x y maxPathLen path) ∧
    r.allNodesInPostOrder.Nodup ∧ (∀ n, n ∈ r.allNodesInPostOrder ↔ r.Live n) ∧
    r.allNodesInPostOrder.Pairwise fun a b => ¬ReflTransGen r.Edge a b := by
  have i := Reachable.inv h
  refine ⟨(isReachableNonConst_result i hx hy).iff_path, ?_, findPath_result i, allNodesInPostOrder_nodup,
    fun _ => mem_allNodesInPostOrder, allNodesInPostOrder_order i⟩
  rw [isReachable, decide_eq_true_iff]
  exact (findPath_result i).reach

theorem queries_agree_reversedEdge : (reversedEdge.findPath 1 0 1 fun _ => 7).1 = 2 ∧
    FindPathResult reversedEdge 1 0 1 (reversedEdge.findPath 1 0 1 fun _ => 7) := by
  have hq := queries_agree reversedEdge_reachable (reversedEdge_live (n := 1) <| by decide)
    (reversedEdge_live (n := 0) <| by decide) 1 fun _ => 7
  exact ⟨by decide +kernel, hq.2.2.1⟩

end GraphCycles
