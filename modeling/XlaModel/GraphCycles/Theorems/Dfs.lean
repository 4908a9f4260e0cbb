import XlaModel.GraphCycles.Basic
import XlaModel.Lib.List
import XlaModel.Lib.Dfs

namespace GraphCycles.Rep

variable {r : Rep}

@[simp] theorem nodes_length_setVisited : (r.setVisited n v).nodes.length = r.nodes.length := by
  simp [setVisited]

@[simp] theorem nodes_length_setRank : (r.setRank n k).nodes.length = r.nodes.length := by
  simp [setRank]

@[simp] theorem nodeIo_length_modifyIns :
    (r.modifyIns n f).nodeIo.length = r.nodeIo.length := by
  simp [modifyIns]

@[simp] theorem nodeIo_length_modifyOuts :
    (r.modifyOuts n f).nodeIo.length = r.nodeIo.length := by
  simp [modifyOuts]

@[simp] theorem nodeIo_setVisited : (r.setVisited n v).nodeIo = r.nodeIo := rfl
@[simp] theorem nodeIo_setRank : (r.setRank n k).nodeIo = r.nodeIo := rfl
@[simp] theorem nodes_modifyIns : (r.modifyIns n f).nodes = r.nodes := rfl
@[simp] theorem nodes_modifyOuts : (r.modifyOuts n f).nodes = r.nodes := rfl
@[simp] theorem freeNodes_setVisited : (r.setVisited n v).freeNodes = r.freeNodes := rfl
@[simp] theorem freeNodes_setRank : (r.setRank n k).freeNodes = r.freeNodes := rfl
@[simp] theorem freeNodes_modifyIns : (r.modifyIns n f).freeNodes = r.freeNodes := rfl
@[simp] theorem freeNodes_modifyOuts : (r.modifyOuts n f).freeNodes = r.freeNodes := rfl
@[simp] theorem outs_setVisited : (r.setVisited n v).outs = r.outs := rfl
@[simp] theorem outs_setRank : (r.setRank n k).outs = r.outs := rfl
@[simp] theorem ins_setVisited : (r.setVisited n v).ins = r.ins := rfl
@[simp] theorem ins_setRank : (r.setRank n k).ins = r.ins := rfl
@[simp] theorem rank_modifyIns : (r.modifyIns n f).rank = r.rank := rfl
@[simp] theorem rank_modifyOuts : (r.modifyOuts n f).rank = r.rank := rfl
@[simp] theorem visited_modifyIns : (r.modifyIns n f).visited = r.visited := rfl
@[simp] theorem visited_modifyOuts : (r.modifyOuts n f).visited = r.visited := rfl

@[simp]
theorem rank_setVisited : (r.setVisited n v).rank m = r.rank m := by
  simp only [rank, node, setVisited]
  by_cases h : n < r.nodes.length
  case pos => rw [List.getD_modify h]; split <;> rfl
  case neg => rw [List.getD_modify_of_le (by omega)]

@[simp]
theorem visited_setRank : (r.setRank n k).visited m = r.visited m := by
  simp only [visited, node, setRank]
  by_cases h : n < r.nodes.length
  case pos => rw [List.getD_modify h]; split <;> rfl
  case neg => rw [List.getD_modify_of_le (by omega)]

theorem visited_setVisited (h : n < r.nodes.length) :
    (r.setVisited n v).visited m = if m = n then v else r.visited m := by
  simp only [visited, node, setVisited, List.getD_modify h]
  split <;> rfl

theorem rank_setRank (h : n < r.nodes.length) :
    (r.setRank n k).rank m = if m = n then k else r.rank m := by
  simp only [rank, node, setRank, List.getD_modify h]
  split <;> rfl

theorem visited_of_le (h : r.nodes.length ≤ n) : r.visited n = false := by
  simp [visited, node, List.getElem?_eq_none h]

@[simp]
theorem outs_modifyIns : (r.modifyIns n f).outs m = r.outs m := by
  simp only [outs, io, modifyIns]
  by_cases h : n < r.nodeIo.length
  case pos => rw [List.getD_modify h]; split <;> rfl
  case neg => rw [List.getD_modify_of_le (by omega)]

@[simp]
theorem ins_modifyOuts : (r.modifyOuts n f).ins m = r.ins m := by
  simp only [ins, io, modifyOuts]
  by_cases h : n < r.nodeIo.length
  case pos => rw [List.getD_modify h]; split <;> rfl
  case neg => rw [List.getD_modify_of_le (by omega)]

theorem outs_modifyOuts (h : n < r.nodeIo.length) :
    (r.modifyOuts n f).outs m = if m = n then f (r.outs m) else r.outs m := by
  simp only [outs, io, modifyOuts, List.getD_modify h]
  split <;> rfl

theorem ins_modifyIns (h : n < r.nodeIo.length) :
    (r.modifyIns n f).ins m = if m = n then f (r.ins m) else r.ins m := by
  simp only [ins, io, modifyIns, List.getD_modify h]
  split <;> rfl

end GraphCycles.Rep

namespace GraphCycles.Rep

-- The searches only change the visited markers.
structure SameGraph (r₁ r₂ : Rep) : Prop where
  nodeIo    : r₂.nodeIo = r₁.nodeIo
  freeNodes : r₂.freeNodes = r₁.freeNodes
  length    : r₂.nodes.length = r₁.nodes.length
  rank      : ∀ n, r₂.rank n = r₁.rank n

namespace SameGraph

variable {r r₁ r₂ r₃ : Rep}

theorem refl : SameGraph r r :=
  ⟨rfl, rfl, rfl, fun _ => rfl⟩

theorem trans (h₁ : SameGraph r₁ r₂) (h₂ : SameGraph r₂ r₃) : SameGraph r₁ r₃ where
  nodeIo    := h₂.nodeIo.trans h₁.nodeIo
  freeNodes := h₂.freeNodes.trans h₁.freeNodes
  length    := h₂.length.trans h₁.length
  rank n    := h₂.rank n |>.trans (h₁.rank n)

theorem setVisited : SameGraph r (r.setVisited n v) :=
  ⟨rfl, rfl, by simp, by simp⟩

theorem rank_eq (h : SameGraph r₁ r₂) : r₂.rank = r₁.rank :=
  funext h.rank

theorem outs (h : SameGraph r₁ r₂) : r₂.outs = r₁.outs := by
  funext n
  simp [Rep.outs, io, h.nodeIo]

theorem ins (h : SameGraph r₁ r₂) : r₂.ins = r₁.ins := by
  funext n
  simp [Rep.ins, io, h.nodeIo]

end SameGraph

-- All node ids that are stored in the graph are indices of the node vectors.
structure InRange (r : Rep) : Prop where
  length : r.nodeIo.length = r.nodes.length
  outs   : ∀ x, ∀ y ∈ r.outs x, y < r.nodes.length
  ins    : ∀ x, ∀ y ∈ r.ins x, y < r.nodes.length

theorem InRange.sameGraph {r₁ r₂ : Rep} (i : InRange r₁) (h : SameGraph r₁ r₂) : InRange r₂ where
  length := by simp [h.nodeIo, h.length, i.length]
  outs   := by simpa [h.outs, h.length] using i.outs
  ins    := by simpa [h.ins, h.length] using i.ins

variable {r : Rep}

theorem pushOuts_eq_push (stack : List Nat) :
    r.pushOuts b ws stack = Dfs.push (r.rank · = b) (r.rank · < b) r.visited ws stack := by
  induction ws generalizing stack <;> simp [pushOuts, Dfs.push]
  case cons w ws hi => simp only [hi]

theorem pushIns_eq_push (stack : List Nat) :
    some (r.pushIns b ws stack) = Dfs.push (fun _ => false) (b < r.rank ·) r.visited ws stack := by
  induction ws generalizing stack <;> simp [pushIns, Dfs.push]
  case cons w ws hi => split <;> exact hi _

theorem visited_setVisited_true (h : n < r.nodes.length) :
    (r.setVisited n true).visited = Function.update r.visited n true := by
  funext m
  rw [visited_setVisited h, Function.update_apply]

theorem pushOuts_mem {stack stack' : List Nat} (h : r.pushOuts b ws stack = some stack')
    (hm : m ∈ stack') : m ∈ stack ∨ m ∈ ws := by
  rw [pushOuts_eq_push] at h
  have := (Dfs.push_some h).2 m |>.mp hm
  tauto

theorem pushIns_mem {stack : List Nat} (hm : m ∈ r.pushIns b ws stack) : m ∈ stack ∨ m ∈ ws := by
  have := (Dfs.push_some <| (pushIns_eq_push stack).symm).2 m |>.mp hm
  tauto

-- The concrete searches simulate the search over a marking function. The marks are the `visited`
-- fields, which only exist for indices in range.
theorem forwardDFS.loop_simulates (i : InRange r) (hs : ∀ n ∈ stack, n < r.nodes.length) :
    SameGraph r (loop b fuel r stack deltaf).2.1 ∧
    Dfs.loop (r.rank · = b) (r.rank · < b) (fun n => (r.outs n).valueSequence)
      fuel r.visited stack deltaf =
    ((loop b fuel r stack deltaf).1, (loop b fuel r stack deltaf).2.1.visited,
      (loop b fuel r stack deltaf).2.2) := by
  induction fuel generalizing r stack deltaf
  case zero => exact ⟨.refl, rfl⟩
  case succ fuel hi =>
    cases stack
    case nil => exact ⟨.refl, rfl⟩
    case cons n stack =>
      have hn := hs n (by simp)
      have hs' := fun m hm => hs m (List.mem_cons_of_mem n hm)
      by_cases hv : r.visited n = true
      case pos => simpa [loop, Dfs.loop, hv] using hi i hs'
      case neg =>
        have e : SameGraph r (r.setVisited n true) := .setVisited
        have hp := @pushOuts_eq_push (r.setVisited n true) b (r.outs n).valueSequence stack
        rw [e.rank_eq, visited_setVisited_true hn] at hp
        simp only [loop, Dfs.loop, hv, Bool.false_eq_true, ↓reduceIte, e.outs, ←hp]
        cases ho : (r.setVisited n true).pushOuts b (r.outs n).valueSequence stack
        case none => exact ⟨e, by simp [visited_setVisited_true hn]⟩
        case some stack' =>
          have hs'' : ∀ m ∈ stack', m < (r.setVisited n true).nodes.length := by
            intro m hm
            rw [e.length]
            rcases pushOuts_mem ho hm with h | h
            · exact hs' m h
            · exact i.outs n m h
          obtain ⟨h₁, h₂⟩ := @hi _ stack' (deltaf ++ [n]) (i.sameGraph e) hs''
          rw [e.rank_eq, e.outs, visited_setVisited_true hn] at h₂
          exact ⟨e.trans h₁, h₂⟩

theorem backwardDFS.loop_simulates (i : InRange r) (hs : ∀ n ∈ stack, n < r.nodes.length) :
    SameGraph r (loop b fuel r stack deltab).1 ∧
    Dfs.loop (fun _ => false) (b < r.rank ·) (fun n => (r.ins n).valueSequence)
      fuel r.visited stack deltab =
    (true, (loop b fuel r stack deltab).1.visited, (loop b fuel r stack deltab).2) := by
  induction fuel generalizing r stack deltab
  case zero => exact ⟨.refl, rfl⟩
  case succ fuel hi =>
    cases stack
    case nil => exact ⟨.refl, rfl⟩
    case cons n stack =>
      have hn := hs n (by simp)
      have hs' := fun m hm => hs m (List.mem_cons_of_mem n hm)
      by_cases hv : r.visited n = true
      case pos => simpa [loop, Dfs.loop, hv] using hi i hs'
      case neg =>
        have e : SameGraph r (r.setVisited n true) := .setVisited
        have hp := @pushIns_eq_push (r.setVisited n true) b (r.ins n).valueSequence stack
        rw [e.rank_eq, visited_setVisited_true hn] at hp
        simp only [loop, Dfs.loop, hv, Bool.false_eq_true, ↓reduceIte, e.ins, ←hp]
        have hs'' : ∀ m ∈ (r.setVisited n true).pushIns b (r.ins n).valueSequence stack,
            m < (r.setVisited n true).nodes.length := by
          intro m hm
          rw [e.length]
          rcases pushIns_mem hm with h | h
          · exact hs' m h
          · exact i.ins n m h
        obtain ⟨h₁, h₂⟩ := @hi _ _ (deltab ++ [n]) (i.sameGraph e) hs''
        rw [e.rank_eq, e.ins, visited_setVisited_true hn] at h₂
        exact ⟨e.trans h₁, h₂⟩

theorem sum_getD_range (l : List α) (f : α → Nat) (d : α) :
    (∑ n ∈ Finset.range l.length, f (l.getD n d)) = (l.map f).sum := by
  rw [Finset.sum_range, ←List.sum_ofFn]
  congr 1
  apply List.ext_getElem <;> simp

theorem work_le (l : List NodeIo) (f : NodeIo → OrderedSet Nat) (marks : Nat → Bool) (n : Nat) :
    Dfs.work (fun n => (f (l.getD n ⟨.empty, .empty⟩)).valueSequence)
      (Finset.range l.length) marks [n] ≤ (l.map (f · |>.size)).sum + 1 := by
  rw [←sum_getD_range l (f · |>.size) ⟨.empty, .empty⟩]
  exact Nat.add_le_add (Finset.sum_le_sum_of_subset (Finset.filter_subset ..)) le_rfl

theorem forwardDFS_result (i : InRange r) (hn : n < r.nodes.length) :
    SameGraph r (r.forwardDFS n b).2.1 ∧
    Dfs.Result (r.rank · = b) (r.rank · < b) (fun n => (r.outs n).valueSequence) r.visited n
      ((r.forwardDFS n b).1, (r.forwardDFS n b).2.1.visited, (r.forwardDFS n b).2.2) := by
  have ⟨h₁, h₂⟩ := @forwardDFS.loop_simulates r [n] b (r.numEdges + 1) [] i (by simpa using hn)
  refine ⟨h₁, h₂ ▸ Dfs.loop_result (U := Finset.range r.nodeIo.length) ?_ ?_ ?_⟩
  · exact fun m _ w hw => by simpa [i.length] using i.outs m w hw
  · simpa [i.length] using hn
  · exact work_le r.nodeIo NodeIo.outs r.visited n

theorem backwardDFS_result (i : InRange r) (hn : n < r.nodes.length) :
    SameGraph r (r.backwardDFS n b).1 ∧
    Dfs.Complete (fun _ => false) (b < r.rank ·) (fun n => (r.ins n).valueSequence) r.visited n
      (r.backwardDFS n b).1.visited (r.backwardDFS n b).2 := by
  have ⟨h₁, h₂⟩ := @backwardDFS.loop_simulates r [n] b (r.numInEdges + 1) [] i (by simpa using hn)
  suffices h : Dfs.Result (fun _ => false) (b < r.rank ·) (fun n => (r.ins n).valueSequence)
      r.visited n (Dfs.loop (fun _ => false) (b < r.rank ·) (fun n => (r.ins n).valueSequence)
        (r.numInEdges + 1) r.visited [n] []) by
    rw [h₂] at h
    exact ⟨h₁, h⟩
  refine Dfs.loop_result (U := Finset.range r.nodeIo.length) ?_ ?_ ?_
  · exact fun m _ w hw => by simpa [i.length] using i.ins m w hw
  · simpa [i.length] using hn
  · exact work_le r.nodeIo NodeIo.ins r.visited n

end GraphCycles.Rep
