import XlaModel.GraphCycles.Theorems.Invariant

namespace GraphCycles.Rep

variable {r r' : Rep}

section Unlink

-- Only the in-sets are changed.
structure InsOnly (r r' : Rep) : Prop where
  nodes     : r'.nodes = r.nodes
  freeNodes : r'.freeNodes = r.freeNodes
  length    : r'.nodeIo.length = r.nodeIo.length
  outs      : ∀ n, r'.outs n = r.outs n

structure OutsOnly (r r' : Rep) : Prop where
  nodes     : r'.nodes = r.nodes
  freeNodes : r'.freeNodes = r.freeNodes
  length    : r'.nodeIo.length = r.nodeIo.length
  ins       : ∀ n, r'.ins n = r.ins n

variable {l : List Nat}

theorem eraseIns_spec (hl : ∀ y ∈ l, y < r.nodeIo.length) :
    InsOnly r (l.foldl (fun r y => r.modifyIns y (·.erase g)) r) ∧
    ∀ a b, a ∈ (l.foldl (fun r y => r.modifyIns y (·.erase g)) r).ins b ↔
      a ∈ r.ins b ∧ ¬(a = g ∧ b ∈ l) := by
  induction l generalizing r
  case nil => exact ⟨⟨rfl, rfl, rfl, fun _ => rfl⟩, by simp⟩
  case cons y l hi =>
    have hy := hl y (by simp)
    have ⟨f, hf⟩ := @hi (r.modifyIns y (·.erase g)) (by simp_all)
    refine ⟨⟨f.nodes, f.freeNodes, by simpa using f.length, by simpa using f.outs⟩, fun a b => ?_⟩
    rw [List.foldl_cons, hf, ins_modifyIns hy]
    split <;> simp_all

theorem eraseOuts_spec (hl : ∀ y ∈ l, y < r.nodeIo.length) :
    OutsOnly r (l.foldl (fun r y => r.modifyOuts y (·.erase g)) r) ∧
    ∀ a b, b ∈ (l.foldl (fun r y => r.modifyOuts y (·.erase g)) r).outs a ↔
      b ∈ r.outs a ∧ ¬(b = g ∧ a ∈ l) := by
  induction l generalizing r
  case nil => exact ⟨⟨rfl, rfl, rfl, fun _ => rfl⟩, by simp⟩
  case cons y l hi =>
    have hy := hl y (by simp)
    have ⟨f, hf⟩ := @hi (r.modifyOuts y (·.erase g)) (by simp_all)
    refine ⟨⟨f.nodes, f.freeNodes, by simpa using f.length, by simpa using f.ins⟩, fun a b => ?_⟩
    rw [List.foldl_cons, hf, outs_modifyOuts hy]
    split <;> simp_all

structure Unlinked (r r' : Rep) (g : Nat) (os is : OrderedSet Nat) : Prop where
  nodes     : r'.nodes = r.nodes
  freeNodes : r'.freeNodes = r.freeNodes
  length    : r'.nodeIo.length = r.nodeIo.length
  outs      : ∀ a b, b ∈ r'.outs a ↔ b ∈ r.outs a ∧ ¬(b = g ∧ a ∈ is)
  ins       : ∀ a b, a ∈ r'.ins b ↔ a ∈ r.ins b ∧ ¬(a = g ∧ b ∈ os)

theorem unlink_spec {os is : OrderedSet Nat} (ho : ∀ y ∈ os, y < r.nodeIo.length)
    (hi : ∀ y ∈ is, y < r.nodeIo.length) : Unlinked r (r.unlink g os is) g os is := by
  have ⟨f₁, h₁⟩ := @eraseIns_spec r os.valueSequence g ho
  have ⟨f₂, h₂⟩ := @eraseOuts_spec _ is.valueSequence g (fun y h => f₁.length ▸ hi y h)
  constructor
  case nodes     => exact f₂.nodes.trans f₁.nodes
  case freeNodes => exact f₂.freeNodes.trans f₁.freeNodes
  case length    => exact f₂.length.trans f₁.length
  case outs      => exact fun a b => by rw [unlink, h₂, f₁.outs]; rfl
  case ins       => exact fun a b => by rw [unlink, f₂.ins, h₁]; rfl

end Unlink

-- The node `g` has been disconnected from the graph and can be reused.
structure Freed (r r' : Rep) (g : Nat) : Prop where
  edge      : ∀ a b, r'.Edge a b ↔ r.Edge a b ∧ a ≠ g ∧ b ≠ g
  ins       : ∀ a b, a ∈ r'.ins b ↔ a ∈ r.ins b ∧ a ≠ g ∧ b ≠ g
  nodes     : r'.nodes = r.nodes
  length    : r'.nodeIo.length = r.nodeIo.length
  freeNodes : r'.freeNodes = g :: r.freeNodes

namespace Freed

theorem live_iff (f : Freed r r' g) : r'.Live n ↔ r.Live n ∧ n ≠ g := by
  constructor
  · intro ⟨h₁, h₂⟩
    rw [f.freeNodes, List.mem_cons, not_or] at h₂
    exact ⟨⟨f.nodes ▸ h₁, h₂.2⟩, h₂.1⟩
  · intro ⟨⟨h₁, h₂⟩, h₃⟩
    exact ⟨f.nodes ▸ h₁, by simp [f.freeNodes, h₂, h₃]⟩

theorem rank (f : Freed r r' g) (n : Nat) : r'.rank n = r.rank n := by
  simp [Rep.rank, node, f.nodes]

theorem inv (f : Freed r r' g) (i : Inv r) (hg : r.Live g) : Inv r' where
  length        := by rw [f.length, f.nodes, i.length]
  ranks         := by simpa only [f.nodes] using i.ranks
  mirrored a b  := by rw [f.ins, ←i.mirrored]; exact f.edge a b
  live a b h    := by
    have ⟨h, ha, hb⟩ := f.edge a b |>.mp h
    have hl := i.live a b h
    exact ⟨f.live_iff.mpr ⟨hl.1, ha⟩, f.live_iff.mpr ⟨hl.2, hb⟩⟩
  free_lt       := by
    simp only [f.freeNodes, f.nodes, List.mem_cons, forall_eq_or_imp]
    exact ⟨hg.lt, i.free_lt⟩
  free          := by
    rw [f.freeNodes, List.nodup_cons]
    exact ⟨hg.not_free, i.free⟩
  unvisited     := by simpa only [f.nodes] using i.unvisited
  rank_lt a b h := by
    rw [f.rank, f.rank]
    exact i.rank_lt a b (f.edge a b |>.mp h |>.1)

end Freed

theorem Inv.not_edge_self (i : Inv r) (n : Nat) : ¬r.Edge n n :=
  fun h => i.acyclic n (.single h)

theorem outs_lt (i : Inv r) : ∀ y ∈ r.outs g, y < r.nodeIo.length :=
  fun _ h => i.length ▸ (i.live _ _ h |>.2.lt)

theorem ins_lt (i : Inv r) : ∀ y ∈ r.ins g, y < r.nodeIo.length :=
  fun _ h => i.length ▸ (i.live _ _ (i.mirrored _ _ |>.mpr h) |>.1.lt)

theorem outs_removeNode (hg : g < (r.unlink g (r.outs g) (r.ins g)).nodeIo.length) :
    (r.removeNode g).outs a =
    if a = g then .empty else (r.unlink g (r.outs g) (r.ins g)).outs a := by
  have h : (r.removeNode g).outs a = (r.unlink g (r.outs g) (r.ins g)
    |>.modifyIns g (fun _ => .empty) |>.modifyOuts g (fun _ => .empty)).outs a := rfl
  rw [h, outs_modifyOuts (by simpa using hg), outs_modifyIns]

theorem ins_removeNode (hg : g < (r.unlink g (r.outs g) (r.ins g)).nodeIo.length) :
    (r.removeNode g).ins b =
    if b = g then .empty else (r.unlink g (r.outs g) (r.ins g)).ins b := by
  have h : (r.removeNode g).ins b = (r.unlink g (r.outs g) (r.ins g)
    |>.modifyIns g (fun _ => .empty) |>.modifyOuts g (fun _ => .empty)).ins b := rfl
  rw [h, ins_modifyOuts, ins_modifyIns hg]

theorem removeNode_freed (i : Inv r) (hg : r.Live g) : Freed r (r.removeNode g) g := by
  have u := @unlink_spec r g (r.outs g) (r.ins g) (outs_lt i) (ins_lt i)
  have hg' : g < (r.unlink g (r.outs g) (r.ins g)).nodeIo.length := u.length ▸ i.length ▸ hg.lt
  refine ⟨fun a b => ?_, fun a b => ?_, u.nodes, ?_, by simp [removeNode, u.freeNodes]⟩
  · have := i.mirrored a g
    rw [Edge, outs_removeNode hg']
    split <;> simp [u.outs] <;> grind [Edge]
  · have := i.mirrored g b
    rw [ins_removeNode hg']
    split <;> simp [u.ins] <;> grind
  · simp [removeNode, u.length]

theorem removeNode_inv (i : Inv r) (hg : r.Live g) : Inv (r.removeNode g) :=
  removeNode_freed i hg |>.inv i hg

section NewNode

theorem newNode_reused (h : r.freeNodes = n :: free) :
    r.newNode = (n, { r with freeNodes := free }) := by
  simp [newNode, h]

theorem newNode_extended (h : r.freeNodes = []) :
    r.newNode = (r.nodes.length, { r with
      nodes  := r.nodes ++ [⟨r.nodes.length, false⟩]
      nodeIo := r.nodeIo ++ [⟨.empty, .empty⟩] }) := by
  simp [newNode, h]

theorem getD_append_default (l : List α) (d : α) (n : Nat) : (l ++ [d]).getD n d = l.getD n d := by
  simp only [List.getD_eq_getElem?_getD, List.getElem?_append, List.getElem?_singleton]
  split
  case isTrue    => rfl
  case isFalse h =>
    rw [List.getElem?_eq_none (by omega)]
    split <;> rfl

theorem edge_newNode (r : Rep) (a b : Nat) : r.newNode.2.Edge a b ↔ r.Edge a b := by
  cases h : r.freeNodes
  case nil  => rw [newNode_extended h, Edge, outs, io, getD_append_default]; rfl
  case cons => rw [newNode_reused h]; rfl

theorem mem_ins_newNode (r : Rep) (a b : Nat) : a ∈ r.newNode.2.ins b ↔ a ∈ r.ins b := by
  cases h : r.freeNodes
  case nil  => rw [newNode_extended h, ins, io, getD_append_default]; rfl
  case cons => rw [newNode_reused h]; rfl

theorem Live.newNode (h : r.Live n) : r.newNode.2.Live n := by
  cases hf : r.freeNodes
  case nil  =>
    rw [newNode_extended hf]
    exact ⟨by have := h.lt; simp; omega, by simp [hf]⟩
  case cons m free =>
    rw [newNode_reused hf]
    exact ⟨h.lt, fun hm => h.not_free (by simp [hf, hm])⟩

theorem rank_newNode (h : r.Live n) : r.newNode.2.rank n = r.rank n := by
  cases hf : r.freeNodes
  case nil  =>
    rw [newNode_extended hf]
    simp [rank, node, List.getElem?_append, h.lt]
  case cons => rw [newNode_reused hf]; rfl

theorem newNode_inv (i : Inv r) : Inv r.newNode.2 where
  length        := by
    cases h : r.freeNodes
    case nil  => simp [newNode_extended h, i.length]
    case cons => simp [newNode_reused h, i.length]
  ranks         := by
    cases h : r.freeNodes
    case nil  => simpa [newNode_extended h, List.range_succ] using i.ranks.append_right _
    case cons => simpa [newNode_reused h] using i.ranks
  mirrored a b  := by
    rw [mem_ins_newNode, ←i.mirrored]
    exact edge_newNode r a b
  live a b h    := by
    have ⟨ha, hb⟩ := i.live a b (edge_newNode r a b |>.mp h)
    exact ⟨ha.newNode, hb.newNode⟩
  free_lt       := by
    cases h : r.freeNodes
    case nil  => simp [newNode_extended h, h]
    case cons => have := i.free_lt; simp_all [newNode_reused h]
  free          := by
    cases h : r.freeNodes
    case nil  => simp [newNode_extended h, h]
    case cons => have := i.free; simp_all [newNode_reused h]
  unvisited     := by
    cases h : r.freeNodes
    case nil  =>
      have := i.unvisited
      simp only [newNode_extended h, List.mem_append, List.mem_singleton]
      rintro n (hn | rfl)
      · exact this n hn
      · rfl
    case cons => simpa [newNode_reused h] using i.unvisited
  rank_lt a b h := by
    have h := edge_newNode r a b |>.mp h
    have ⟨ha, hb⟩ := i.live a b h
    rw [rank_newNode ha, rank_newNode hb]
    exact i.rank_lt a b h

theorem newNode_live (i : Inv r) : r.newNode.2.Live r.newNode.1 := by
  cases h : r.freeNodes
  case nil  =>
    rw [newNode_extended h]
    exact ⟨by simp, by simp [h]⟩
  case cons n free =>
    have hf := i.free
    rw [h, List.nodup_cons] at hf
    rw [newNode_reused h]
    exact ⟨i.free_lt n (by simp [h]), hf.1⟩

end NewNode

end GraphCycles.Rep
