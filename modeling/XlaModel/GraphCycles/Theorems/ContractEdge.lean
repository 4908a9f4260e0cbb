import XlaModel.GraphCycles.Theorems.InsertEdge
import XlaModel.GraphCycles.Theorems.RemoveNode

namespace GraphCycles.Rep

open Relation

variable {r : Rep} {a b s g : Nat}

def insertEdges (r : Rep) (es : List (Nat × Nat)) : Rep :=
  es.foldl (fun r e => (r.insertEdge e.1 e.2).2) r

structure EdgesAdded (r r' : Rep) (es : List (Nat × Nat)) : Prop where
  edge      : ∀ a b, r'.Edge a b ↔ r.Edge a b ∨ (a, b) ∈ es
  freeNodes : r'.freeNodes = r.freeNodes
  length    : r'.nodes.length = r.nodes.length

-- No insertion fails, if all edges are part of a graph in which no new edge is on a cycle.
theorem insertEdges_spec {Q : Nat → Nat → Prop} {es : List (Nat × Nat)} (i : Inv r)
    (hQ : ∀ a b, r.Edge a b → Q a b) (hl : ∀ e ∈ es, r.Live e.1 ∧ r.Live e.2)
    (he : ∀ e ∈ es, Q e.1 e.2 ∧ ¬ReflTransGen Q e.2 e.1) :
    Inv (r.insertEdges es) ∧ EdgesAdded r (r.insertEdges es) es := by
  induction es generalizing r
  case nil => exact ⟨i, by simp [insertEdges], rfl, rfl⟩
  case cons e es hi =>
    have ⟨hx, hy⟩ := hl e (by simp)
    have ⟨hq, hc⟩ := he e (by simp)
    have hr := insertEdge_result i hx hy
    rw [insertEdges, List.foldl_cons, ←insertEdges]
    generalize r.insertEdge e.1 e.2 = result at hr
    cases hr
    case cycle h _ _ =>
      refine absurd ?_ hc
      rcases h with h | h
      · exact h ▸ .refl
      · exact h.imp hQ
    case added r₁ _ _ i₁ ad =>
      have hlive (n : Nat) (h : r.Live n) : r₁.Live n :=
        ⟨ad.length ▸ h.lt, ad.freeNodes ▸ h.not_free⟩
      have ⟨i₂, ad₂⟩ := @hi r₁ i₁
        (fun x y h => by
          rcases ad.edge x y |>.mp h with h | ⟨rfl, rfl⟩
          · exact hQ x y h
          · exact hq)
        (fun e' h => by
          have ⟨h₁, h₂⟩ := hl e' (by simp [h])
          exact ⟨hlive _ h₁, hlive _ h₂⟩)
        (fun e' h => he e' (by simp [h]))
      refine ⟨i₂, fun x y => ?_, ad₂.freeNodes.trans ad.freeNodes, ad₂.length.trans ad.length⟩
      rw [ad₂.edge, ad.edge, List.mem_cons, or_assoc, Prod.ext_iff]

section Merge

-- The state in which `mergeInto` starts to insert edges.
def detach (r : Rep) (g : Nat) : Rep :=
  let r' := r.modifyOuts g (fun _ => .empty) |>.modifyIns g (fun _ => .empty)
  let r' := r'.unlink g (r.outs g) (r.ins g)
  { r' with freeNodes := g :: r'.freeNodes }

def movedEdges (r : Rep) (s g : Nat) : List (Nat × Nat) :=
  (r.outs g).valueSequence.map (s, ·) ++ (r.ins g).valueSequence.map (·, s)

theorem mergeInto_eq (r : Rep) (s g : Nat) :
    r.mergeInto s g = (r.detach g).insertEdges (r.movedEdges s g) := by
  simp only [mergeInto, insertEdges, movedEdges, List.foldl_append, List.foldl_map, detach]

theorem detach_freed (i : Inv r) (hg : r.Live g) : Freed r (r.detach g) g := by
  have hg' : g < r.nodeIo.length := i.length ▸ hg.lt
  have ho := outs_lt i (g := g)
  have hi := ins_lt i (g := g)
  have u := @unlink_spec (r.modifyOuts g (fun _ => .empty) |>.modifyIns g (fun _ => .empty)) g
    (r.outs g) (r.ins g) (by simpa using ho) (by simpa using hi)
  refine ⟨fun a b => ?_, fun a b => ?_, u.nodes, ?_, by simp [detach, u.freeNodes]⟩
  · have := i.mirrored a g
    refine (u.outs a b).trans ?_
    rw [outs_modifyIns, outs_modifyOuts hg']
    split <;> simp <;> grind [Edge]
  · have := i.mirrored g b
    refine (u.ins a b).trans ?_
    rw [ins_modifyIns (by simpa using hg'), ins_modifyOuts]
    split <;> simp <;> grind
  · simp [detach, u.length]

theorem mem_movedEdges (i : Inv r) :
    e ∈ r.movedEdges s g ↔ (e.1 = s ∧ r.Edge g e.2) ∨ (e.2 = s ∧ r.Edge e.1 g) := by
  have hm := i.mirrored e.1 g
  simp only [movedEdges, List.mem_append, List.mem_map, Prod.ext_iff]
  grind [Edge, OrderedSet.mem_def]

-- The edges of the merged graph are the edges of the graph in which the nodes are identified.
theorem edge_or_movedEdges (i : Inv r) (hsg : ¬r.Edge s g) (hgs : ¬r.Edge g s) :
    (r.Edge a b ∧ a ≠ g ∧ b ≠ g) ∨ (a, b) ∈ r.movedEdges s g ↔ Identified r.Edge s g a b := by
  rw [mem_movedEdges i]
  constructor
  · rintro (⟨h, ha, hb⟩ | ⟨rfl, h⟩ | ⟨rfl, h⟩)
    · exact ⟨a, b, h, by simp [identify, ha], by simp [identify, hb]⟩
    · have hb : b ≠ g := fun hb => i.not_edge_self g (hb ▸ h)
      exact ⟨g, b, h, by simp [identify], by simp [identify, hb]⟩
    · have ha : a ≠ g := fun ha => i.not_edge_self g (ha ▸ h)
      exact ⟨a, g, h, by simp [identify, ha], by simp [identify]⟩
  · rintro ⟨x, y, h, hx, hy⟩
    rcases identify_eq_iff.mp hx with ⟨rfl, rfl⟩ | ⟨hx, rfl⟩ <;>
      rcases identify_eq_iff.mp hy with ⟨rfl, rfl⟩ | ⟨hy, rfl⟩
    · exact absurd h (i.not_edge_self _)
    · exact .inr <| .inl ⟨rfl, h⟩
    · exact .inr <| .inr ⟨rfl, h⟩
    · exact .inl ⟨h, hx, hy⟩

structure Merged (r r' : Rep) (s g : Nat) : Prop where
  inv       : Inv r'
  edge      : ∀ x y, r'.Edge x y ↔ Identified r.Edge s g x y
  freeNodes : r'.freeNodes = g :: r.freeNodes
  length    : r'.nodes.length = r.nodes.length

theorem mergeInto_spec (i : Inv r) (hs : r.Live s) (hg : r.Live g)
    (hsg : ¬ReflTransGen r.Edge s g) (hgs : ¬ReflTransGen r.Edge g s) :
    Merged r (r.mergeInto s g) s g := by
  have f := detach_freed i hg
  have hQ : ¬TransGen (Identified r.Edge s g) s s := by
    refine not_transGen_identified fun u v hu hv h => ?_
    rcases hu with rfl | rfl <;> rcases hv with rfl | rfl
    · exact i.acyclic _ h
    · exact hsg h.to_reflTransGen
    · exact hgs h.to_reflTransGen
    · exact i.acyclic _ h
  have hiff (a b : Nat) := @edge_or_movedEdges r a b s g i (hsg <| .single ·) (hgs <| .single ·)
  have hne : s ≠ g := fun h => hsg (h ▸ .refl)
  have hmem (e : Nat × Nat) (h : e ∈ r.movedEdges s g) : Identified r.Edge s g e.1 e.2 :=
    hiff e.1 e.2 |>.mp <| .inr h
  have ⟨i', ad⟩ := @insertEdges_spec _ (Identified r.Edge s g) (r.movedEdges s g) (f.inv i hg)
    (fun a b h => hiff a b |>.mp <| .inl <| f.edge a b |>.mp h)
    (fun e h => by
      simp only [f.live_iff]
      rcases mem_movedEdges i |>.mp h with ⟨h, he⟩ | ⟨h, he⟩
      · exact ⟨⟨h ▸ hs, h ▸ hne⟩, (i.live _ _ he).2, fun h => i.not_edge_self g (h ▸ he)⟩
      · exact ⟨⟨(i.live _ _ he).1, fun h => i.not_edge_self g (h ▸ he)⟩, h ▸ hs, h ▸ hne⟩)
    (fun e h => by
      refine ⟨hmem e h, fun hc => hQ ?_⟩
      have hm := hmem e h
      rcases mem_movedEdges i |>.mp h with ⟨h', _⟩ | ⟨h', _⟩ <;> rw [h'] at hm hc
      · exact .head' hm hc
      · exact .tail' hc hm)
  rw [mergeInto_eq]
  refine ⟨i', fun x y => ?_, ?_, ?_⟩
  · rw [ad.edge, f.edge, hiff]
  · rw [ad.freeNodes, f.freeNodes]
  · rw [ad.length, f.nodes]

end Merge

-- There is a path from `a` to `b` besides the edge.
def HasDetour (r : Rep) (a b : Nat) : Prop :=
  ∃ c, r.Edge a c ∧ TransGen r.Edge c b

structure Restored (r r' : Rep) : Prop where
  inv       : Inv r'
  edge      : ∀ x y, r'.Edge x y ↔ r.Edge x y
  freeNodes : r'.freeNodes = r.freeNodes
  length    : r'.nodes.length = r.nodes.length

structure Contracted (r r' : Rep) (s g : Nat) : Prop where
  inv       : Inv r'
  edge      : ∀ x y, r'.Edge x y ↔ x ≠ y ∧ Identified r.Edge s g x y
  freeNodes : r'.freeNodes = g :: r.freeNodes
  length    : r'.nodes.length = r.nodes.length

-- All possible results of `contractEdge`.
inductive ContractEdgeResult (r : Rep) (a b : Nat) : Option (Option Nat × Rep) → Prop
  | detour : HasDetour r a b → Restored r r' → ContractEdgeResult r a b (some (none, r'))
  | first  : ¬HasDetour r a b → Contracted r r' a b → ContractEdgeResult r a b (some (some a, r'))
  | second : ¬HasDetour r a b → Contracted r r' b a → ContractEdgeResult r a b (some (some b, r'))

theorem ContractEdgeResult.inv (h : ContractEdgeResult r a b (some (result, r'))) : Inv r' := by
  cases h
  case detour _ h => exact h.inv
  case first _ h  => exact h.inv
  case second _ h => exact h.inv

section ContractEdge

theorem edge_of_contractEdge (h : r.contractEdge a b = some result) : r.Edge a b := by
  by_contra hn
  have hh : ¬r.hasEdge a b = true := mt OrderedSet.contains_iff.mp hn
  simp [contractEdge, hh] at h

theorem edge_of_canContractEdge (h : r.canContractEdge a b = some result) : r.Edge a b := by
  by_contra hn
  have hh : ¬r.hasEdge a b = true := mt OrderedSet.contains_iff.mp hn
  simp [canContractEdge, hh] at h

-- Identifying the nodes of a graph turns the edge between them into a self loop.
theorem identified_insert {E E' : Nat → Nat → Prop} (h : ∀ x y, E' x y ↔ E x y ∧ ¬(x = a ∧ y = b))
    (hab : E a b) (hsg : (s = a ∧ g = b) ∨ (s = b ∧ g = a)) (hE : ∀ n, ¬Identified E' s g n n) :
    Identified E' s g x y ↔ x ≠ y ∧ Identified E s g x y := by
  constructor
  · intro hi
    have ⟨x', y', he, hx, hy⟩ := hi
    refine ⟨?_, x', y', (h _ _ |>.mp he).1, hx, hy⟩
    rintro rfl
    exact hE _ hi
  · intro ⟨hne, x', y', he, hx, hy⟩
    refine ⟨x', y', h _ _ |>.mpr ⟨he, ?_⟩, hx, hy⟩
    rintro ⟨rfl, rfl⟩
    have : identify s g x' = identify s g y' := by
      rcases hsg with ⟨rfl, rfl⟩ | ⟨rfl, rfl⟩ <;> simp [identify]
    exact hne <| hx.symm.trans (this.trans hy)

variable (i : Inv r) (he : r.Edge a b)

include i he

theorem Merged.contracted {r₁ r₂ : Rep} (hs : SameGraph (r.removeEdge a b) r₁)
    (m : Merged r₁ r₂ s g) (hsg : (s = a ∧ g = b) ∨ (s = b ∧ g = a)) : Contracted r r₂ s g where
  inv       := m.inv
  edge x y  := by
    have hE : r₁.Edge = (r.removeEdge a b).Edge := hs.unchanged.edge_eq
    rw [m.edge, hE]
    refine identified_insert (fun x y => ?_) he hsg fun n h => ?_
    · exact mem_outs_removeEdge (i.length ▸ (i.live a b he).1.lt)
    · exact m.inv.not_edge_self n <| m.edge n n |>.mpr (hE ▸ h)
  freeNodes := m.freeNodes.trans <| by rw [hs.freeNodes]; rfl
  length    := m.length.trans hs.length

theorem contractEdge_result : ContractEdgeResult r a b (r.contractEdge a b) := by
  have ⟨ha, hb⟩ := i.live a b he
  have hh : r.hasEdge a b = true := OrderedSet.contains_iff.mpr he
  have i₁ := i.removeEdge ha hb
  have h := isReachableNonConst_result i₁ ⟨ha.lt, ha.not_free⟩ ⟨hb.lt, hb.not_free⟩
  simp only [contractEdge, hh, not_true_eq_false, ↓reduceIte]
  rcases hr : (r.removeEdge a b).isReachableNonConst a b with ⟨reachable, r₁⟩
  rw [hr] at h
  have hiff : reachable = true ↔ HasDetour r a b := h.iff_path.trans (i.path_removeEdge he)
  cases reachable
  case true =>
    have ⟨h₁, h₂, h₃, h₄⟩ := insertEdge_removeEdge i he h.inv h.same
    exact .detour (hiff.mp rfl) ⟨h₁, h₂, h₃, h₄⟩
  case false =>
    have hn : ¬HasDetour r a b := fun h => by simpa using hiff.mpr h
    have hE : r₁.Edge = (r.removeEdge a b).Edge := h.same.unchanged.edge_eq
    have hab : ¬ReflTransGen r₁.Edge a b := fun hp => by
      simpa using h.iff_path.mpr (hE ▸ hp)
    have hba : ¬ReflTransGen r₁.Edge b a := by
      intro hp
      have hsub (x y : Nat) (h : r₁.Edge x y) : r.Edge x y :=
        (mem_outs_removeEdge (i.length ▸ ha.lt) |>.mp (hE ▸ h)).1
      exact i.acyclic a <| .head' he (hp.imp hsub)
    have ha₁ : r₁.Live a := h.same.unchanged.live_iff.mpr ⟨ha.lt, ha.not_free⟩
    have hb₁ : r₁.Live b := h.same.unchanged.live_iff.mpr ⟨hb.lt, hb.not_free⟩
    simp only
    split
    case isTrue =>
      exact .second hn <| mergeInto_spec h.inv hb₁ ha₁ hba hab
        |>.contracted i he h.same (.inr ⟨rfl, rfl⟩)
    case isFalse =>
      exact .first hn <| mergeInto_spec h.inv ha₁ hb₁ hab hba
        |>.contracted i he h.same (.inl ⟨rfl, rfl⟩)

theorem canContractEdge_result : ∃ can r', r.canContractEdge a b = some (can, r') ∧
    (can = false ↔ HasDetour r a b) ∧ Restored r r' := by
  have ⟨ha, hb⟩ := i.live a b he
  have hh : r.hasEdge a b = true := OrderedSet.contains_iff.mpr he
  have i₁ := i.removeEdge ha hb
  have h := isReachableNonConst_result i₁ ⟨ha.lt, ha.not_free⟩ ⟨hb.lt, hb.not_free⟩
  have ⟨h₁, h₂, h₃, h₄⟩ := insertEdge_removeEdge i he h.inv h.same
  simp only [canContractEdge, hh, not_true_eq_false, ↓reduceIte, Option.some.injEq, Prod.mk.injEq]
  refine ⟨_, _, ⟨rfl, rfl⟩, ?_, h₁, h₂, h₃, h₄⟩
  rw [Bool.not_eq_false', h.iff_path]
  exact i.path_removeEdge he

end ContractEdge

end GraphCycles.Rep
