import XlaModel.GraphCycles.Theorems.Invariant

namespace GraphCycles.Rep

open Relation

variable {r : Rep}

-- The first part of `insertEdge`.
def addEdge (r : Rep) (x y : Nat) : Rep :=
  r.modifyOuts x (·.insert y |>.2) |>.modifyIns y (·.insert x |>.2)

section AddEdge

@[simp] theorem rank_addEdge : (r.addEdge x y).rank = r.rank := rfl
@[simp] theorem visited_addEdge : (r.addEdge x y).visited = r.visited := rfl
@[simp] theorem nodes_addEdge : (r.addEdge x y).nodes = r.nodes := rfl
@[simp] theorem freeNodes_addEdge : (r.addEdge x y).freeNodes = r.freeNodes := rfl

theorem mem_outs_addEdge (hx : x < r.nodeIo.length) :
    b ∈ (r.addEdge x y).outs a ↔ b ∈ r.outs a ∨ (a = x ∧ b = y) := by
  simp only [addEdge, outs_modifyIns, outs_modifyOuts hx]
  split <;> simp_all

theorem mem_ins_addEdge (hy : y < r.nodeIo.length) :
    a ∈ (r.addEdge x y).ins b ↔ a ∈ r.ins b ∨ (a = x ∧ b = y) := by
  simp only [addEdge, ins_modifyOuts, ins_modifyIns (r := r.modifyOuts ..) (by simpa using hy)]
  split <;> simp_all

theorem Valid.addEdge (v : Valid r) (hx : r.Live x) (hy : r.Live y) : Valid (r.addEdge x y) where
  length    := by simpa [Rep.addEdge] using v.length
  ranks     := v.ranks
  mirrored  := by
    intro a b
    rw [mem_outs_addEdge (v.length ▸ hx.lt), mem_ins_addEdge (v.length ▸ hy.lt), v.mirrored]
  live      := by
    intro a b h
    rcases mem_outs_addEdge (v.length ▸ hx.lt) |>.mp h with h | ⟨rfl, rfl⟩
    · have ⟨ha, hb⟩ := v.live a b h
      exact ⟨⟨ha.lt, ha.not_free⟩, ⟨hb.lt, hb.not_free⟩⟩
    · exact ⟨⟨hx.lt, hx.not_free⟩, ⟨hy.lt, hy.not_free⟩⟩
  free_lt   := v.free_lt
  free      := v.free
  unvisited := v.unvisited

end AddEdge

-- The graph has the additional edge from `x` to `y`.
structure EdgeAdded (r r' : Rep) (x y : Nat) : Prop where
  edge      : ∀ a b, r'.Edge a b ↔ r.Edge a b ∨ (a = x ∧ b = y)
  freeNodes : r'.freeNodes = r.freeNodes
  length    : r'.nodes.length = r.nodes.length

-- What the two searches of `insertEdge` find out about the affected nodes.
structure Searched (r : Rep) (x y : Nat) (deltab deltaf : List Nat) : Prop where
  nodup          : (deltab ++ deltaf).Nodup
  lt_length      : ∀ n ∈ deltab ++ deltaf, n < r.nodes.length
  source         : x ∈ deltab
  target         : y ∈ deltaf
  rank_le        : ∀ n ∈ deltab ++ deltaf, r.rank n ≤ r.rank x
  le_rank        : ∀ n ∈ deltab ++ deltaf, r.rank y ≤ r.rank n
  forward_closed : ∀ a ∈ deltaf, ∀ b, r.Edge a b → r.rank b ≤ r.rank x → b ∈ deltaf
  back_closed    : ∀ b ∈ deltab, ∀ a, r.Edge a b → r.rank y ≤ r.rank a → a ∈ deltab ++ deltaf

namespace Searched

variable {r' : Rep} {deltab deltaf : List Nat}

-- The reassigned ranks stay between the ranks of the end points of the new edge.
theorem reordered_rank_mem (o : Reordered r r' deltab deltaf) (h : n ∈ deltab ++ deltaf) :
    ∃ m ∈ deltab ++ deltaf, r'.rank n = r.rank m := by
  have h := o.perm.mem_iff.mp <| List.mem_map_of_mem h
  have ⟨m, hm, he⟩ := List.mem_map.mp h
  exact ⟨m, hm, he.symm⟩

theorem rank_lt_of_edge (s : Searched r x y deltab deltaf) (o : Reordered r r' deltab deltaf)
    (he : r.Edge a b) (hr : r.rank a < r.rank b) : r'.rank a < r'.rank b := by
  by_cases haf : a ∈ deltaf
  case pos =>
    by_cases hb : r.rank b ≤ r.rank x
    case pos => exact o.forward_lt haf (s.forward_closed a haf b he hb) hr
    case neg =>
      have hb' : b ∉ deltab ++ deltaf := fun h => hb (s.rank_le b h)
      have ⟨m, hm, hm'⟩ := reordered_rank_mem o <| List.mem_append_right deltab haf
      have := s.rank_le m hm
      rw [o.rank_frame hb', hm']
      omega
  case neg =>
    by_cases hb : b ∈ deltab ++ deltaf
    case neg =>
      rw [o.rank_frame hb]
      by_cases hab : a ∈ deltab
      case pos => exact (o.back_le hab).trans_lt hr
      case neg => rwa [o.rank_frame (by simp [hab, haf])]
    case pos =>
      by_cases hab : a ∈ deltab <;> rcases List.mem_append.mp hb with hbb | hbf
      · exact o.back_lt_back hab hbb hr
      · exact o.back_lt_forward hab hbf
      -- The backward search has left out `a`, so its rank is below all affected ranks.
      · have ha : a ∉ deltab ++ deltaf := by simp [hab, haf]
        have ⟨m, hm, hm'⟩ := reordered_rank_mem o hb
        have := s.le_rank m hm
        have : r.rank a < r.rank y := by
          by_contra hc
          exact ha <| s.back_closed b hbb a he (by omega)
        rw [o.rank_frame ha, hm']
        omega
      · rw [o.rank_frame (by simp [hab, haf])]
        exact hr.trans_le (o.le_forward hbf)

theorem sameGraph (s : Searched r x y deltab deltaf) (h : SameGraph r r') :
    Searched r' x y deltab deltaf where
  nodup          := s.nodup
  lt_length      := h.length ▸ s.lt_length
  source         := s.source
  target         := s.target
  rank_le        := by simpa only [h.rank] using s.rank_le
  le_rank        := by simpa only [h.rank] using s.le_rank
  forward_closed := by simpa only [h.rank, Edge, h.outs] using s.forward_closed
  back_closed    := by simpa only [h.rank, Edge, h.outs] using s.back_closed

end Searched

theorem Valid.lt_of_path (v : Valid r) (hy : y < r.nodes.length) (h : ReflTransGen r.Edge y n) :
    n < r.nodes.length := by
  cases h
  case refl     => exact hy
  case tail _ h => exact v.live _ _ h |>.2.lt

theorem Valid.lt_of_path' (v : Valid r) (hx : x < r.nodes.length) (h : ReflTransGen r.Edge n x) :
    n < r.nodes.length := by
  rcases h.cases_head with rfl | ⟨m, h, -⟩
  · exact hx
  · exact v.live _ _ h |>.1.lt

section Search

variable {x y : Nat} {deltab deltaf : List Nat} {marks marks' : Nat → Bool}
variable (i : Inv r) (hx : r.Live x) (hy : r.Live y) (hr : r.rank y < r.rank x)

include i hx

theorem edge_addEdge : ∀ a b, (r.addEdge x y).Edge a b → r.Edge a b ∨ (a = x ∧ b = y) :=
  fun _ _ => mem_outs_addEdge (i.length ▸ hx.lt) |>.mp

-- The nodes that are found by the forward search.
theorem forward_path {ok : Nat → Bool}
    (h : Dfs.Reach ok (fun n => ((r.addEdge x y).outs n).valueSequence) y n) :
    ReflTransGen r.Edge y n :=
  path_of_reach h |>.of_insert_source (edge_addEdge i hx)

include hy

theorem back_path {ok : Nat → Bool}
    (h : Dfs.Reach ok (fun n => ((r.addEdge x y).ins n).valueSequence) x n) :
    ReflTransGen r.Edge n x :=
  path_of_reach_ins (i.toValid.addEdge hx hy).mirrored h |>.of_insert_target (edge_addEdge i hx)

include hr

variable
  (cf : Dfs.Complete (r.rank · = r.rank x) (r.rank · < r.rank x)
    (fun n => ((r.addEdge x y).outs n).valueSequence) (fun _ => false) y marks deltaf)

include cf

theorem searched
    (cb : Dfs.Complete (fun _ => false) (r.rank y < r.rank ·)
      (fun n => ((r.addEdge x y).ins n).valueSequence) marks x marks' deltab) :
    Searched (r.addEdge x y) x y deltab deltaf := by
  have hmf {n : Nat} : marks n = true ↔ n ∈ deltaf := by simpa using cf.marks_iff n
  have hf {n : Nat} (h : n ∈ deltaf) : r.rank n < r.rank x := by
    simpa using ok_of_reach (cf.reach n h) (by simpa using hr)
  have hb {n : Nat} (h : n ∈ deltab) : r.rank y < r.rank n := by
    simpa using ok_of_reach (cb.reach n h) (by simpa using hr)
  have hy' : y ∈ deltaf := hmf.mp cf.root
  constructor
  case nodup =>
    refine List.nodup_append.mpr ⟨cb.nodup, cf.nodup, fun a ha b hb hab => ?_⟩
    have := cb.unmarked a ha
    simp [hmf.mpr (hab ▸ hb)] at this
  case lt_length =>
    intro n h
    rcases List.mem_append.mp h with h | h
    · exact i.lt_of_path' hx.lt <| back_path i hx hy (cb.reach n h)
    · exact i.lt_of_path hy.lt <| forward_path i hx (cf.reach n h)
  case source =>
    rcases cb.marks_iff x |>.mp cb.root with h | h
    · exact absurd (hf <| hmf.mp h) (lt_irrefl _)
    · exact h
  case target => exact hy'
  case rank_le =>
    intro n h
    rcases List.mem_append.mp h with h | h
    · exact i.rank_le_of_path <| back_path i hx hy (cb.reach n h)
    · exact (hf h).le
  case le_rank =>
    intro n h
    rcases List.mem_append.mp h with h | h
    · exact (hb h).le
    · exact i.rank_le_of_path <| forward_path i hx (cf.reach n h)
  case forward_closed =>
    intro a ha b he hle
    have hne : r.rank b ≠ r.rank x := by simpa using cf.no_stop a ha b he
    exact hmf.mp <| cf.closed a ha b he (by simpa using lt_of_le_of_ne hle hne)
  case back_closed =>
    intro b hb a he hle
    have he' := (i.toValid.addEdge hx hy).mirrored a b |>.mp he
    rcases hle.eq_or_lt with hle | hle
    · have ha := (i.toValid.addEdge hx hy).live a b he |>.1.lt
      have : y = a := i.rank_inj hy.lt ha hle
      simp [←this, hy']
    · rcases cb.marks_iff a |>.mp (cb.closed b hb a he' (by simpa using hle)) with h | h
      · simp [hmf.mp h]
      · simp [h]

end Search

-- The nodes that are not affected keep their ranks and the others exchange their ranks.
theorem Reordered.ranks_perm {r' : Rep} {deltab deltaf : List Nat}
    (o : Reordered r r' deltab deltaf) (s : Searched r x y deltab deltaf) :
    (r'.nodes.map Node.rank).Perm (r.nodes.map Node.rank) := by
  have hp : (List.range r.nodes.length).Perm
      ((deltab ++ deltaf) ++ (List.range r.nodes.length).filter (· ∉ deltab ++ deltaf)) := by
    rw [List.perm_ext_iff_of_nodup List.nodup_range]
    · intro n
      by_cases h : n ∈ deltab ++ deltaf
      case pos => exact iff_of_true (List.mem_range.mpr <| s.lt_length n h) (List.mem_append_left _ h)
      case neg => simp_all
    · refine List.nodup_append.mpr ⟨s.nodup, List.nodup_range.filter _, ?_⟩
      rintro a ha b hb rfl
      simp_all
  rw [←map_rank_range, ←map_rank_range, o.length]
  refine (hp.map _).trans (List.Perm.trans ?_ (hp.map _).symm)
  rw [List.map_append, List.map_append (f := r.rank)]
  refine o.perm.append (.of_eq <| List.map_congr_left fun n h => o.rank_frame ?_)
  simpa using (List.mem_filter.mp h).2

theorem Reordered.valid {q r' : Rep} {deltab deltaf : List Nat} (v : Valid q) (h : SameGraph q r)
    (o : Reordered r r' deltab deltaf) (s : Searched r x y deltab deltaf)
    (hv : ∀ n, r'.visited n = false) : Valid r' := by
  have hn : r'.nodeIo = q.nodeIo := o.nodeIo.trans h.nodeIo
  have hf : r'.freeNodes = q.freeNodes := o.freeNodes.trans h.freeNodes
  have hl : r'.nodes.length = q.nodes.length := o.length.trans h.length
  have ho : r'.outs = q.outs := by funext n; simp [outs, io, hn]
  have hi : r'.ins = q.ins := by funext n; simp [ins, io, hn]
  constructor
  case length   => rw [hn, hl, v.length]
  case ranks    =>
    refine o.ranks_perm s |>.trans ?_
    rw [←map_rank_range, h.rank_eq, h.length, map_rank_range, hl]
    exact v.ranks
  case mirrored => simpa only [ho, hi] using v.mirrored
  case live     =>
    intro x y h
    obtain ⟨hx, hy⟩ := v.live x y (by simpa only [Edge, ho] using h)
    exact ⟨⟨hl ▸ hx.lt, hf ▸ hx.not_free⟩, ⟨hl ▸ hy.lt, hf ▸ hy.not_free⟩⟩
  case free_lt   => simpa only [hf, hl] using v.free_lt
  case free      => simpa only [hf] using v.free
  case unvisited => exact forall_visited.mpr hv

-- All possible results of `insertEdge`.
inductive InsertEdgeResult (r : Rep) (x y : Nat) : Bool × Rep → Prop
  | cycle : x = y ∨ ReflTransGen r.Edge y x → Inv r' → Unchanged r r' →
      InsertEdgeResult r x y (false, r')
  | added : x ≠ y → ¬ReflTransGen r.Edge y x → Inv r' → EdgeAdded r r' x y →
      InsertEdgeResult r x y (true, r')

theorem InsertEdgeResult.inv {result : Bool × Rep} (h : InsertEdgeResult r x y result) :
    Inv result.2 := by
  cases h
  case cycle _ i _   => exact i
  case added _ _ i _ => exact i

section InsertEdge

variable {x y : Nat}

theorem insertEdge_eq (hne : x ≠ y) (he : ¬r.Edge x y) (hr : r.rank y < r.rank x) :
    r.insertEdge x y =
    match (r.addEdge x y).forwardDFS y (r.rank x) with
    | (false, r, deltaf) => (false, r.removeEdge x y |>.clearVisitedBits deltaf)
    | (true,  r, deltaf) =>
      (true, (r.backwardDFS x (r.rank y)).1.reorder (r.backwardDFS x (r.rank y)).2 deltaf) := by
  have hi : ((r.outs x).insert y).1 = true := OrderedSet.insert_fst.mpr he
  have hr' : ¬r.rank x ≤ r.rank y := by omega
  simp only [insertEdge, hne, hi, ↓reduceIte, reduceCtorEq, rank_modifyIns, rank_modifyOuts, hr']
  rfl

variable (i : Inv r) (hx : r.Live x) (hy : r.Live y)

include i hx hy

theorem addEdge_result (he : ¬r.Edge x y) (hr : r.rank x < r.rank y) :
    InsertEdgeResult r x y (true, r.addEdge x y) := by
  refine .added (fun h => ?_) (fun h => ?_) ⟨i.toValid.addEdge hx hy, ?_⟩ ⟨?_, rfl, rfl⟩
  · simp [h] at hr
  · exact hr.not_ge (i.rank_le_of_path h)
  · intro a b h
    rcases edge_addEdge i hx a b h with h | ⟨rfl, rfl⟩
    · exact i.rank_lt a b h
    · exact hr
  · exact fun _ _ => mem_outs_addEdge (i.length ▸ hx.lt)

-- The search has found `x`, the insertion is undone.
theorem insertEdge_cycle (he : ¬r.Edge x y) {r' : Rep} (hs : SameGraph (r.addEdge x y) r')
    (ha : Dfs.Aborted (r.rank · = r.rank x) (r.rank · < r.rank x)
      (fun n => ((r.addEdge x y).outs n).valueSequence) (fun _ => false) y r'.visited deltaf) :
    InsertEdgeResult r x y (false, r'.removeEdge x y |>.clearVisitedBits deltaf) := by
  have hc := @clearVisitedBits_sameGraph (r'.removeEdge x y) deltaf
  have hl : r'.nodeIo.length = r.nodeIo.length := by simp [hs.nodeIo, addEdge]
  have hx' : x < r.nodeIo.length := i.length ▸ hx.lt
  have hy' : y < r.nodeIo.length := i.length ▸ hy.lt
  have hu : Unchanged r (r'.removeEdge x y |>.clearVisitedBits deltaf) := by
    refine ⟨fun a b => ?_, fun n => ?_, ?_, ?_⟩
    · rw [Edge, hc.outs, mem_outs_removeEdge (hl ▸ hx'), hs.outs, mem_outs_addEdge hx']
      grind [Edge]
    · exact hc.rank n |>.trans (hs.rank n)
    · exact hc.freeNodes.trans hs.freeNodes
    · exact hc.length.trans hs.length
  refine .cycle ?_ (i.unchanged hu ?_ ?_ ?_) hu
  · obtain ⟨m, hm, w, hw, hr⟩ := ha.found
    have hp := (path_of_reach hm).tail hw
    have : w = x := i.rank_inj (i.toValid.addEdge hx hy |>.live m w hw |>.2.lt) hx.lt (by simpa using hr)
    exact .inr <| this ▸ hp |>.of_insert_source (edge_addEdge i hx)
  · rw [hc.nodeIo]
    simp [Rep.removeEdge, hl]
  · intro a b
    rw [hc.ins, mem_ins_removeEdge (hl ▸ hy'), hs.ins, mem_ins_addEdge hy', ←i.mirrored a b]
    grind [Edge]
  · intro n
    rw [visited_clearVisitedBits]
    have := ha.marks_iff n
    simp only [removeEdge, visited_modifyIns, visited_modifyOuts]
    grind

-- The searches have shown that there is no cycle, the ranks are adapted to the new edge.
theorem insertEdge_reorder (hr : r.rank y < r.rank x) {r₁ r₂ : Rep}
    (hs₁ : SameGraph (r.addEdge x y) r₁) (hs₂ : SameGraph r₁ r₂)
    (cf : Dfs.Complete (r.rank · = r.rank x) (r.rank · < r.rank x)
      (fun n => ((r.addEdge x y).outs n).valueSequence) (fun _ => false) y r₁.visited deltaf)
    (cb : Dfs.Complete (fun _ => false) (r.rank y < r.rank ·)
      (fun n => ((r.addEdge x y).ins n).valueSequence) r₁.visited x r₂.visited deltab) :
    InsertEdgeResult r x y (true, r₂.reorder deltab deltaf) := by
  have v := i.toValid.addEdge hx hy
  have hs := hs₁.trans hs₂
  have s := searched i hx hy hr cf cb |>.sameGraph hs
  have hn : ((deltab ++ deltaf).map r₂.rank).Nodup := by
    refine List.Nodup.map_on (fun a ha b hb h => ?_) s.nodup
    have ha := s.lt_length a ha
    have hb := s.lt_length b hb
    simp only [hs.rank, hs.length] at ha hb h
    exact i.rank_inj ha hb h
  have o := reorder_spec s.lt_length hn
  have he (a b : Nat) : (r₂.reorder deltab deltaf).Edge a b ↔ r.Edge a b ∨ (a = x ∧ b = y) := by
    rw [Edge, outs, io, o.nodeIo, hs.nodeIo]
    exact mem_outs_addEdge (i.length ▸ hx.lt)
  have hv (n : Nat) : (r₂.reorder deltab deltaf).visited n = false := by
    have h₁ := cf.marks_iff n
    have h₂ := cb.marks_iff n
    rw [o.visited]
    grind
  have hsub (a b : Nat) (h : r.Edge a b) : b ∈ (r.addEdge x y).outs a :=
    mem_outs_addEdge (i.length ▸ hx.lt) |>.mpr (.inl h)
  refine .added (fun h => ?_) (i.no_path_of_complete hsub hr cf)
    ⟨o.valid v hs s hv, fun a b h => ?_⟩ ⟨he, ?_, ?_⟩
  · simp [h] at hr
  · rcases he a b |>.mp h with h | ⟨rfl, rfl⟩
    · have he' : r₂.Edge a b := by
        rw [Edge, hs.outs]
        exact hsub a b h
      refine s.rank_lt_of_edge o he' ?_
      simpa only [hs.rank, rank_addEdge] using i.rank_lt a b h
    · exact o.back_lt_forward s.source s.target
  · exact o.freeNodes.trans hs.freeNodes
  · exact o.length.trans hs.length

theorem insertEdge_result : InsertEdgeResult r x y (r.insertEdge x y) := by
  by_cases hne : x = y
  case pos =>
    simp only [insertEdge, hne, ↓reduceIte]
    exact .cycle (.inl rfl) i ⟨by simp, by simp, rfl, rfl⟩
  case neg =>
    by_cases he : r.Edge x y
    case pos =>
      have hi : r.insertEdge x y = (true, r) := by simp [insertEdge, hne, OrderedSet.insert_of_mem he]
      rw [hi]
      refine .added hne (fun h => i.acyclic x <| .head' he h) i ⟨?_, rfl, rfl⟩
      grind
    case neg =>
      rcases lt_trichotomy (r.rank x) (r.rank y) with hr | hr | hr
      · have hi : ((r.outs x).insert y).1 = true := OrderedSet.insert_fst.mpr he
        have : r.insertEdge x y = (true, r.addEdge x y) := by
          simp [insertEdge, hne, hi, hr.le, addEdge]
        exact this ▸ addEdge_result i hx hy he hr
      · exact absurd (i.rank_inj hx.lt hy.lt hr) hne
      · have v := i.toValid.addEdge hx hy
        have hv : (r.addEdge x y).visited = fun _ => false := funext v.not_visited
        have ⟨hs, hf⟩ := @forwardDFS_result (r.addEdge x y) y (r.rank x) v.inRange hy.lt
        rw [insertEdge_eq hne he hr]
        rcases h : (r.addEdge x y).forwardDFS y (r.rank x) with ⟨found, r₁, deltaf⟩
        rw [h] at hs hf
        rw [hv] at hf
        cases found
        case false => exact insertEdge_cycle i hx hy he hs hf
        case true =>
          have ⟨hs', hb⟩ := @backwardDFS_result r₁ x (r.rank y) (v.inRange.sameGraph hs)
            (hs.length ▸ hx.lt)
          simp only [hs.rank, hs.ins] at hb
          simpa only [hs.rank, rank_addEdge] using insertEdge_reorder i hx hy hr hs hs' hf hb

end InsertEdge

end GraphCycles.Rep

namespace GraphCycles.Rep

open Relation

variable {r : Rep} {x y a b : Nat}

structure IsReachableResult (r : Rep) (x y : Nat) (result : Bool × Rep) : Prop where
  iff_path : result.1 = true ↔ ReflTransGen r.Edge x y
  same     : SameGraph r result.2
  inv      : Inv result.2

theorem isReachableNonConst_result (i : Inv r) (hx : r.Live x) (hy : r.Live y) :
    IsReachableResult r x y (r.isReachableNonConst x y) := by
  by_cases hne : x = y
  case pos =>
    simp only [isReachableNonConst, hne, ↓reduceIte]
    exact ⟨iff_of_true rfl .refl, .refl, i⟩
  case neg =>
    by_cases hr : r.rank x ≥ r.rank y
    case pos =>
      simp only [isReachableNonConst, hne, hr, ↓reduceIte]
      refine ⟨iff_of_false (by simp) fun h => ?_, .refl, i⟩
      exact hne <| i.rank_inj hx.lt hy.lt <| le_antisymm (i.rank_le_of_path h) hr
    case neg =>
      have hv : r.visited = fun _ => false := funext i.not_visited
      have ⟨hs, hf⟩ := @forwardDFS_result r x (r.rank y) i.inRange hx.lt
      simp only [isReachableNonConst, hne, hr, ↓reduceIte]
      rcases h : r.forwardDFS x (r.rank y) with ⟨found, r₁, deltaf⟩
      rw [h] at hs hf
      rw [hv] at hf
      have hm (n : Nat) : r₁.visited n = true ↔ n ∈ deltaf := by
        cases found
        case false => simpa using Dfs.Aborted.marks_iff hf n
        case true  => simpa using Dfs.Complete.marks_iff hf n
      have hs' := hs.trans <| clearVisitedBits_sameGraph deltaf
      refine ⟨?_, hs', i.sameGraph hs' fun n => ?_⟩
      · cases found
        case true => exact iff_of_false (by simp) <| i.no_path_of_complete (fun _ _ => id) (by omega) hf
        case false =>
          have ⟨m, hm, w, hw, hr⟩ := Dfs.Aborted.found hf
          have : w = y := i.rank_inj (i.live m w hw |>.2.lt) hy.lt (by simpa using hr)
          exact iff_of_true rfl <| (path_of_reach hm).tail (this ▸ hw)
      · rw [visited_clearVisitedBits]
        have := hm n
        grind

-- Without the edge from `a` to `b` there only is a path from `a` to `b`, if there was a path of
-- length at least two before.
theorem Inv.path_removeEdge (i : Inv r) (he : r.Edge a b) :
    ReflTransGen (r.removeEdge a b).Edge a b ↔ ∃ c, r.Edge a c ∧ TransGen r.Edge c b := by
  have ha : a < r.nodeIo.length := i.length ▸ (i.live a b he).1.lt
  have hE (x y : Nat) : (r.removeEdge a b).Edge x y ↔ r.Edge x y ∧ ¬(x = a ∧ y = b) :=
    mem_outs_removeEdge ha
  have hl := i.rank_lt a b he
  constructor
  · intro h
    rcases h.cases_head with rfl | ⟨c, hc, h⟩
    · omega
    · have ⟨hc, hn⟩ := hE a c |>.mp hc
      have h : ReflTransGen r.Edge c b := h.imp fun x y h => (hE x y |>.mp h).1
      rcases reflTransGen_iff_eq_or_transGen.mp h with rfl | h
      · simp at hn
      · exact ⟨c, hc, h⟩
  · intro ⟨c, hc, h⟩
    have hr := i.rank_lt a c hc
    have hn : c ≠ b := by
      rintro rfl
      exact i.acyclic c h
    have hp {d : Nat} (h : ReflTransGen r.Edge c d) : ReflTransGen (r.removeEdge a b).Edge c d := by
      induction h
      case refl => rfl
      case tail x y h hxy hi =>
        refine hi.tail <| hE x y |>.mpr ⟨hxy, fun ⟨h', _⟩ => ?_⟩
        have := i.rank_le_of_path h
        subst h'
        omega
    exact (hp h.to_reflTransGen).head <| hE a c |>.mpr ⟨hc, by simp [hn]⟩

-- Removing an edge and adding it again changes nothing.
theorem insertEdge_removeEdge {r' : Rep} (i : Inv r) (he : r.Edge a b) (i' : Inv r')
    (hs : SameGraph (r.removeEdge a b) r') :
    Inv (r'.insertEdge a b).2 ∧ (∀ x y, (r'.insertEdge a b).2.Edge x y ↔ r.Edge x y) ∧
    (r'.insertEdge a b).2.freeNodes = r.freeNodes ∧
    (r'.insertEdge a b).2.nodes.length = r.nodes.length := by
  have ⟨ha, hb⟩ := i.live a b he
  have hE (x y : Nat) : r'.Edge x y ↔ r.Edge x y ∧ ¬(x = a ∧ y = b) := by
    rw [Edge, hs.outs]
    exact mem_outs_removeEdge (i.length ▸ ha.lt)
  have ha' : r'.Live a := hs.unchanged.live_iff.mpr ⟨ha.lt, ha.not_free⟩
  have hb' : r'.Live b := hs.unchanged.live_iff.mpr ⟨hb.lt, hb.not_free⟩
  have hi := insertEdge_result i' ha' hb'
  generalize r'.insertEdge a b = result at hi
  cases hi
  case added r₂ _ _ hi ad =>
    refine ⟨hi, fun x y => ?_, ad.freeNodes.trans hs.freeNodes, ad.length.trans hs.length⟩
    rw [ad.edge, hE]
    grind
  case cycle hc _ _ =>
    exfalso
    have hl := i.rank_lt a b he
    rcases hc with rfl | h
    · omega
    · have := i.rank_le_of_path <| h.imp fun x y h => (hE x y |>.mp h).1
      omega

end GraphCycles.Rep
