import XlaModel.GraphCycles.Theorems.Dfs
import XlaModel.Lib.List

namespace GraphCycles.Rep

section Merge

open scoped List

theorem merge.head_perm {tail : List Nat → List Nat} (h : ∀ ys, (tail ys).Perm (xs ++ ys)) :
    (head x tail ys).Perm (x :: xs ++ ys) := by
  induction ys <;> simp only [head]
  case nil => simpa using h []
  case cons y ys hi =>
    split
    case isTrue =>
      calc
        y :: head x tail ys ~ y :: (x :: xs ++ ys) := hi.cons y
        _                   ~ x :: xs ++ y :: ys   := List.perm_middle.symm
    case isFalse => exact (h _).cons x

theorem merge_perm (xs ys : List Nat) : (merge xs ys).Perm (xs ++ ys) := by
  induction xs generalizing ys
  case nil        => rfl
  case cons x xs hi => exact merge.head_perm hi

theorem merge.head_sorted {tail : List Nat → List Nat} (hp : ∀ ys, (tail ys).Perm (xs ++ ys))
    (ht : ∀ ys, ys.Pairwise (· ≤ ·) → (tail ys).Pairwise (· ≤ ·))
    (hx : ∀ z ∈ xs, x ≤ z) (hs : ys.Pairwise (· ≤ ·)) : (head x tail ys).Pairwise (· ≤ ·) := by
  induction ys <;> simp only [head]
  case nil =>
    refine List.pairwise_cons.mpr ⟨fun z hz => hx z ?_, ht _ .nil⟩
    simpa using (hp []).mem_iff.mp hz
  case cons y ys hi =>
    have ⟨hy, hs'⟩ := List.pairwise_cons.mp hs
    split
    case isTrue h =>
      refine List.pairwise_cons.mpr ⟨fun z hz => ?_, hi hs'⟩
      have hz := (merge.head_perm hp).mem_iff.mp hz
      simp only [List.cons_append, List.mem_cons, List.mem_append] at hz
      rcases hz with rfl | hz | hz
      · exact le_of_lt h
      · exact le_of_lt h |>.trans (hx z hz)
      · exact hy z hz
    case isFalse h =>
      refine List.pairwise_cons.mpr ⟨fun z hz => ?_, ht _ hs⟩
      have hz := (hp _).mem_iff.mp hz
      simp only [List.mem_append, List.mem_cons] at hz
      rcases hz with hz | rfl | hz
      · exact hx z hz
      · omega
      · have := hy z hz
        omega

theorem merge_sorted (hx : xs.Pairwise (· ≤ ·)) (hy : ys.Pairwise (· ≤ ·)) :
    (merge xs ys).Pairwise (· ≤ ·) := by
  induction xs generalizing ys
  case nil => exact hy
  case cons x xs hi =>
    have ⟨hx, hx'⟩ := List.pairwise_cons.mp hx
    exact merge.head_sorted (merge_perm xs) (fun _ h => hi hx' h) hx hy

end Merge

variable {r : Rep}

theorem visited_setVisited_false :
    (r.setVisited n false).visited m = if m = n then false else r.visited m := by
  by_cases h : n < r.nodes.length
  case pos => exact visited_setVisited h
  case neg =>
    have hn : (r.setVisited n false).visited m = r.visited m := by
      simp only [visited, node, setVisited]
      rw [List.getD_modify_of_le (by omega)]
    split
    case isTrue hm => rw [hn, hm, visited_of_le (by omega)]
    case isFalse   => exact hn

theorem clearVisitedBits_sameGraph (l : List Nat) : SameGraph r (r.clearVisitedBits l) := by
  induction l generalizing r
  case nil         => exact .refl
  case cons n l hi => exact SameGraph.setVisited.trans hi

theorem visited_clearVisitedBits (l : List Nat) :
    (r.clearVisitedBits l).visited m = if m ∈ l then false else r.visited m := by
  induction l generalizing r
  case nil => simp [clearVisitedBits]
  case cons n l hi =>
    rw [clearVisitedBits, List.foldl_cons, ←clearVisitedBits, hi, visited_setVisited_false]
    by_cases h₁ : m = n <;> by_cases h₂ : m ∈ l <;> simp [h₁, h₂]

theorem moveToList_eq (src dst : List Nat) :
    r.moveToList src dst = (r.clearVisitedBits src, src.map r.rank, dst ++ src) := by
  induction src generalizing r dst
  case nil => simp [moveToList, clearVisitedBits]
  case cons w src hi => simp [moveToList, hi, clearVisitedBits]

section AssignRanks

variable {list merged : List Nat}

-- Everything except for the ranks of the nodes in `list` is left unchanged.
structure AssignRanksFrame (r₁ r₂ : Rep) (list : List Nat) : Prop where
  nodeIo    : r₂.nodeIo = r₁.nodeIo
  freeNodes : r₂.freeNodes = r₁.freeNodes
  length    : r₂.nodes.length = r₁.nodes.length
  visited   : ∀ n, r₂.visited n = r₁.visited n
  rank      : ∀ n, n ∉ list → r₂.rank n = r₁.rank n

theorem assignRanks_frame (hl : ∀ n ∈ list, n < r.nodes.length) :
    AssignRanksFrame r (r.assignRanks list merged) list := by
  induction list generalizing r merged
  case nil => constructor <;> simp [assignRanks]
  case cons n list hi =>
    cases merged
    case nil => constructor <;> simp [assignRanks]
    case cons k merged =>
      have f := @hi (r.setRank n k) merged (by simp_all)
      have hn := hl n (by simp)
      simp only [assignRanks]
      refine ⟨f.nodeIo, f.freeNodes, by simpa using f.length, by simpa using f.visited, ?_⟩
      intro m hm
      simp only [List.mem_cons, not_or] at hm
      simpa [rank_setRank hn, hm.1] using f.rank m hm.2

theorem assignRanks_map_rank (hl : ∀ n ∈ list, n < r.nodes.length) (hn : list.Nodup)
    (he : list.length = merged.length) : list.map (r.assignRanks list merged).rank = merged := by
  induction list generalizing r merged
  case nil => simpa [eq_comm] using he
  case cons n list hi =>
    cases merged
    case nil => simp at he
    case cons k merged =>
      have ⟨hn, hn'⟩ := List.nodup_cons.mp hn
      have hl' : ∀ m ∈ list, m < (r.setRank n k).nodes.length := by simp_all
      have hk := (@assignRanks_frame _ list merged hl').rank n hn
      rw [rank_setRank (hl n (by simp)), if_pos rfl] at hk
      simp only [assignRanks, List.map_cons, hk, hi hl' hn' (by simpa using he)]

end AssignRanks

section Sorting

theorem sort_perm (l : List Nat) : (r.sort l).Perm l :=
  List.perm_insertionSort ..

theorem mem_sort : n ∈ r.sort l ↔ n ∈ l :=
  (sort_perm l).mem_iff

theorem sort_sorted (l : List Nat) : ((r.sort l).map r.rank).Pairwise (· ≤ ·) := by
  rw [List.pairwise_map]
  have : IsTrans Nat (fun a b => r.rank a ≤ r.rank b) := ⟨fun _ _ _ => le_trans⟩
  have : Std.Total (fun a b => r.rank a ≤ r.rank b) := ⟨fun _ _ => le_total ..⟩
  exact List.pairwise_insertionSort _ l

end Sorting

-- The specification of `reorder`: the nodes of `deltab` move down, the nodes of `deltaf` move up,
-- all nodes of `deltab` end up below all nodes of `deltaf` and each of the lists keeps its order.
structure Reordered (r r' : Rep) (deltab deltaf : List Nat) : Prop where
  nodeIo          : r'.nodeIo = r.nodeIo
  freeNodes       : r'.freeNodes = r.freeNodes
  length          : r'.nodes.length = r.nodes.length
  visited         : r'.visited n = if n ∈ deltab ++ deltaf then false else r.visited n
  rank_frame      : n ∉ deltab ++ deltaf → r'.rank n = r.rank n
  perm            : ((deltab ++ deltaf).map r'.rank).Perm ((deltab ++ deltaf).map r.rank)
  back_le         : n ∈ deltab → r'.rank n ≤ r.rank n
  le_forward      : n ∈ deltaf → r.rank n ≤ r'.rank n
  back_lt_back    : a ∈ deltab → b ∈ deltab → r.rank a < r.rank b → r'.rank a < r'.rank b
  forward_lt      : a ∈ deltaf → b ∈ deltaf → r.rank a < r.rank b → r'.rank a < r'.rank b
  back_lt_forward : a ∈ deltab → b ∈ deltaf → r'.rank a < r'.rank b

section Reorder

-- A list that is sorted by both ranks is ordered the same way by both of them.
theorem rank_lt_of_pairwise {r' : Rep} {l : List Nat} (h₁ : (l.map r.rank).Pairwise (· ≤ ·))
    (h₂ : (l.map r'.rank).Pairwise (· < ·)) (ha : a ∈ l) (hb : b ∈ l) (h : r.rank a < r.rank b) :
    r'.rank a < r'.rank b := by
  rw [List.pairwise_map] at h₁ h₂
  let R a b := (r.rank a < r.rank b → r'.rank a < r'.rank b) ∧
    (r.rank b < r.rank a → r'.rank b < r'.rank a)
  have hR : l.Pairwise R := by
    refine (h₁.and h₂).imp fun ⟨h₁, h₂⟩ => ⟨fun _ => h₂, fun h => ?_⟩
    omega
  have : Std.Symm R := ⟨fun _ _ h => h.symm⟩
  exact (List.Pairwise.forall_of_forall (fun _ _ => ⟨by simp, by simp⟩) hR ha hb).1 h

variable {deltab deltaf : List Nat}

-- The ranks that are reassigned, in the order in which they are reassigned.
def mergedRanks (r : Rep) (deltab deltaf : List Nat) : List Nat :=
  merge ((r.sort deltab).map r.rank) ((r.sort deltaf).map r.rank)

theorem mergedRanks_perm :
    (r.mergedRanks deltab deltaf).Perm ((r.sort deltab ++ r.sort deltaf).map r.rank) := by
  rw [List.map_append]
  exact merge_perm ..

theorem mergedRanks_sorted (hn : ((deltab ++ deltaf).map r.rank).Nodup) :
    (r.mergedRanks deltab deltaf).Pairwise (· < ·) := by
  have hs : (r.mergedRanks deltab deltaf).Pairwise (· ≤ ·) :=
    merge_sorted (sort_sorted _) (sort_sorted _)
  have hp : (r.mergedRanks deltab deltaf).Nodup :=
    (mergedRanks_perm.trans <| ((sort_perm _).append (sort_perm _)).map _).nodup_iff.mpr hn
  exact (hs.and hp).imp fun ⟨h₁, h₂⟩ => lt_of_le_of_ne h₁ h₂

theorem sublist_mergedRanks (hn : ((deltab ++ deltaf).map r.rank).Nodup)
    (h : (r.sort l).Sublist (r.sort deltab ++ r.sort deltaf)) :
    ((r.sort l).map r.rank).Sublist (r.mergedRanks deltab deltaf) := by
  have hs := (h.map r.rank).subperm.trans mergedRanks_perm.symm.subperm
  exact List.sublist_of_subperm_of_pairwise hs (sort_sorted _)
    ((mergedRanks_sorted hn).imp le_of_lt)

theorem reorder_eq (r : Rep) (deltab deltaf : List Nat) :
    r.reorder deltab deltaf =
    (r.clearVisitedBits (r.sort deltab ++ r.sort deltaf)).assignRanks
      (r.sort deltab ++ r.sort deltaf) (r.mergedRanks deltab deltaf) := by
  have hr := (@clearVisitedBits_sameGraph r (r.sort deltab)).rank_eq
  simp only [reorder, moveToList_eq, hr, List.nil_append, mergedRanks]
  simp only [clearVisitedBits, List.foldl_append]

theorem reorder_map_rank (hl : ∀ n ∈ deltab ++ deltaf, n < r.nodes.length)
    (hn : (deltab ++ deltaf).Nodup) :
    (r.sort deltab ++ r.sort deltaf).map (r.reorder deltab deltaf).rank =
    r.mergedRanks deltab deltaf := by
  rw [reorder_eq]
  have hp := (sort_perm (r := r) deltab).append (sort_perm (r := r) deltaf)
  apply assignRanks_map_rank
  · intro n h
    rw [(clearVisitedBits_sameGraph _).length]
    exact hl n <| hp.mem_iff.mp h
  · exact hp.nodup_iff.mpr hn
  · simpa using (@mergedRanks_perm r deltab deltaf).length_eq.symm

variable (hl : ∀ n ∈ deltab ++ deltaf, n < r.nodes.length)
variable (hn : ((deltab ++ deltaf).map r.rank).Nodup)

include hl hn

theorem reorder_rank_lt :
    ((r.sort deltab ++ r.sort deltaf).map (r.reorder deltab deltaf).rank).Pairwise (· < ·) := by
  rw [reorder_map_rank hl hn.of_map]
  exact mergedRanks_sorted hn

theorem reorder_back_le (h : n ∈ deltab) : (r.reorder deltab deltaf).rank n ≤ r.rank n := by
  have hm := reorder_map_rank hl hn.of_map
  have hs := sublist_mergedRanks hn <| List.sublist_append_left (r.sort deltab) (r.sort deltaf)
  have ⟨i, hi⟩ := List.mem_iff_getElem?.mp <| (mem_sort (r := r)).mpr h
  have hr : ((r.sort deltab).map r.rank)[i]? = some (r.rank n) := by simp [hi]
  refine hs.getElem?_le (mergedRanks_sorted hn) hr ?_
  rw [←hm, List.map_append, List.getElem?_append_left, List.getElem?_map, hi, Option.map_some]
  simpa using (List.getElem?_eq_some_iff.mp hi).1

theorem reorder_le_forward (h : n ∈ deltaf) : r.rank n ≤ (r.reorder deltab deltaf).rank n := by
  have hm := reorder_map_rank hl hn.of_map
  have hs := sublist_mergedRanks hn <| List.sublist_append_right (r.sort deltab) (r.sort deltaf)
  have ⟨i, hi⟩ := List.mem_iff_getElem?.mp <| (mem_sort (r := r)).mpr h
  have hr : ((r.sort deltaf).map r.rank)[i]? = some (r.rank n) := by simp [hi]
  refine hs.le_getElem? (mergedRanks_sorted hn) hr ?_
  rw [←hm, List.map_append, List.getElem?_append_right (by simp)]
  simp [hi]

theorem reorder_spec : Reordered r (r.reorder deltab deltaf) deltab deltaf := by
  have hp := (sort_perm (r := r) deltab).append (sort_perm (r := r) deltaf)
  have hlt := reorder_rank_lt hl hn
  rw [List.map_append, List.pairwise_append] at hlt
  have c := @clearVisitedBits_sameGraph r (r.sort deltab ++ r.sort deltaf)
  have hl' : ∀ n ∈ r.sort deltab ++ r.sort deltaf,
      n < (r.clearVisitedBits (r.sort deltab ++ r.sort deltaf)).nodes.length := by
    intro n h
    rw [c.length]
    exact hl n <| hp.mem_iff.mp h
  have f := @assignRanks_frame _ _ (r.mergedRanks deltab deltaf) hl'
  rw [←reorder_eq] at f
  constructor
  case nodeIo          => exact f.nodeIo.trans c.nodeIo
  case freeNodes       => exact f.freeNodes.trans c.freeNodes
  case length          => exact f.length.trans c.length
  case visited         => simp [f.visited, visited_clearVisitedBits, mem_sort]
  case rank_frame      => exact fun h => f.rank _ (mt hp.mem_iff.mp h) |>.trans (c.rank _)
  case perm            =>
    refine (hp.map _).symm.trans ?_
    rw [reorder_map_rank hl hn.of_map]
    exact mergedRanks_perm.trans (hp.map _)
  case back_le         => exact reorder_back_le hl hn
  case le_forward      => exact reorder_le_forward hl hn
  case back_lt_back    =>
    exact fun ha hb => rank_lt_of_pairwise (sort_sorted _) hlt.1 (mem_sort.mpr ha) (mem_sort.mpr hb)
  case forward_lt      =>
    exact fun ha hb => rank_lt_of_pairwise (sort_sorted _) hlt.2.1 (mem_sort.mpr ha) (mem_sort.mpr hb)
  case back_lt_forward =>
    intro a b ha hb
    exact hlt.2.2 _ (List.mem_map_of_mem <| mem_sort.mpr ha) _ (List.mem_map_of_mem <| mem_sort.mpr hb)

end Reorder

end GraphCycles.Rep
