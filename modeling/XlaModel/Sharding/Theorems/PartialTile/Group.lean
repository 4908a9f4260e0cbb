import XlaModel.Lib.BlockView
import XlaModel.Lib.PermutedView
import XlaModel.Sharding.Subgroup
import XlaModel.Sharding.Theorems.Transpose.IotaTileAssignment

namespace Sharding.GroupMinorIotaDimsSorted

open View

-- Either all dimensions are grouped, or the last one of the grouped dimensions is split.
inductive IsGrouping (dims perm : List Nat) (groupSize groupedDims : Nat) : Grouped → Prop
  | all : (perm.map (dims.getD · 0)).prod ∣ groupSize →
    IsGrouping dims perm groupSize groupedDims ⟨groupedDims + perm.length, none⟩
  | split {ps qs : List Nat} {d p q : Nat} : perm = qs ++ d :: ps → groupSize = q * (qs.map (dims.getD · 0)).prod → dims.getD d 0 = p * q → d ∉ qs →
    IsGrouping dims perm groupSize groupedDims ⟨groupedDims + (qs.length + 1), some (d, p)⟩

variable {dims perm ps qs : List Nat} {groupSize groupedDims d p q splitI : Nat} {grouped : Grouped}

theorem group_spec (hg : 0 < groupSize) (h₀ : ∀ d ∈ perm, 0 < dims.getD d 0) (hn : perm.Nodup)
    (h : group dims perm groupSize groupedDims = some grouped) : IsGrouping dims perm groupSize groupedDims grouped := by
  induction perm generalizing groupSize groupedDims
  case nil =>
    obtain rfl := Option.some.inj h
    exact .all (Nat.one_dvd _)
  case cons d perm hi =>
    have hd := h₀ d (.head _)
    rw [group] at h
    split_ifs at h with hle hm hm
    case neg =>
      obtain ⟨q, rfl⟩ := Nat.dvd_of_mod_eq_zero (not_not.mp hm)
      rw [Nat.mul_div_cancel_left q hd] at h
      have hi := hi (Nat.pos_of_mul_pos_left hg) (fun e he => h₀ e (.tail _ he)) hn.tail h
      cases hi
      case all hp =>
        rw [Nat.add_assoc, Nat.add_comm 1]
        exact .all (by simpa using Nat.mul_dvd_mul_left _ hp)
      case split ps qs e p' q' hp hq he hne =>
        subst hp
        rw [Nat.add_assoc, Nat.add_comm 1]
        have hp : d :: (qs ++ e :: ps) = (d :: qs) ++ e :: ps := rfl
        refine .split hp ?prod he ?block
        case prod =>
          rw [hq, List.map_cons, List.prod_cons]
          exact Nat.mul_left_comm ..
        case block => grind
    case neg =>
      obtain rfl := Option.some.inj h
      have hp : d :: perm = [] ++ d :: perm := rfl
      have hd := Nat.div_mul_cancel (Nat.dvd_of_mod_eq_zero (not_not.mp hm))
      exact .split hp (by simp) hd.symm List.not_mem_nil

theorem splitPerm_append (hd : d ∉ ps) :
    splitPerm d (ps ++ d :: qs) = ps.map (shift d) ++ d :: (d + 1) :: qs.map (shift d) := by
  induction ps
  case nil => simp [splitPerm, shift]
  case cons e ps hi =>
    have he : e ≠ d := fun he => hd (he ▸ .head _)
    rw [List.cons_append, splitPerm, if_neg he, hi fun hd' => hd (.tail _ hd')]
    rfl

section Blocks

variable {xs ys : List Nat}

-- Only the dimension that is split has two parts.
def splitBlocks (xs : List Nat) (p q : Nat) (ys : List Nat) : List (List Nat) :=
  xs.map ([·]) ++ [p, q] :: ys.map ([·])

theorem flatten_splitBlocks : (splitBlocks xs p q ys).flatten = xs ++ p :: q :: ys := by
  have hs (xs : List Nat) : (xs.map ([·])).flatten = xs := by
    induction xs <;> simp_all
  simp [splitBlocks, hs]

theorem map_prod_splitBlocks : (splitBlocks xs p q ys).map List.prod = xs ++ p * q :: ys := by
  simp [splitBlocks, Function.comp_def]

theorem length_splitBlocks : (splitBlocks xs p q ys).length = (xs ++ p * q :: ys).length := by
  rw [← map_prod_splitBlocks, List.length_map]

theorem splitDims_append (hp : 0 < p) : splitDims (xs ++ p * q :: ys) xs.length p = xs ++ p :: q :: ys := by
  simp [splitDims, Nat.mul_div_cancel_left q hp]

theorem block_split : block (splitBlocks xs p q ys) xs.length = [xs.length, xs.length + 1] := by
  have hf : first (splitBlocks xs p q ys) xs.length = xs.length := by
    simp [first, splitBlocks, List.take_left', List.length_flatten, Function.comp_def]
  rw [block, hf]
  simp [splitBlocks, List.range'_succ]

theorem block_of_ne (hd : d < (splitBlocks xs p q ys).length) (hne : d ≠ xs.length) :
    block (splitBlocks xs p q ys) d = [shift xs.length d] := by
  obtain hlt | hgt := Nat.lt_or_gt_of_ne hne
  case inl =>
    have hf : first (splitBlocks xs p q ys) d = d := by
      rw [first, splitBlocks, List.take_append_of_le_length (by simpa using hlt.le)]
      simp [List.length_flatten, Function.comp_def, hlt.le]
    rw [block, hf, shift, if_pos hlt.le]
    simp [splitBlocks, List.getElem?_append_left, hlt]
  case inr =>
    obtain ⟨e, rfl⟩ := Nat.exists_eq_add_of_lt hgt
    have he : e < ys.length := by
      rw [length_splitBlocks, List.length_append, List.length_cons] at hd
      omega
    have hf : first (splitBlocks xs p q ys) (xs.length + e + 1) = xs.length + e + 1 + 1 := by
      rw [first, splitBlocks, Nat.add_assoc, List.take_append, List.take_of_length_le (by simp)]
      simp [List.length_flatten, Function.comp_def, he.le]
      omega
    rw [block, hf, shift, if_neg (by omega)]
    simp [splitBlocks, Nat.add_assoc, he]

theorem flatMap_block (h : ∀ e ∈ perm, e < (splitBlocks xs p q ys).length) (hne : xs.length ∉ perm) :
    perm.flatMap (block (splitBlocks xs p q ys)) = perm.map (shift xs.length) := by
  induction perm
  case nil => rfl
  case cons e perm hi =>
    have he := block_of_ne (h e (.head _)) fun he => hne (he ▸ .head _)
    rw [List.flatMap_cons, he, hi (fun e he => h e (.tail _ he)) fun he => hne (.tail _ he)]
    rfl

theorem sortEnd_append (h : qs.length = n) : sortEnd n (ps ++ qs) = ps ++ qs.insertionSort (· ≤ ·) := by
  have hl : (ps ++ qs).length - n = ps.length := by
    rw [List.length_append, h, Nat.add_sub_cancel]
  rw [sortEnd, hl, List.take_left, List.drop_left]

-- The dimensions that are not grouped and the major part of the dimension that is split.
def major (splitI : Nat) (ps : List Nat) : List Nat :=
  ps.map (shift splitI) ++ [splitI]

def minor (splitI : Nat) (qs : List Nat) : List Nat :=
  (splitI + 1) :: qs.map (shift splitI)

theorem sortEnd_splitPerm (hd : d ∉ ps) :
    sortEnd (qs.length + 1) (splitPerm d (ps ++ d :: qs)) = major d ps ++ (minor d qs).insertionSort (· ≤ ·) := by
  have hl : (minor d qs).length = qs.length + 1 := by simp [minor]
  have ha : splitPerm d (ps ++ d :: qs) = major d ps ++ minor d qs := by
    rw [splitPerm_append hd, major, minor, List.append_assoc]
    rfl
  rw [ha, sortEnd_append hl]

section Split

variable (hp : (ps ++ xs.length :: qs).Perm (List.range (xs ++ p * q :: ys).length))
include hp

theorem nodup_split : (ps ++ xs.length :: qs).Nodup :=
  hp.nodup_iff.mpr List.nodup_range

theorem lt_of_mem_split (hd : d ∈ ps ++ xs.length :: qs) : d < (xs ++ p * q :: ys).length :=
  List.mem_range.mp (hp.mem_iff.mp hd)

theorem flatMap_split :
    (ps ++ xs.length :: qs).flatMap (block (splitBlocks xs p q ys)) = major xs.length ps ++ minor xs.length qs := by
  have hn := nodup_split hp
  have hlt (e) (he : e ∈ ps ++ xs.length :: qs) := length_splitBlocks ▸ lt_of_mem_split hp he
  rw [List.flatMap_append, List.flatMap_cons, flatMap_block (fun e he => hlt e (by simp [he])) (by grind),
    flatMap_block (fun e he => hlt e (by simp [he])) (by grind), block_split, major, minor]
  simp

theorem split_perm : (major xs.length ps ++ minor xs.length qs).Perm (List.range (xs ++ p :: q :: ys).length) := by
  rw [← flatMap_split hp, ← flatten_splitBlocks]
  exact flatMap_block_perm (length_splitBlocks ▸ hp)

theorem split_same :
    Same (permuted (xs ++ p :: q :: ys) (major xs.length ps ++ minor xs.length qs))
      (permuted (xs ++ p * q :: ys) (ps ++ xs.length :: qs)) := by
  rw [← flatMap_split hp, ← flatten_splitBlocks, ← map_prod_splitBlocks]
  exact same_blocks fun e he => length_splitBlocks ▸ lt_of_mem_split hp he

theorem numElements_minor : numElements (permuted (xs ++ p :: q :: ys) (minor xs.length qs)) =
    q * (qs.map ((xs ++ p * q :: ys).getD · 0)).prod := by
  have hn := nodup_split hp
  have hlt (e) (he : e ∈ qs) : e < (xs ++ p * q :: ys).length := lt_of_mem_split hp (by simp [he])
  have hq : (axis (xs ++ p :: q :: ys) (xs.length + 1)).size = q := by
    simp [axis]
  have hs : Same (permuted (xs ++ p :: q :: ys) (qs.map (shift xs.length))) (permuted (xs ++ p * q :: ys) qs) := by
    rw [← flatMap_block (fun e he => length_splitBlocks ▸ hlt e he) (by grind), ← flatten_splitBlocks,
      ← map_prod_splitBlocks]
    exact same_blocks fun e he => length_splitBlocks ▸ hlt e he
  have hm : (permuted (xs ++ p * q :: ys) qs).map Axis.size = qs.map ((xs ++ p * q :: ys).getD · 0) := by
    rw [permuted, List.map_map]
    refine List.map_congr_left fun e he => ?_
    have := hlt e he
    rw [Function.comp_apply, axis, List.getD_eq_getElem _ _ this, List.getD_eq_getElem _ _ this]
  have hc : permuted (xs ++ p :: q :: ys) (minor xs.length qs) =
      axis (xs ++ p :: q :: ys) (xs.length + 1) :: permuted (xs ++ p :: q :: ys) (qs.map (shift xs.length)) := rfl
  rw [hc, numElements_cons, hq, hs.numElements, numElements, hm]

theorem sorted_perm : (major xs.length ps ++ (minor xs.length qs).insertionSort (· ≤ ·)).Perm
    (List.range (xs ++ p :: q :: ys).length) :=
  ((List.perm_insertionSort ..).append_left _).trans (split_perm hp)

-- Sorting the minor dimensions sorts the groups of the flat array.
theorem sorted_groupsSorted (h₀ : ∀ s ∈ xs ++ p :: q :: ys, 0 < s) :
    List.GroupsSorted (q * (qs.map ((xs ++ p * q :: ys).getD · 0)).prod)
      (offsets (permuted (xs ++ p * q :: ys) (ps ++ xs.length :: qs)))
      (offsets (permuted (xs ++ p :: q :: ys) (major xs.length ps ++ (minor xs.length qs).insertionSort (· ≤ ·)))) := by
  have hp' := sorted_perm hp
  have hn := (List.nodup_append.mp (hp'.nodup_iff.mpr List.nodup_range)).2.1
  have hs := List.pairwise_insertionSort (· ≤ ·) (minor xs.length qs)
  have ho : Ordered (permuted (xs ++ p :: q :: ys) ((minor xs.length qs).insertionSort (· ≤ ·))) := by
    apply ordered_permuted h₀ ((hs.and hn).imp fun h => lt_of_le_of_ne h.1 h.2)
    exact fun e he => List.mem_range.mp (hp'.mem_iff.mp (List.mem_append_right _ he))
  have hm := (List.perm_insertionSort (· ≤ ·) (minor xs.length qs)).map (axis (xs ++ p :: q :: ys))
  have hg := groupsSorted_offsets (v := permuted (xs ++ p :: q :: ys) (major xs.length ps)) hm ho
  rw [← offsets_congr (split_same hp), ← numElements_minor hp, permuted_append, permuted_append]
  exact hg

end Split

end Blocks

end Sharding.GroupMinorIotaDimsSorted

namespace Sharding

open View GroupMinorIotaDimsSorted

variable {dims perm dims' perm' : List Nat} {groupSize : Nat}

-- The array is described with sorted groups.
structure SortsGroups (dims perm : List Nat) (groupSize : Nat) (dims' perm' : List Nat) : Prop where
  pos    : ∀ d ∈ dims', 0 < d
  isPerm : perm'.Perm (List.range dims'.length)
  prod   : dims'.prod = dims.prod
  sorted : List.GroupsSorted groupSize (offsets (permuted dims perm)) (offsets (permuted dims' perm'))

theorem groupMinorIotaDimsSorted_spec (hp : perm.Perm (List.range dims.length)) (h₀ : ∀ d ∈ dims, 0 < d)
    (hg : 0 < groupSize) (hlt : groupSize < dims.prod)
    (h : groupMinorIotaDimsSorted dims perm groupSize = some (dims', perm')) :
    SortsGroups dims perm groupSize dims' perm' := by
  have hr : perm.reverse.Perm (List.range dims.length) := (List.reverse_perm perm).trans hp
  have hpos (d) (hd : d ∈ perm.reverse) : 0 < dims.getD d 0 := by
    have hd := List.mem_range.mp (hr.mem_iff.mp hd)
    rw [List.getD_eq_getElem _ _ hd]
    exact h₀ _ (List.getElem_mem hd)
  rw [groupMinorIotaDimsSorted] at h
  obtain ⟨grouped, hgr, h⟩ := Option.bind_eq_some_iff.mp h
  have hs := group_spec hg hpos (hr.nodup_iff.mpr List.nodup_range) hgr
  cases hs
  case all hd =>
    rw [IotaTileAssignment.prod_map_getD hr] at hd
    exact absurd (Nat.le_of_dvd hg hd) (Nat.not_le.mpr hlt)
  case split ps qs d p q hrev hgs hd hne =>
    have hperm : perm = ps.reverse ++ d :: qs.reverse := by
      simpa using congrArg List.reverse hrev
    have hdl : d < dims.length := List.mem_range.mp (hr.mem_iff.mp (hrev ▸ by simp))
    have hdims : dims = dims.take d ++ p * q :: dims.drop (d + 1) := by
      rw [← hd, List.getD_eq_getElem _ _ hdl, ← List.drop_eq_getElem_cons hdl, List.take_append_drop]
    have hl : (dims.take d).length = d := List.length_take_of_le hdl.le
    have hpq : 0 < p * q := hd ▸ hpos d (hrev ▸ by simp)
    generalize dims.take d = xs at hdims hl
    generalize dims.drop (d + 1) = ys at hdims
    subst hdims hl hperm
    have hn := nodup_split hp
    have h : some (splitDims (xs ++ p * q :: ys) xs.length p,
      sortEnd (0 + (qs.length + 1)) (splitPerm xs.length (ps.reverse ++ xs.length :: qs.reverse))) = some (dims', perm') := h
    rw [splitDims_append (Nat.pos_of_mul_pos_right hpq), Nat.zero_add, ← List.length_reverse,
      sortEnd_splitPerm (by grind)] at h
    obtain ⟨rfl, rfl⟩ := Prod.mk.inj (Option.some.inj h)
    have h₀' : ∀ s ∈ xs ++ p :: q :: ys, 0 < s := by
      simp only [List.mem_append, List.mem_cons] at h₀ ⊢
      rintro s (hs | rfl | rfl | hs)
      case inl              => exact h₀ s (.inl hs)
      case inr.inl          => exact Nat.pos_of_mul_pos_right hpq
      case inr.inr.inl      => exact Nat.pos_of_mul_pos_left hpq
      case inr.inr.inr      => exact h₀ s (.inr (.inr hs))
    refine ⟨h₀', sorted_perm hp, by simp [Nat.mul_assoc], ?_⟩
    have hq : (qs.map ((xs ++ p * q :: ys).getD · 0)).prod = (qs.reverse.map ((xs ++ p * q :: ys).getD · 0)).prod := by
      rw [List.map_reverse, List.prod_reverse]
    rw [hgs, hq]
    exact sorted_groupsSorted hp h₀'

end Sharding
