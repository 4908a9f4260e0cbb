import XlaModel.Lib.Runs

-- Transposes of arrays that are given by their elements in row-major order.
namespace RowMajor

open View Runs

variable {α : Type} {sizes perm xs : List Nat} {data : List α} {d k : Nat}

-- The dimensions of the array whose transpose has the given dimensions.
def untransposed (dims perm : List Nat) : List Nat :=
  (inverse perm).map (dims.getD · 1)

-- The transposed array has the given dimensions. The element at its index `i` is that of the array at the index whose
-- entry `perm[d]` is `i[d]` for each `d`.
def transposeData (dims perm : List Nat) (data : List α) : List α :=
  (List.range dims.prod).filterMap fun k =>
    data[ravel (untransposed dims perm) ((inverse perm).map ((digits dims k).getD · 0))]?

theorem map_inverse_map (h : perm.Perm (List.range sizes.length)) (x : Nat → Nat) (y : Nat) :
    (inverse perm).map ((perm.map x).getD · y) = (List.range sizes.length).map x := by
  rw [← inverse_map_perm h, List.map_map]
  refine List.map_congr_left fun i hi => ?_
  have : i < perm.length := by
    rw [length_eq_of_perm h]
    exact List.mem_range.mp ((inverse_perm h).mem_iff.mp hi)
  simp [this]

theorem prod_map_getD (h : perm.Perm (List.range sizes.length)) : (perm.map (sizes.getD · 1)).prod = sizes.prod := by
  rw [(h.map _).prod_eq, map_getD_range]

theorem transposeData_eq (h : perm.Perm (List.range sizes.length)) : transposeData (perm.map (sizes.getD · 1)) perm data =
    (List.range (numElements (permuted sizes perm))).filterMap fun k => data[offset (permuted sizes perm) k]? := by
  rw [transposeData, numElements_permuted h, prod_map_getD h, untransposed, map_inverse_map h, map_getD_range]
  refine List.filterMap_congr fun k hk => ?_
  obtain ⟨x, hx⟩ := exists_digits h (List.mem_range.mp hk)
  rw [hx.offset h, hx.digits, map_inverse_map h]

theorem transposeData_eq_of_same {sizes' perm' : List Nat} (h : perm.Perm (List.range sizes.length))
    (h' : perm'.Perm (List.range sizes'.length)) (hs : Same (permuted sizes perm) (permuted sizes' perm')) :
    transposeData (perm.map (sizes.getD · 1)) perm data = transposeData (perm'.map (sizes'.getD · 1)) perm' data := by
  rw [transposeData_eq h, transposeData_eq h', hs.numElements]
  refine List.filterMap_congr fun k hk => ?_
  rw [hs.offset k (hs.numElements ▸ List.mem_range.mp hk)]

section Runs

-- The dimensions of each run are one dimension.
def mergeRun (sizes g : List Nat) : Nat :=
  (g.map (sizes.getD · 1)).prod

theorem map_mergeRun_sortedRuns : (runOrder perm).map (((sortedRuns perm).map (mergeRun sizes)).getD · 1) =
    (runs perm).map (mergeRun sizes) := by
  conv_rhs => rw [← map_getD_runOrder, List.map_map]
  refine List.map_congr_left fun i hi => ?_
  obtain ⟨g, hg, rfl⟩ := List.mem_map.mp hi
  have : (sortedRuns perm).idxOf g < (sortedRuns perm).length := List.idxOf_lt_length_of_mem (mem_sortedRuns.mpr hg)
  simp [this]

theorem same_runs (h : perm.Perm (List.range sizes.length)) :
    Same (permuted ((sortedRuns perm).map (mergeRun sizes)) (runOrder perm)) (permuted sizes perm) := by
  let groups := (sortedRuns perm).map (permuted sizes)
  have hn : groups.map numElements = (sortedRuns perm).map (mergeRun sizes) := by
    simp [groups, numElements, permuted, mergeRun, axis, Function.comp_def]
  have hl : groups.length = (runs perm).length := by simp [groups, sortedRuns_perm.length_eq]
  have ho : (runOrder perm).Perm (List.range groups.length) :=
    hl ▸ runOrder_perm (h.nodup_iff.mpr List.nodup_range)
  have ho' : (runOrder perm).Perm (List.range ((sortedRuns perm).map (mergeRun sizes)).length) := by
    simpa [groups] using ho
  have hf : groups.flatten = permuted sizes (List.range sizes.length) := by
    rw [permuted, ← flatten_sortedRuns h, List.map_flatten]
    rfl
  have hg : (runOrder perm).map (groups.getD · []) = (runs perm).map (permuted sizes) := by
    conv_rhs => rw [← map_getD_runOrder, List.map_map]
    refine List.map_congr_left fun i hi => ?_
    obtain ⟨g, hg, rfl⟩ := List.mem_map.mp hi
    have : (sortedRuns perm).idxOf g < (sortedRuns perm).length := List.idxOf_lt_length_of_mem (mem_sortedRuns.mpr hg)
    simp [groups, this]
  have hp : ((runs perm).map (permuted sizes)).flatten = permuted sizes perm := by
    conv_rhs => rw [permuted, ← @flatten_runs perm, List.map_flatten]
    rfl
  have he : ((sortedRuns perm).map (mergeRun sizes)).prod = sizes.prod := by
    rw [← numElements_permuted (.refl (List.range sizes.length)), ← hf, ← hn]
    simp only [numElements, List.map_flatten, List.prod_flatten, List.map_map]
    rfl
  refine ⟨by rw [numElements_permuted ho', numElements_permuted h, he], fun k hk => ?_⟩
  rw [numElements_permuted ho'] at hk
  have hm := offset_flatten_permuted ho (hn ▸ hk)
  rw [hg, hp, hn, hf, offset_rowMajor (he ▸ offset_permuted_lt ho' hk)] at hm
  exact hm

theorem transposeData_runs (h : perm.Perm (List.range sizes.length)) :
    transposeData ((runs perm).map (mergeRun sizes)) (runOrder perm) data =
      transposeData (perm.map (sizes.getD · 1)) perm data := by
  have ho : (runOrder perm).Perm (List.range ((sortedRuns perm).map (mergeRun sizes)).length) := by
    rw [List.length_map, sortedRuns_perm.length_eq]
    exact runOrder_perm (h.nodup_iff.mpr List.nodup_range)
  rw [← map_mergeRun_sortedRuns]
  exact transposeData_eq_of_same ho h (same_runs h)

end Runs

section Ones

-- The number of the dimension among those that are not one.
def renumber (sizes : List Nat) (d : Nat) : Nat :=
  d - (sizes.take d).count 1

theorem length_filter_ne_one : (sizes.filter (· ≠ 1)).length = sizes.length - sizes.count 1 := by
  induction sizes
  case nil => rfl
  case cons s sizes hi =>
    have := List.count_le_length (a := 1) (l := sizes)
    by_cases hs : s = 1
    case pos => simp_all
    case neg => simp_all; omega

theorem axis_renumber (hd : d < sizes.length) (hs : sizes.getD d 1 ≠ 1) :
    axis (sizes.filter (· ≠ 1)) (renumber sizes d) = axis sizes d := by
  obtain ⟨xs, s, ys, rfl, rfl⟩ : ∃ xs s ys, sizes = xs ++ s :: ys ∧ d = xs.length :=
    ⟨sizes.take d, sizes[d], sizes.drop (d + 1), by simp, by simp [hd.le]⟩
  have hs : s ≠ 1 := by simpa using hs
  have hr : renumber (xs ++ s :: ys) xs.length = (xs.filter (· ≠ 1)).length := by
    rw [renumber, List.take_left, length_filter_ne_one]
  have hprod : (ys.filter (· ≠ 1)).prod = ys.prod := by
    rw [← List.prod_filter_bne_one ys]
    exact congrArg List.prod <| List.filter_congr fun y _ => by by_cases hy : y = 1 <;> simp [hy]
  rw [hr, List.filter_append, List.filter_cons_of_pos (by simpa using hs), axis_append, axis_append, hprod]

theorem map_renumber_range : ((List.range sizes.length).filter (sizes.getD · 1 ≠ 1)).map (renumber sizes) =
    List.range (sizes.filter (· ≠ 1)).length := by
  induction sizes using List.reverseRecOn
  case nil => rfl
  case append_singleton sizes s hi =>
    have hl : (List.range sizes.length).filter ((sizes ++ [s]).getD · 1 ≠ 1) =
        (List.range sizes.length).filter (sizes.getD · 1 ≠ 1) :=
      List.filter_congr fun d hd => by simp [List.getElem?_append_left (List.mem_range.mp hd)]
    have hm : ((List.range sizes.length).filter (sizes.getD · 1 ≠ 1)).map (renumber (sizes ++ [s])) =
        List.range (sizes.filter (· ≠ 1)).length := by
      rw [← hi]
      refine List.map_congr_left fun d hd => ?_
      have hd := List.mem_range.mp (List.mem_of_mem_filter hd)
      rw [renumber, renumber, List.take_append_of_le_length hd.le]
    rw [List.length_append, List.length_singleton, List.range_succ, List.filter_append, List.map_append, hl, hm,
      List.filter_append, List.length_append]
    by_cases hs : s = 1
    case pos => simp [hs]
    case neg =>
      have := @length_filter_ne_one sizes
      simp [hs, renumber, List.range_succ, ← this]

variable (h : perm.Perm (List.range sizes.length))
include h

-- The permutation of the dimensions that are not one.
def renumbered (sizes perm : List Nat) : List Nat :=
  (perm.filter (sizes.getD · 1 ≠ 1)).map (renumber sizes)

theorem renumbered_perm : (renumbered sizes perm).Perm (List.range (sizes.filter (· ≠ 1)).length) := by
  rw [← map_renumber_range]
  exact (h.filter _).map _

theorem permuted_renumbered :
    permuted (sizes.filter (· ≠ 1)) (renumbered sizes perm) = (permuted sizes perm).filter (·.size ≠ 1) := by
  rw [permuted, permuted, renumbered, List.map_map, List.filter_map]
  refine List.map_congr_left fun d hd => ?_
  obtain ⟨hd, hs⟩ := List.mem_filter.mp hd
  exact axis_renumber (List.mem_range.mp (h.mem_iff.mp hd)) (by simpa using hs)

theorem map_getD_renumbered :
    (renumbered sizes perm).map ((sizes.filter (· ≠ 1)).getD · 1) = (perm.map (sizes.getD · 1)).filter (· ≠ 1) := by
  have := congrArg (List.map Axis.size) (permuted_renumbered h)
  rw [permuted, permuted, List.filter_map, List.map_map, List.map_map] at this
  rw [List.filter_map]
  exact this

theorem transposeData_renumbered :
    transposeData ((renumbered sizes perm).map ((sizes.filter (· ≠ 1)).getD · 1)) (renumbered sizes perm) data =
      transposeData (perm.map (sizes.getD · 1)) perm data := by
  refine transposeData_eq_of_same (renumbered_perm h) h ?_
  rw [permuted_renumbered h]
  exact same_filter _

end Ones

end RowMajor
