import XlaModel.Lib.TransposedData
import XlaModel.Shape.Dimensions
import XlaModel.Shape.Theorems.AlignLayouts.Degenerate
import XlaModel.Shape.Theorems.DecomposeBitcast

namespace Shape

open Fallible GetNormalizedLogicalTransposeShape RowMajor Runs View

variable {τ : Type} {s input output : Shape τ} {byteWidth : τ → Nat} {dimensions dims segs xs : List Nat}
  {i n x y : Nat}

section Degenerate

-- The number of degenerate dimensions before a dimension.
def degenerateBefore (s : Shape τ) (d : Nat) : Nat :=
  (List.range d).countP (s.dimension · = 1)

theorem degenerateBefore_succ : s.degenerateBefore (n + 1) =
    if s.dimension n = 1 then s.degenerateBefore n + 1 else s.degenerateBefore n := by
  rw [degenerateBefore, List.range_succ, List.countP_append, List.countP_singleton, ← degenerateBefore]
  split_ifs <;> simp_all

theorem delta_loop {size : Nat} (h : n < size) :
    (List.range n).foldl
        (fun delta i => delta.set (i + 1) (if s.dimension i = 1 then delta.getD i 0 + 1 else delta.getD i 0))
        (List.replicate size 0) =
      (List.range size).map fun i => if i ≤ n then s.degenerateBefore i else 0 := by
  induction n
  case zero =>
    refine List.ext_getElem (by simp) fun i _ _ => ?_
    cases i <;> simp [degenerateBefore]
  case succ n hi =>
    have hn : n < size := Nat.lt_of_succ_lt h
    rw [List.range_succ, List.foldl_append, hi hn, List.foldl_cons, List.foldl_nil]
    refine List.ext_getElem (by simp) fun i h₁ _ => ?_
    by_cases hin : n + 1 = i
    case pos =>
      subst hin
      simp [hn, degenerateBefore_succ]
    case neg =>
      have : i ≤ n + 1 ↔ i ≤ n := by omega
      simp [hin, this]

theorem delta_getD (h : x ≤ output.rank) : (delta input output).getD x 0 = input.degenerateBefore x := by
  have := Nat.lt_succ_of_le h
  rw [delta, delta_loop (Nat.lt_succ_self _)]
  simp [this, h]

theorem degenerateBefore_eq (h : x ≤ s.rank) : s.degenerateBefore x = (s.dimensions.take x).count 1 := by
  have hm : s.dimensions.take x = (List.range x).map s.dimension := by
    refine List.ext_getElem (by simpa [rank] using h) fun i h₁ h₂ => ?_
    have h₁ : i < x ∧ i < s.dimensions.length := by simpa using h₁
    simp [dimension, h₁.2]
  rw [hm, List.count, List.countP_map, degenerateBefore]
  rfl

theorem newDimensions_eq (hp : dimensions.Perm (List.range input.rank))
    (hd : output.dimensions = dimensions.map input.dimension) :
    newDimensions input output dimensions = renumbered input.dimensions dimensions := by
  have hr : output.rank = input.rank := by
    rw [rank, hd, List.length_map]
    simpa using hp.length_eq
  have hm : newDimensions input output dimensions = ((List.range dimensions.length).map (dimensions.getD · 0)).filterMap
      fun d => if input.dimension d ≠ 1 then some (renumber input.dimensions d) else none := by
    rw [newDimensions, List.filterMap_map]
    refine List.filterMap_congr fun i hi => ?_
    have hi := List.mem_range.mp hi
    have hlt : dimensions[i] < input.rank := List.mem_range.mp (hp.mem_iff.mp (List.getElem_mem hi))
    have ho : output.dimension i = input.dimension dimensions[i] := by
      rw [dimension, hd]
      simp [hi]
    simp only [Function.comp_apply, List.getD_eq_getElem _ _ hi, delta_getD (hr ▸ hlt.le),
      degenerateBefore_eq hlt.le, ho, renumber]
  rw [hm, map_getD_range, renumbered]
  simp only [← List.filterMap_eq_map, ← List.filterMap_eq_filter, List.filterMap_filterMap]
  refine List.filterMap_congr fun d _ => ?_
  by_cases h : input.dimension d = 1 <;> simp_all [dimension, Option.guard]

end Degenerate

section Segments

theorem range'_one_succ : List.range' 1 (n + 1) = 1 :: (List.range' 1 n).map (· + 1) := by
  rw [List.range'_succ, List.range'_succ_left]

theorem consecutiveSegments_cons_cons : consecutiveSegments (x :: y :: xs) =
    if y = x + 1 then 0 :: (consecutiveSegments (y :: xs)).tail.map (· + 1)
    else 0 :: (consecutiveSegments (y :: xs)).map (· + 1) := by
  have hr : List.range' 1 ((x :: y :: xs).length - 1) = 1 :: (List.range' 1 ((y :: xs).length - 1)).map (· + 1) :=
    range'_one_succ
  have hf : ((List.range' 1 ((y :: xs).length - 1)).map (· + 1)).filter
        (fun i => (x :: y :: xs).getD i 0 ≠ (x :: y :: xs).getD (i - 1) 0 + 1) =
      ((List.range' 1 ((y :: xs).length - 1)).filter
        fun i => (y :: xs).getD i 0 ≠ (y :: xs).getD (i - 1) 0 + 1).map (· + 1) := by
    rw [List.filter_map]
    refine congrArg _ (List.filter_congr fun i hi => ?_)
    obtain ⟨j, rfl⟩ := Nat.exists_eq_add_of_le' (List.mem_range'_1.mp hi).1
    simp
  rw [consecutiveSegments, consecutiveSegments, hr, List.filter_cons, hf]
  by_cases h : y = x + 1 <;> simp [h]

-- The parts of a list that start at the given positions.
def slices : List Nat → List α → List (List α)
  | [],             _  => []
  | [s],            xs => [xs.drop s]
  | s :: t :: segs, xs => (xs.take t).drop s :: slices (t :: segs) xs

section Slices

variable {α β : Type} {as : List α} {a : α}

theorem slices_map (f : α → β) : slices segs (as.map f) = (slices segs as).map (List.map f) := by
  induction segs
  case nil => rfl
  case cons s segs hi => cases segs <;> simp_all [slices]

theorem slices_succ : slices (segs.map (· + 1)) (a :: as) = slices segs as := by
  induction segs
  case nil => rfl
  case cons s segs hi => cases segs <;> simp_all [slices]

theorem slices_zero_cons : slices (0 :: segs.map (· + 1)) (a :: as) =
    (a :: (slices (0 :: segs) as).headD []) :: (slices (0 :: segs) as).tail := by
  cases segs
  case nil          => rfl
  case cons s segs =>
    have := @slices_succ (s :: segs) α as a
    simp_all [slices]

theorem slices_zero_zero : slices (0 :: (0 :: segs).map (· + 1)) (a :: as) = [a] :: slices (0 :: segs) as := by
  have := @slices_succ (0 :: segs) α as a
  simp_all [slices]

end Slices

-- The segments start with the runs.
theorem slices_consecutiveSegments : slices (consecutiveSegments (x :: xs)) (x :: xs) = runs (x :: xs) := by
  induction xs generalizing x
  case nil => rfl
  case cons y xs hi =>
    rw [consecutiveSegments_cons_cons, runs_cons_cons, ← hi]
    split_ifs
    case pos => exact slices_zero_cons
    case neg => exact slices_zero_zero

theorem map_consecutiveSegments : (consecutiveSegments (x :: xs)).map ((x :: xs).getD · 0) =
    (runs (x :: xs)).map (·.headD 0) := by
  induction xs generalizing x
  case nil => rfl
  case cons y xs hi =>
    rw [consecutiveSegments_cons_cons, runs_cons_cons]
    split_ifs
    case pos =>
      have := congrArg List.tail (@hi y)
      simp_all [Function.comp_def]
    case neg => simp_all [Function.comp_def]

theorem map_slice : ((List.range' 1 segs.length).map fun i =>
      (dims.take (if segs.length = i then dims.length else segs.getD i 0)).drop (segs.getD (i - 1) 0)) =
    slices segs dims := by
  induction segs
  case nil => rfl
  case cons s segs hi =>
    cases segs
    case nil => simp [slices]
    case cons t segs =>
      have hr : List.range' 1 (s :: t :: segs).length = 1 :: (List.range' 1 (t :: segs).length).map (· + 1) :=
        range'_one_succ
      rw [hr, List.map_cons, List.map_map, slices, ← hi]
      refine List.cons_eq_cons.mpr ⟨by simp, List.map_congr_left fun i hi => ?_⟩
      obtain ⟨j, rfl⟩ := Nat.exists_eq_add_of_le' (List.mem_range'_1.mp hi).1
      simp

end Segments

section Permutation

theorem foldl_set_getElem? {zs : List Int} : (xs.foldl (fun dims x => dims.set x 0) zs)[i]? =
    if i ∈ xs ∧ i < zs.length then some 0 else zs[i]? := by
  induction xs generalizing zs
  case nil => simp
  case cons x xs hi =>
    rw [List.foldl_cons, hi, List.length_set, List.getElem?_set]
    by_cases hx : x = i <;> by_cases hl : i < zs.length <;> simp [hx, hl, Ne.symm]

theorem numberDims_getElem? {ds : List Int} {d : Int} (h : ds[i]? = some d) (hd : 0 ≤ d) :
    (numberDims n ds)[i]? = some ((n + (ds.take i).countP (0 ≤ ·) : Nat) : Int) := by
  induction ds generalizing n i
  case nil => simp at h
  case cons e ds hi =>
    cases i
    case zero =>
      obtain rfl := Option.some.inj h
      simp [numberDims, hd]
    case succ i =>
      rw [List.getElem?_cons_succ] at h
      rw [numberDims]
      split_ifs with he
      case pos =>
        rw [List.getElem?_cons_succ, hi h, List.take_succ_cons, List.countP_cons_of_pos (by simpa using he)]
        congr 2
        omega
      case neg => rw [List.getElem?_cons_succ, hi h, List.take_succ_cons, List.countP_cons_of_neg (by simpa using he)]

-- The number of a segment is the number of segments that start before it.
theorem numberDims_segments (hx : x ∈ xs) (hn : x < n) :
    ((numberDims 0 (xs.foldl (fun dims x => dims.set x 0) (List.replicate n (-1)))).getD x 0).toNat =
      (List.range x).countP (· ∈ xs) := by
  have hm : (xs.foldl (fun dims x => dims.set x 0) (List.replicate n (-1))) =
      (List.range n).map fun i => if i ∈ xs then 0 else (-1 : Int) := by
    refine List.ext_getElem? fun i => ?_
    rw [foldl_set_getElem?]
    by_cases hi : i < n <;> simp [hi]
    split_ifs <;> rfl
  have hg : ((List.range n).map fun i => if i ∈ xs then 0 else (-1 : Int))[x]? = some 0 := by simp [hn, hx]
  rw [hm, List.getD_eq_getElem?_getD, numberDims_getElem? hg (Int.le_refl 0), ← List.map_take, List.take_range,
    Nat.min_eq_left hn.le, List.countP_map, Option.getD_some, Nat.zero_add, Int.toNat_natCast]
  refine List.countP_congr fun i _ => ?_
  by_cases hi : i ∈ xs <;> simp [hi]

theorem permutation_eq (h : (x :: xs).Perm (List.range n)) :
    (consecutiveSegments (x :: xs)).map (fun segment =>
        ((numberDims 0 ((consecutiveSegments (x :: xs)).foldl
          (fun dims segment => dims.set ((x :: xs).getD segment 0) 0) (List.replicate n (-1)))).getD
            ((x :: xs).getD segment 0) 0).toNat) =
      runOrder (x :: xs) := by
  let heads := (runs (x :: xs)).map (·.headD 0)
  let number (y : Nat) :=
    ((numberDims 0 (heads.foldl (fun dims x => dims.set x 0) (List.replicate n (-1)))).getD y 0).toNat
  have hl : (consecutiveSegments (x :: xs)).foldl (fun dims segment => dims.set ((x :: xs).getD segment 0) 0)
      (List.replicate n (-1)) = heads.foldl (fun dims x => dims.set x 0) (List.replicate n (-1)) := by
    simp only [heads]
    rw [← map_consecutiveSegments, List.foldl_map]
  have hm : (consecutiveSegments (x :: xs)).map (fun segment => number ((x :: xs).getD segment 0)) =
      heads.map number := by
    simp only [heads]
    rw [← map_consecutiveSegments, List.map_map]
    rfl
  rw [hl]
  refine hm.trans ?_
  rw [runOrder_eq h, List.map_map]
  refine List.map_congr_left fun g hg => ?_
  exact numberDims_segments (List.mem_map_of_mem hg) (List.mem_range.mp (h.mem_iff.mp (headD_mem hg)))

end Permutation

section Merge

theorem foldlM_multiplies {p : Nat} (hp : p ≤ int64Max) :
    dims.foldlM multiplies p = .ok n ↔
      (∀ i, p * (dims.take i).prod ≤ int64Max) ∧ n = p * dims.prod := by
  induction dims generalizing p
  case nil => simp [pure, Except.pure, hp, eq_comm]
  case cons d dims hi =>
    rw [List.foldlM_cons, multiplies]
    split_ifs with h
    case pos =>
      simp only [pure_bind, hi h, List.prod_cons, ← Nat.mul_assoc]
      refine and_congr_left fun _ => ⟨fun hf i => ?mp, fun hf i => ?mpr⟩
      case mp =>
        cases i
        case zero   => simpa using hp
        case succ i => simpa [Nat.mul_assoc] using hf i
      case mpr => simpa [Nat.mul_assoc] using hf (i + 1)
    case neg =>
      constructor
      · intro he
        cases he
      · rintro ⟨hf, -⟩
        exact absurd (by simpa using hf 1) h

theorem accumulate_eq_ok : accumulate dims = .ok n ↔ FitsInt64 dims ∧ n = dims.prod := by
  rw [accumulate, foldlM_multiplies (by decide)]
  simp [FitsInt64]

theorem mapM_accumulate {gs : List (List Nat)} :
    gs.mapM accumulate = .ok dims ↔ (∀ g ∈ gs, FitsInt64 g) ∧ dims = gs.map List.prod := by
  rw [mapM_eq_ok]
  simp only [accumulate_eq_ok]
  induction gs generalizing dims
  case nil => simp
  case cons g gs hi =>
    rw [List.forall₂_cons_left_iff]
    simp only [hi]
    grind

theorem mergeDimensions_eq : mergeDimensions byteWidth segs s =
    (slices segs s.dimensions).mapM accumulate >>= makeShape byteWidth s.elementType := by
  rw [mergeDimensions, ← map_slice, List.mapM_map]
  rfl

theorem foldlM_overflowSafeMultiply_ok {p : Nat} (h : dims.foldlM overflowSafeMultiply p = .ok n) :
    n = p * dims.prod ∧ (dims ≠ [] → n ≤ int64Max) := by
  induction dims generalizing p
  case nil =>
    obtain rfl := Except.ok.inj h
    simp
  case cons d dims hi =>
    rw [List.foldlM_cons, bind_eq_ok] at h
    obtain ⟨q, hq, h⟩ := h
    rw [overflowSafeMultiply] at hq
    split_ifs at hq with hle
    obtain rfl := Except.ok.inj hq
    obtain ⟨rfl, hn⟩ := hi h
    refine ⟨by rw [List.prod_cons, Nat.mul_assoc], fun _ => ?_⟩
    cases dims
    case nil  => simpa using hle
    case cons => exact hn (by simp)

-- A product that does not overflow does not overflow either if its factors are grouped.
theorem foldlM_overflowSafeMultiply_flatten {gs : List (List Nat)} {p : Nat} (hn : ∀ g ∈ gs, g ≠ [])
    (h : gs.flatten.foldlM overflowSafeMultiply p = .ok n) :
    (gs.map List.prod).foldlM overflowSafeMultiply p = .ok n := by
  induction gs generalizing p
  case nil => exact h
  case cons g gs hi =>
    rw [List.flatten_cons, List.foldlM_append, bind_eq_ok] at h
    obtain ⟨q, hq, h⟩ := h
    obtain ⟨rfl, hle⟩ := foldlM_overflowSafeMultiply_ok hq
    rw [List.map_cons, List.foldlM_cons, overflowSafeMultiply, if_pos (hle (hn g (.head _)))]
    exact hi (fun g hg => hn g (.tail _ hg)) h

theorem foldlM_overflowSafeMultiply_filter {p : Nat} (h : dims.foldlM overflowSafeMultiply p = .ok n) :
    (dims.filter (· ≠ 1)).foldlM overflowSafeMultiply p = .ok n := by
  induction dims generalizing p
  case nil => exact h
  case cons d dims hi =>
    rw [List.foldlM_cons, bind_eq_ok] at h
    obtain ⟨q, hq, h⟩ := h
    by_cases hd : d = 1
    case pos =>
      rw [overflowSafeMultiply, hd, Nat.mul_one] at hq
      split_ifs at hq
      obtain rfl := Except.ok.inj hq
      simpa [hd] using hi h
    case neg =>
      rw [List.filter_cons_of_pos (by simpa using hd), List.foldlM_cons, hq]
      exact hi h

theorem makeShape_of_ok {elementType : τ} (h : dims.foldlM overflowSafeMultiply (byteWidth elementType) = .ok n) :
    makeShape byteWidth elementType dims = .ok (makeShapeWithDescendingLayout elementType dims) := by
  rw [makeShape, makeValidatedShapeWithDescendingLayout, h]
  rfl

end Merge

section Main

theorem isMonotonicWithDim0Major_of_descending (h : s.minorToMajor = makeDescendingLayout s.rank) :
    isMonotonicWithDim0Major s = true := by
  rw [isMonotonicWithDim0Major, h, makeDescendingLayout, decide_eq_true_eq, List.isChain_reverse]
  exact (List.pairwise_lt_range.imp Nat.le_of_lt).isChain

theorem helper_cons (hp : (x :: xs).Perm (List.range s.rank)) : helper byteWidth s (x :: xs) =
    (fun t => (t.dimensions, runOrder (x :: xs))) <$> mergeDimensions byteWidth (consecutiveSegments (x :: xs)) s := by
  rw [helper]
  cases mergeDimensions byteWidth (consecutiveSegments (x :: xs)) s
  case error => rfl
  case ok t =>
    simp only [bind, Except.bind, permutation_eq hp]
    split_ifs with hl
    case pos =>
      have hl : (runs (x :: xs)).length = 1 := by
        have := congrArg List.length (@map_consecutiveSegments xs x)
        simpa [hl] using this.symm
      have ho := runOrder_perm (hp.nodup_iff.mpr List.nodup_range)
      rw [hl] at ho
      rw [List.perm_singleton.mp ho]
      rfl
    case neg => rfl

-- The dimensions of every run have a product without overflow.
def MergesFit (input : Shape τ) (dimensions : List Nat) : Prop :=
  ∀ g ∈ runs (renumbered input.dimensions dimensions),
    FitsInt64 (g.map ((input.dimensions.filter (· ≠ 1)).getD · 1))

-- The normalized transpose is the same movement of the data, and no neighbouring dimensions stay neighbours.
def NormalizesTranspose (byteWidth : τ → Nat) (input output : Shape τ) (dimensions : List Nat) : Prop :=
  ∃ normalizedDims permutation,
    getNormalizedLogicalTransposeShape byteWidth input output dimensions = .ok (normalizedDims, permutation) ∧
    permutation.Perm (List.range normalizedDims.length) ∧
    (∀ (α : Type) (data : List α),
      transposeData normalizedDims permutation data = transposeData output.dimensions dimensions data) ∧
    permutation.IsChain fun p q => q ≠ p + 1

section Transpose

variable (hp : dimensions.Perm (List.range input.rank)) (hd : output.dimensions = dimensions.map input.dimension)
include hp hd

theorem dropDegenerateDimensions_transpose : output.dropDegenerateDimensions.dimensions =
    (renumbered input.dimensions dimensions).map ((input.dimensions.filter (· ≠ 1)).getD · 1) := by
  rw [dropDegenerateDimensions_dimensions, hd, map_getD_renumbered hp]
  rfl

theorem renumbered_perm_rank :
    (renumbered input.dimensions dimensions).Perm (List.range output.dropDegenerateDimensions.rank) := by
  have := renumbered_perm hp
  rwa [rank, dropDegenerateDimensions_transpose hp hd, List.length_map, this.length_eq, List.length_range]

theorem transposeData_output {α : Type} (data : List α) : transposeData output.dimensions dimensions data =
    transposeData ((renumbered input.dimensions dimensions).map ((input.dimensions.filter (· ≠ 1)).getD · 1))
      (renumbered input.dimensions dimensions) data := by
  rw [transposeData_renumbered hp, hd]
  rfl

-- Without any nondegenerate dimension the result is the transpose of a single element.
theorem helper_nil (hr : renumbered input.dimensions dimensions = []) (hb : byteWidth output.elementType ≤ int64Max) :
    helper byteWidth output.dropDegenerateDimensions [] = .ok ([1], [0]) := by
  have hs : output.dropDegenerateDimensions.dimensions = [] := by
    rw [dropDegenerateDimensions_transpose hp hd, hr]
    rfl
  have hm : [1].foldlM overflowSafeMultiply (byteWidth output.elementType) = .ok (byteWidth output.elementType) := by
    rw [List.foldlM_cons, overflowSafeMultiply, Nat.mul_one, if_pos hb]
    rfl
  have hg : (slices [0] ([] : List Nat)).mapM accumulate = .ok [1] := rfl
  have he : consecutiveSegments [] = [0] := rfl
  simp only [helper, he, mergeDimensions_eq, hs, hg, dropDegenerateDimensions_elementType, bind, Except.bind,
    makeShape_of_ok hm]
  rfl

theorem validated_transpose (hv : IsValidated byteWidth output) : ∃ n,
    (((runs (renumbered input.dimensions dimensions)).map
      (List.map ((input.dimensions.filter (· ≠ 1)).getD · 1))).flatten).foldlM
        overflowSafeMultiply (byteWidth output.elementType) = .ok n := by
  obtain ⟨t, ht⟩ := hv
  rw [makeValidatedShapeWithDescendingLayout, bind_eq_ok] at ht
  obtain ⟨n, hn, -⟩ := ht
  refine ⟨n, ?_⟩
  rw [← List.map_flatten, flatten_runs, ← dropDegenerateDimensions_transpose hp hd, dropDegenerateDimensions_dimensions]
  exact foldlM_overflowSafeMultiply_filter hn

theorem mergeDimensions_transpose (hr : renumbered input.dimensions dimensions = x :: xs) :
    mergeDimensions byteWidth (consecutiveSegments (x :: xs)) output.dropDegenerateDimensions =
      (((runs (x :: xs)).map (List.map ((input.dimensions.filter (· ≠ 1)).getD · 1))).mapM accumulate >>=
        makeShape byteWidth output.elementType) := by
  rw [mergeDimensions_eq, dropDegenerateDimensions_transpose hp hd, hr, slices_map, slices_consecutiveSegments,
    dropDegenerateDimensions_elementType]

end Transpose

theorem normalizesTranspose_iff (hv : IsValidated byteWidth output) (hb : byteWidth output.elementType ≤ int64Max)
    (hi : input.minorToMajor = makeDescendingLayout input.rank)
    (ho : output.minorToMajor = makeDescendingLayout output.rank)
    (hp : dimensions.Perm (List.range input.rank)) (hd : output.dimensions = dimensions.map input.dimension) :
    NormalizesTranspose byteWidth input output dimensions ↔ MergesFit input dimensions := by
  have hg : getNormalizedLogicalTransposeShape byteWidth input output dimensions =
      helper byteWidth output.dropDegenerateDimensions (renumbered input.dimensions dimensions) := by
    rw [getNormalizedLogicalTransposeShape, isMonotonicWithDim0Major_of_descending hi,
      isMonotonicWithDim0Major_of_descending ho, newDimensions_eq hp hd]
    rfl
  simp only [NormalizesTranspose, hg, transposeData_output hp hd]
  cases hr : renumbered input.dimensions dimensions
  case nil =>
    rw [helper_nil hp hd hr hb]
    refine iff_of_true ⟨[1], [0], rfl, .refl _, fun α data => ?data, .singleton _⟩ fun g hg => ?runs
    case data => rfl
    case runs => simp [hr, runs] at hg
  case cons x xs =>
    have hn : (x :: xs).Perm (List.range output.dropDegenerateDimensions.rank) := hr ▸ renumbered_perm_rank hp hd
    have hz : (x :: xs).Perm (List.range (input.dimensions.filter (· ≠ 1)).length) := hr ▸ renumbered_perm hp
    rw [helper_cons hn, mergeDimensions_transpose hp hd hr]
    constructor
    case mp =>
      rintro ⟨normalizedDims, permutation, he, -⟩ g hg
      rw [map_eq_pure_bind, bind_eq_ok] at he
      obtain ⟨t, ht, -⟩ := he
      obtain ⟨dims, hm, -⟩ := bind_eq_ok.mp ht
      exact (mapM_accumulate.mp hm).1 _ (List.mem_map_of_mem (hr ▸ hg))
    case mpr =>
      intro hf
      have hm := mapM_accumulate.mpr ⟨List.forall_mem_map.mpr fun g hg => hf g (hr ▸ hg), rfl⟩
      obtain ⟨n, hn'⟩ := validated_transpose hp hd hv
      rw [hr] at hn'
      have hs := makeShape_of_ok <| foldlM_overflowSafeMultiply_flatten
        (List.forall_mem_map.mpr fun g hg => mt List.map_eq_nil_iff.mp (ne_nil_of_mem_runs hg))
        hn'
      rw [hm]
      simp only [bind, Except.bind, hs]
      refine ⟨_, _, rfl, ?perm, fun α data => ?data, isChain_runOrder hz⟩
      case perm =>
        have := runOrder_perm (hz.nodup_iff.mpr List.nodup_range)
        simpa [makeShapeWithDescendingLayout] using this
      case data =>
        rw [← transposeData_runs hz, List.map_map]
        rfl

theorem normalizesTranspose_iff_degenerate :
    NormalizesTranspose (fun () => 4) (makeShapeWithDescendingLayout () [10, 1, 11, 32])
      (makeShapeWithDescendingLayout () [32, 1, 10, 11]) [3, 1, 0, 2] ↔
        MergesFit (makeShapeWithDescendingLayout () [10, 1, 11, 32]) [3, 1, 0, 2] :=
  normalizesTranspose_iff ⟨_, rfl⟩ (by decide) rfl rfl (by decide) rfl

theorem not_normalizesTranspose :
    IsValidated (fun () => 4) (makeShapeWithDescendingLayout () [0, 6442450944, 2147483648, 0]) ∧
    getNormalizedLogicalTransposeShape (fun () => 4) (makeShapeWithDescendingLayout () [0, 6442450944, 2147483648, 0])
      (makeShapeWithDescendingLayout () [0, 6442450944, 2147483648, 0]) [3, 1, 2, 0] = .error .overflow ∧
    ¬NormalizesTranspose (fun () => 4) (makeShapeWithDescendingLayout () [0, 6442450944, 2147483648, 0])
      (makeShapeWithDescendingLayout () [0, 6442450944, 2147483648, 0]) [3, 1, 2, 0] := by
  have he : getNormalizedLogicalTransposeShape (fun () => 4)
      (makeShapeWithDescendingLayout () [0, 6442450944, 2147483648, 0])
      (makeShapeWithDescendingLayout () [0, 6442450944, 2147483648, 0]) [3, 1, 2, 0] = .error .overflow := by
    decide +kernel
  refine ⟨⟨_, rfl⟩, he, ?_⟩
  rintro ⟨normalizedDims, permutation, hn, -⟩
  cases he.symm.trans hn

end Main

end Shape
