import XlaModel.Lib.PermutedView
import XlaModel.Lib.Ravel
import XlaModel.Shape.Util

namespace Shape

open RowMajor

variable {τ : Type} {s input output : Shape τ} {ds xs : List Nat} {d e k : Nat}

section Stride

-- The stride of a dimension in a list of dimensions from minor to major.
def strideIn (s : Shape τ) (ds : List Nat) (d : Nat) : Nat :=
  ((ds.takeWhile (· ≠ d)).map s.dimension).prod

theorem getDimensionStride_eq : s.getDimensionStride d = s.strideIn s.minorToMajor d := by
  rw [getDimensionStride, strideIn, List.prod_eq_foldl, List.foldl_map]

theorem strideIn_cons_self : s.strideIn (d :: ds) d = 1 := by
  simp [strideIn]

theorem strideIn_cons_ne (h : d ≠ e) : s.strideIn (d :: ds) e = s.dimension d * s.strideIn ds e := by
  simp [strideIn, h]

end Stride

theorem elementsIn_eq : s.elementsIn = s.dimensions.prod := by
  rw [elementsIn, List.prod_eq_foldl]

theorem minorToMajor_nodup : s.minorToMajor.Nodup :=
  s.perm.nodup_iff.mpr List.nodup_range

theorem mem_minorToMajor : d ∈ s.minorToMajor ↔ d < s.rank := by
  rw [s.perm.mem_iff, List.mem_range, rank]

section MultidimensionalIndexToLinearIndex

open MultidimensionalIndexToLinearIndex

theorem foldl_linearIndex {linearIndex scale : Nat} (h : (d :: ds).Nodup) :
    (((d :: ds).zip ds).foldl (step s xs) (linearIndex, scale)).1 =
      linearIndex + (ds.map fun e => scale * s.strideIn (d :: ds) e * xs.getD e 0).sum := by
  induction ds generalizing d linearIndex scale
  case nil => simp
  case cons e ds hi =>
    obtain ⟨hd, he⟩ := List.nodup_cons.mp h
    have hs {f : Nat} (hf : f ∈ e :: ds) : s.strideIn (d :: e :: ds) f = s.dimension d * s.strideIn (e :: ds) f :=
      strideIn_cons_ne fun h => hd (h ▸ hf)
    have hm : (ds.map fun f => scale * s.strideIn (d :: e :: ds) f * xs.getD f 0) =
        ds.map fun f => scale * s.dimension d * s.strideIn (e :: ds) f * xs.getD f 0 :=
      List.map_congr_left fun f hf => by rw [hs (.tail _ hf), ← Nat.mul_assoc scale]
    rw [List.zip_cons_cons, List.foldl_cons, step, hi he, List.map_cons, List.sum_cons, hm, hs (.head _),
      strideIn_cons_self, Nat.mul_one, Nat.add_assoc]

-- The linear index adds up the strides of the dimensions.
theorem multidimensionalIndexToLinearIndex_eq : s.multidimensionalIndexToLinearIndex xs =
    ((List.range s.rank).map fun d => xs.getD d 0 * s.getDimensionStride d).sum := by
  have hp := (s.perm.map fun d => xs.getD d 0 * s.getDimensionStride d).sum_eq
  have hn := s.minorToMajor_nodup
  rw [rank, ← hp]
  simp only [getDimensionStride_eq, multidimensionalIndexToLinearIndex]
  cases hm : s.minorToMajor
  case nil => rfl
  case cons d ds =>
    simp only
    rw [foldl_linearIndex (hm ▸ hn), List.map_cons, List.sum_cons, strideIn_cons_self, Nat.mul_one]
    simp only [Nat.one_mul, Nat.mul_comm]

end MultidimensionalIndexToLinearIndex

section LinearIndexToMultidimensionalIndex

open LinearIndexToMultidimensionalIndex

theorem foldl_multiIndex {divisor : Nat} (h : ds.Nodup) (he : e < xs.length) :
    (ds.foldl (step s k) (xs, divisor)).1[e]? =
      if e ∈ ds then some (k / (divisor * s.strideIn ds e) % s.dimension e) else xs[e]? := by
  induction ds generalizing xs divisor
  case nil => simp
  case cons d ds hi =>
    obtain ⟨hd, hn⟩ := List.nodup_cons.mp h
    rw [List.foldl_cons, step, hi hn (by simpa)]
    by_cases hde : d = e
    case pos =>
      subst hde
      rw [if_neg hd, if_pos (.head _), strideIn_cons_self, Nat.mul_one]
      simp [he]
    case neg => simp [strideIn_cons_ne hde, Nat.mul_assoc, List.getElem?_set_ne hde, Ne.symm hde]

theorem length_foldl {divisor : Nat} : (ds.foldl (step s k) (xs, divisor)).1.length = xs.length := by
  induction ds generalizing xs divisor
  case nil          => rfl
  case cons d ds hi => rw [List.foldl_cons, step, hi, List.length_set]

theorem linearIndexToMultidimensionalIndex_eq : s.linearIndexToMultidimensionalIndex k =
    (List.range s.rank).map fun d => k / s.getDimensionStride d % s.dimension d := by
  refine List.ext_getElem? fun d => ?_
  by_cases hd : d < s.rank
  case pos =>
    rw [linearIndexToMultidimensionalIndex, foldl_multiIndex s.minorToMajor_nodup (by simpa),
      if_pos (mem_minorToMajor.mpr hd), Nat.one_mul, ← getDimensionStride_eq]
    simp [hd]
  case neg =>
    rw [List.getElem?_eq_none (by rw [linearIndexToMultidimensionalIndex, length_foldl]; simpa using hd),
      List.getElem?_eq_none (by simpa using hd)]

end LinearIndexToMultidimensionalIndex

section View

-- The array as a view of the memory, whose axes are the dimensions.
def view (s : Shape τ) : View :=
  (List.range s.rank).map fun d => ⟨s.dimension d, s.getDimensionStride d⟩

-- The physical linear index of the element at the given position in row-major order.
def physicalIndex (s : Shape τ) (k : Nat) : Nat :=
  s.multidimensionalIndexToLinearIndex (digits s.dimensions k)

theorem view_sizes : s.view.map Axis.size = s.dimensions := by
  rw [view, List.map_map]
  exact View.map_getD_range s.dimensions 1

theorem view_numElements : s.view.numElements = s.elementsIn := by
  rw [View.numElements, view_sizes, elementsIn_eq]

theorem view_numElements_drop : View.numElements (s.view.drop d) = (s.dimensions.drop d).prod := by
  rw [View.numElements, List.map_drop, view_sizes]

theorem view_offset : s.view.offset k = s.physicalIndex k := by
  have hd : digits s.dimensions k = (List.range s.rank).map fun d => (digits s.dimensions k).getD d 0 := by
    have := View.map_getD_range (digits s.dimensions k) 0
    rw [length_digits] at this
    exact this.symm
  rw [View.offset_eq_sum, view_sizes, physicalIndex, multidimensionalIndexToLinearIndex_eq]
  conv_lhs => rw [hd]
  rw [view, List.zipWith_map, List.zipWith_self]

theorem view_isUnit : s.view.IsUnit k ↔ ∃ d < s.rank, 1 < s.dimension d ∧ k = View.stride s.dimensions d := by
  have hl : s.view.length = s.rank := by simp [view]
  have hs {d : Nat} (h : d < s.view.length) : s.view[d].size = s.dimension d := by simp [view]
  rw [View.isUnit_iff]
  constructor
  case mp =>
    rintro ⟨d, hd, h₁, h₂⟩
    exact ⟨d, hl ▸ hd, hs hd ▸ h₁, h₂.trans view_numElements_drop⟩
  case mpr =>
    rintro ⟨d, hd, h₁, h₂⟩
    exact ⟨d, hl.symm ▸ hd, (hs _).symm ▸ h₁, h₂.trans view_numElements_drop.symm⟩

end View

section Descending

variable {t : τ} {dims : List Nat}

theorem makeShapeWithDescendingLayout_getDimensionStride (hd : d < dims.length) :
    (makeShapeWithDescendingLayout t dims).getDimensionStride d = View.stride dims d := by
  have hn {n : Nat} (hn : n ≤ dims.length) (hd : d < n) :
      strideIn (makeShapeWithDescendingLayout t dims) (List.range n).reverse d = ((dims.take n).drop (d + 1)).prod := by
    induction n
    case zero => cases hd
    case succ n hi =>
      rw [List.range_succ, List.reverse_append, List.reverse_singleton, List.singleton_append]
      by_cases hdn : n = d
      case pos =>
        subst hdn
        rw [strideIn_cons_self, List.drop_eq_nil_of_le (List.length_take_le ..), List.prod_nil]
      case neg =>
        rw [strideIn_cons_ne hdn, hi (Nat.le_of_succ_le hn) (by omega), List.take_succ_eq_append_getElem hn,
          List.drop_append_of_le_length (by simp; omega), List.prod_append, Nat.mul_comm]
        simp [dimension, makeShapeWithDescendingLayout, Nat.lt_of_succ_le hn]
  rw [getDimensionStride_eq, View.stride, ← List.take_length (l := dims), ← hn le_rfl hd]
  simp [makeShapeWithDescendingLayout, makeDescendingLayout]

-- The conversions with a descending layout are those of the row-major order.
theorem makeShapeWithDescendingLayout_toMultidimensionalIndex (hk : k < dims.prod) :
    (makeShapeWithDescendingLayout t dims).linearIndexToMultidimensionalIndex k = digits dims k := by
  rw [linearIndexToMultidimensionalIndex_eq, View.digits_eq hk]
  refine List.map_congr_left fun d hd => ?_
  have hs := makeShapeWithDescendingLayout_getDimensionStride (t := t) (List.mem_range.mp hd)
  exact congrArg (k / · % dims.getD d 1) hs

theorem makeShapeWithDescendingLayout_toLinearIndex (hx : xs.length = dims.length) :
    (makeShapeWithDescendingLayout t dims).multidimensionalIndexToLinearIndex xs = ravel dims xs := by
  have hs : ((List.range dims.length).map fun d => xs.getD d 0 *
      (makeShapeWithDescendingLayout t dims).getDimensionStride d) =
      (List.range dims.length).map fun d => xs.getD d 0 * View.stride dims d :=
    List.map_congr_left fun d hd => by rw [makeShapeWithDescendingLayout_getDimensionStride (List.mem_range.mp hd)]
  rw [multidimensionalIndexToLinearIndex_eq]
  refine (congrArg List.sum hs).trans ?_
  rw [View.sum_stride, ← hx, View.map_getD_range]

end Descending

section Check

theorem unitIndex_inBounds {dims : List Nat} (hp : 0 < dims.prod) (hd : 1 < dims.getD d 1) :
    InBounds dims (unitIndex dims.length d) := by
  refine List.forall₂_iff_get.mpr ⟨by simp [unitIndex], fun i h₁ h₂ => ?_⟩
  have hi : 0 < dims[i] := Nat.pos_of_dvd_of_pos (List.dvd_prod (List.getElem_mem h₂)) hp
  by_cases hdi : d = i
  case pos =>
    subst hdi
    simpa [unitIndex, h₂] using hd
  case neg => simpa [unitIndex, List.getElem_set_ne hdi] using hi

theorem ravel_unitIndex {dims : List Nat} (hd : d < dims.length) :
    ravel dims (unitIndex dims.length d) = View.stride dims d := by
  induction dims generalizing d
  case nil => cases hd
  case cons s dims hi =>
    cases d
    case zero   => simp [unitIndex, List.replicate_succ, ravel, ravel_zero, View.stride]
    case succ d => simpa [unitIndex, List.replicate_succ, ravel, View.stride] using hi (Nat.lt_of_succ_lt_succ hd)

theorem checkInputUnitIndices_iff (hp : 0 < input.elementsIn) (hn : input.elementsIn = output.elementsIn) :
    checkInputUnitIndices input output = true ↔
      ∀ k, input.view.IsUnit k → input.physicalIndex k = output.physicalIndex k := by
  have hu {d : Nat} (hd : d < input.rank) (h : 1 < input.dimension d) :
      unitIndex input.rank d = digits input.dimensions (View.stride input.dimensions d) := by
    have hb := unitIndex_inBounds (elementsIn_eq ▸ hp) h
    rw [← ravel_unitIndex hd, hb.digits_ravel, rank]
  have hlt {d : Nat} (hd : d < input.rank) (h : 1 < input.dimension d) :
      View.stride input.dimensions d < output.dimensions.prod := by
    have hk := (view_isUnit.mpr ⟨d, hd, h, rfl⟩).lt (view_numElements ▸ hp)
    rwa [view_numElements, hn, elementsIn_eq] at hk
  have hl (d : Nat) : (unitIndex input.rank d).length = input.dimensions.length := by simp [unitIndex, rank]
  -- The elements that are compared for a dimension are those at the position of its unit index.
  have he {d : Nat} (hd : d < input.rank) (h : 1 < input.dimension d) :
      (makeShapeWithDescendingLayout output.elementType output.dimensions).linearIndexToMultidimensionalIndex
        ((makeShapeWithDescendingLayout input.elementType input.dimensions).multidimensionalIndexToLinearIndex
          (unitIndex input.rank d)) = digits output.dimensions (View.stride input.dimensions d) := by
    rw [makeShapeWithDescendingLayout_toLinearIndex (hl d), rank, ravel_unitIndex hd,
      makeShapeWithDescendingLayout_toMultidimensionalIndex (hlt hd h)]
  rw [checkInputUnitIndices, List.all_eq_true]
  simp only [List.mem_range, Bool.or_eq_true, decide_eq_true_eq, beq_iff_eq]
  constructor
  case mp =>
    intro hc k hk
    obtain ⟨d, hd, h, rfl⟩ := view_isUnit.mp hk
    have := (hc d hd).resolve_left (Nat.not_le_of_lt h)
    rwa [he hd h, hu hd h] at this
  case mpr =>
    intro hk d hd
    refine or_iff_not_imp_left.mpr fun h => ?_
    have h : 1 < input.dimension d := Nat.lt_of_not_le h
    rw [he hd h, hu hd h]
    exact hk _ (view_isUnit.mpr ⟨d, hd, h, rfl⟩)

theorem reshapeIsBitcast_iff [DecidableEq τ] (input output : Shape τ) (ignoreElementType : Bool) :
    reshapeIsBitcast input output ignoreElementType = true ↔
      (ignoreElementType = true ∨ input.elementType = output.elementType) ∧
      input.elementsIn = output.elementsIn ∧
      ∀ k < input.elementsIn, input.physicalIndex k = output.physicalIndex k := by
  rw [reshapeIsBitcast]
  split_ifs with ht hn hz
  case pos =>
    simp only [Bool.and_eq_true, Bool.not_eq_true', sameElementType, decide_eq_false_iff_not] at ht
    simp [ht]
  case pos => simp [hn]
  all_goals
    rw [not_not] at hn
    have ht : ignoreElementType = true ∨ input.elementType = output.elementType := by
      simpa [sameElementType, or_iff_not_imp_left] using ht
  case pos => simp [ht, hn, hn.symm.trans hz]
  case neg =>
    have hp : 0 < input.elementsIn := Nat.pos_of_ne_zero hz
    have hs := View.same_iff_agree (w := output.view) (view_numElements.symm ▸ hp)
    rw [Bool.and_eq_true, checkInputUnitIndices_iff hp hn, checkInputUnitIndices_iff (hn ▸ hp) hn.symm]
    refine .trans ?_ (and_iff_right ht).symm
    constructor
    case mp =>
      rintro ⟨hi, ho⟩
      have := hs.mpr ⟨by simpa only [view_numElements], fun k hk => ?_⟩
      · refine ⟨hn, fun k hk => ?_⟩
        have := this.offset k (view_numElements.symm ▸ hk)
        rwa [view_offset, view_offset] at this
      · rw [view_offset, view_offset]
        exact hk.elim (hi k) fun hk => (ho k hk).symm
    case mpr =>
      rintro ⟨-, hk⟩
      have := hs.mp ⟨by simpa only [view_numElements], fun k hlt => ?_⟩
      · exact ⟨fun k hu => view_offset (s := input) ▸ view_offset (s := output) ▸ this.offset k (.inl hu),
          fun k hu => (view_offset (s := input) ▸ view_offset (s := output) ▸ this.offset k (.inr hu)).symm⟩
      · rw [view_offset, view_offset]
        exact hk k (view_numElements ▸ hlt)

end Check
end Shape
