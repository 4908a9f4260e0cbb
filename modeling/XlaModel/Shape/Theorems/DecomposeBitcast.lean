import XlaModel.Lib.Fallible
import XlaModel.Shape.DecomposeBitcast
import XlaModel.Shape.Theorems.Permutation
import XlaModel.Shape.Theorems.ReshapeIsBitcast

namespace Shape

open RowMajor View

variable {τ : Type} {s a b input output : Shape τ} {dims ds xs : List Nat} {d e k n p x : Nat}

section Position

theorem sum_strideIn (h : ds.Nodup) (x : Nat → Nat) :
    (ds.map fun d => x d * s.strideIn ds d).sum = ravel (ds.reverse.map s.dimension) (ds.reverse.map x) := by
  induction ds
  case nil => rfl
  case cons d ds hi =>
    obtain ⟨hd, hn⟩ := List.nodup_cons.mp h
    have hm : (ds.map fun e => x e * s.strideIn (d :: ds) e) = ds.map fun e => s.dimension d * (x e * s.strideIn ds e) :=
      List.map_congr_left fun e he => by
        have hde : d ≠ e := fun hde => hd (hde ▸ he)
        rw [strideIn_cons_ne hde, Nat.mul_left_comm]
    rw [List.reverse_cons, List.map_append, List.map_append, List.map_singleton, List.map_singleton,
      ravel_concat (by simp), List.map_cons, List.sum_cons, strideIn_cons_self, Nat.mul_one, hm, List.sum_map_mul_left,
      hi hn]
    ring

-- The dimensions in the order of the memory.
def physicalDimensions (s : Shape τ) : List Nat :=
  s.minorToMajor.reverse.map s.dimension

theorem multidimensionalIndexToLinearIndex_eq_ravel : s.multidimensionalIndexToLinearIndex xs =
    ravel s.physicalDimensions (s.minorToMajor.reverse.map (xs.getD · 0)) := by
  rw [multidimensionalIndexToLinearIndex_eq, rank, ← (s.perm.map _).sum_eq, physicalDimensions,
    ← sum_strideIn s.minorToMajor_nodup]
  simp only [getDimensionStride_eq]

theorem reverse_perm : s.minorToMajor.reverse.Perm (List.range s.dimensions.length) :=
  (List.reverse_perm _).trans s.perm

theorem prod_physicalDimensions : s.physicalDimensions.prod = s.elementsIn := by
  rw [physicalDimensions, (s.reverse_perm.map _).prod_eq, elementsIn_eq]
  conv_rhs => rw [← map_getD_range s.dimensions 1]
  rfl

theorem map_getD_map_range (h : ∀ d ∈ ds, d < n) (x : Nat → Nat) :
    ds.map (((List.range n).map x).getD · 0) = ds.map x :=
  List.map_congr_left fun d hd => by simp [h d hd]

-- Every position in the memory is that of an element.
theorem exists_index (h : p < s.elementsIn) :
    ∃ i, InBounds s.dimensions i ∧ s.multidimensionalIndexToLinearIndex i = p := by
  obtain ⟨x, hx⟩ := exists_digits s.reverse_perm (elementsIn_eq ▸ h)
  have hd : digits s.physicalDimensions p = s.minorToMajor.reverse.map x := hx.digits
  refine ⟨_, hx.inBounds, ?_⟩
  rw [multidimensionalIndexToLinearIndex_eq_ravel,
    map_getD_map_range (fun d hd => List.mem_range.mp (s.reverse_perm.mem_iff.mp hd)), ← hd,
    ravel_digits (prod_physicalDimensions ▸ h)]

end Position

section Transpose

-- The index in the transposed array of the element at an index.
def transposed (dims i : List Nat) : List Nat :=
  dims.map (i.getD · 0)

-- The transpose changes the shape from `a` to `b` and does not move the elements in the memory.
structure IsTranspose (a : Shape τ) (dims : List Nat) (b : Shape τ) : Prop where
  perm       : dims.Perm (List.range a.rank)
  dimensions : b.dimensions = dims.map a.dimension
  layout     : b.minorToMajor.map (dims.getD · 0) = a.minorToMajor

namespace IsTranspose

variable (h : IsTranspose a dims b)
include h

theorem rank : b.rank = a.rank := by
  rw [Shape.rank, h.dimensions, List.length_map]
  simpa using h.perm.length_eq

theorem dimension (hd : d < b.rank) : b.dimension d = a.dimension (dims.getD d 0) := by
  have hl : dims.length = b.rank := h.rank.symm ▸ by simpa using h.perm.length_eq
  rw [Shape.dimension, h.dimensions]
  simp [hl, hd]

theorem inBounds (hi : InBounds a.dimensions xs) : InBounds b.dimensions (transposed dims xs) := by
  obtain ⟨hl, hb⟩ := List.forall₂_iff_get.mp hi
  rw [InBounds, h.dimensions, transposed, List.forall₂_map_left_iff, List.forall₂_map_right_iff, List.forall₂_same]
  intro d hd
  have hd : d < a.dimensions.length := List.mem_range.mp (h.perm.mem_iff.mp hd)
  have := hb d (hl ▸ hd) hd
  simpa [Shape.dimension, hl ▸ hd, hd] using this

theorem position : b.multidimensionalIndexToLinearIndex (transposed dims xs) = a.multidimensionalIndexToLinearIndex xs := by
  have hl : dims.length = b.rank := h.rank.symm ▸ by simpa using h.perm.length_eq
  have hm : a.minorToMajor.reverse = b.minorToMajor.reverse.map (dims.getD · 0) := by
    rw [← h.layout, List.map_reverse]
  have hlt (d) (hd : d ∈ b.minorToMajor.reverse) : d < b.rank :=
    mem_minorToMajor.mp (List.mem_reverse.mp hd)
  rw [multidimensionalIndexToLinearIndex_eq_ravel, multidimensionalIndexToLinearIndex_eq_ravel, physicalDimensions,
    physicalDimensions, hm, List.map_map, List.map_map]
  congr 1
  case e_a => exact List.map_congr_left fun d hd => h.dimension (hlt d hd)
  case e_a =>
    refine List.map_congr_left fun d hd => ?_
    have := hlt d hd
    simp [transposed, hl, this]

theorem transposeIsBitcast_eq [DecidableEq τ] {ignoreElementType : Bool}
    (ht : ignoreElementType = true ∨ a.elementType = b.elementType) :
    transposeIsBitcast a b dims ignoreElementType = .ok true := by
  have hl : dims.length = b.minorToMajor.length := by
    rw [h.perm.length_eq, b.perm.length_eq, List.length_range, List.length_range]
    exact h.rank.symm
  have ht : ¬(!ignoreElementType && !sameElementType a b) = true := by
    simpa [sameElementType, or_iff_not_imp_left] using ht
  rw [transposeIsBitcast, if_neg ht, composePermutations_eq hl, h.layout]
  simp [bind, Except.bind, pure, Except.pure]

end IsTranspose

-- The dimensions that move the entries of one list to those of another one.
theorem map_inverse_map_getD (s : Shape τ) (hl : xs.length = s.rank) :
    s.minorToMajor.map (((inverse s.minorToMajor).map (xs.getD · 0)).getD · 0) = xs := by
  have hm : s.minorToMajor.map (((inverse s.minorToMajor).map (xs.getD · 0)).getD · 0) =
      (s.minorToMajor.map ((inverse s.minorToMajor).getD · 0)).map (xs.getD · 0) := by
    rw [List.map_map]
    refine List.map_congr_left fun d hd => ?_
    have hd : d < (inverse s.minorToMajor).length := by
      rw [(inverse_perm s.perm).length_eq, List.length_range]
      exact mem_minorToMajor.mp hd
    simp [hd]
  have hr := map_getD_range xs 0
  rw [hl, rank] at hr
  rw [hm, perm_map_inverse s.perm, hr]

theorem IsTranspose.eq (h : IsTranspose input dims output) :
    dims = (inverse output.minorToMajor).map (input.minorToMajor.getD · 0) := by
  have hl : dims.length = output.minorToMajor.length :=
    h.perm.length_eq.trans ((List.length_range.trans h.rank.symm).trans (length_eq_of_perm output.perm).symm)
  have hi := inverse_perm output.perm
  refine List.ext_getElem (by simp [inverse, hl]) fun d hd _ => ?_
  have hlt : output.minorToMajor.idxOf d < output.minorToMajor.length := by
    refine List.idxOf_lt_length_of_mem (mem_minorToMajor.mpr ?_)
    rw [Shape.rank, ← length_eq_of_perm output.perm, ← hl]
    exact hd
  simp [inverse, ← h.layout, hlt, hd]

theorem deduceTransposeDimensionsForBitcast_spec [DecidableEq τ] (input output : Shape τ) :
    ∃ r, deduceTransposeDimensionsForBitcast input output = .ok r ∧ ∀ dims, r = some dims ↔ IsTranspose input dims output := by
  rw [deduceTransposeDimensionsForBitcast]
  split_ifs with hr
  case pos =>
    refine ⟨none, rfl, fun dims => ⟨by simp, fun h => absurd h.rank hr⟩⟩
  case neg =>
    have hr : output.dimensions.length = input.dimensions.length := not_not.mp hr
    have hi : input.minorToMajor.length = output.rank := (length_eq_of_perm input.perm).trans hr.symm
    have hl : input.minorToMajor.length = (inverse output.minorToMajor).length := by
      rw [hi, (inverse_perm output.perm).length_eq, List.length_range, rank]
    have hp : ((inverse output.minorToMajor).map (input.minorToMajor.getD · 0)).Perm (List.range input.dimensions.length) :=
      map_getD_perm input.perm (hr ▸ inverse_perm output.perm)
    rw [inversePermutation_eq output.perm, composePermutations_eq hl]
    simp only [bind, Except.bind, permute_eq hp]
    split_ifs with hd
    case pos =>
      refine ⟨none, rfl, fun dims => ⟨by simp, fun h => absurd ?_ hd⟩⟩
      rw [h.dimensions, h.eq]
      refine List.map_congr_left fun d hd => ?_
      have hd := List.mem_range.mp (hp.mem_iff.mp hd)
      rw [dimension, List.getD_eq_getElem _ _ hd, List.getD_eq_getElem _ _ hd]
    case neg =>
      have hd := not_not.mp hd
      have ht : IsTranspose input ((inverse output.minorToMajor).map (input.minorToMajor.getD · 0)) output := by
        refine ⟨hp, hd.trans (List.map_congr_left fun d hd => ?_), map_inverse_map_getD output hi⟩
        have hd := List.mem_range.mp (hp.mem_iff.mp hd)
        rw [dimension, List.getD_eq_getElem _ _ hd, List.getD_eq_getElem _ _ hd]
      have ht' : IsTranspose input ((inverse output.minorToMajor).map (input.minorToMajor.getD · 0))
          (changeElementType output input.elementType) := ⟨ht.perm, ht.dimensions, ht.layout⟩
      rw [ht'.transposeIsBitcast_eq (.inr rfl)]
      refine ⟨_, rfl, fun dims => ⟨?_, fun h => congrArg some h.eq.symm⟩⟩
      rintro ⟨⟩
      exact ht

end Transpose

section Reshape

-- The index in the reshaped array of the element at an index.
def reshaped (fromDims toDims i : List Nat) : List Nat :=
  digits toDims (ravel fromDims i)

theorem reshape_position [DecidableEq τ] (h : reshapeIsBitcast a b true = true) (hx : InBounds a.dimensions xs) :
    InBounds b.dimensions (reshaped a.dimensions b.dimensions xs) ∧
      b.multidimensionalIndexToLinearIndex (reshaped a.dimensions b.dimensions xs) =
        a.multidimensionalIndexToLinearIndex xs := by
  obtain ⟨-, hn, hp⟩ := (reshapeIsBitcast_iff a b true).mp h
  have hk := hx.ravel_lt
  have hk' : ravel a.dimensions xs < b.dimensions.prod := by
    rwa [← elementsIn_eq, ← hn, elementsIn_eq]
  refine ⟨digits_inBounds hk', ?_⟩
  have := hp _ (elementsIn_eq ▸ hk)
  rw [physicalIndex, physicalIndex, hx.digits_ravel] at this
  exact this.symm

end Reshape

section Descending

-- The shape whose dimensions are in the order of the memory.
def normalized (s : Shape τ) : Shape τ :=
  makeShapeWithDescendingLayout s.elementType s.physicalDimensions

theorem normalized_rank : s.normalized.rank = s.rank := by
  simpa [normalized, makeShapeWithDescendingLayout, rank, physicalDimensions] using length_eq_of_perm s.perm

theorem normalized_minorToMajor : s.normalized.minorToMajor = reverseIota s.rank := by
  have := normalized_rank (s := s)
  rw [rank] at this
  rw [reverseIota, ← this]
  rfl

theorem map_major : ((List.range s.rank).map fun i => s.dimension (s.major i)) = s.physicalDimensions := by
  have hl := length_eq_of_perm s.perm
  refine List.ext_getElem (by simp [physicalDimensions, hl, rank]) fun i h₁ h₂ => ?_
  have hi : i < s.minorToMajor.length := by simpa [physicalDimensions] using h₂
  have hi' : s.minorToMajor.length - 1 - i < s.minorToMajor.length := by omega
  simp [physicalDimensions, major, hi']

theorem foldlM_overflowSafeMultiply (hp : ∀ d ∈ dims, 0 < d) : dims.foldlM overflowSafeMultiply n =
    if dims = [] ∨ n * dims.prod ≤ int64Max then .ok (n * dims.prod) else .error .invalidArgument := by
  induction dims generalizing n
  case nil => simp [pure, Except.pure]
  case cons d ds hi =>
    have hds (e) (he : e ∈ ds) := hp e (.tail _ he)
    have hle : n * d ≤ n * d * ds.prod := Nat.le_mul_of_pos_right _ (List.prod_pos hds)
    rw [List.foldlM_cons, overflowSafeMultiply, List.prod_cons, ← Nat.mul_assoc]
    by_cases h : n * d ≤ int64Max
    case neg =>
      have : ¬n * d * ds.prod ≤ int64Max := fun h' => h (hle.trans h')
      simp [h, this, bind, Except.bind, throw, throwThe, MonadExceptOf.throw]
    case pos =>
      rw [if_pos h]
      simp only [bind, Except.bind, pure, Except.pure, hi hds]
      cases ds <;> simp [h]

theorem exists_foldlM_overflowSafeMultiply : (∃ v, dims.foldlM overflowSafeMultiply n = .ok v) ↔
    ∀ i < dims.length, n * (dims.take (i + 1)).prod ≤ int64Max := by
  induction dims generalizing n
  case nil => simp [pure, Except.pure]
  case cons d ds hi =>
    rw [List.foldlM_cons, overflowSafeMultiply]
    split_ifs with h
    case pos =>
      refine Iff.trans hi ?_
      constructor
      case mp =>
        intro hds i hlt
        cases i
        case zero => simpa using h
        case succ i => simpa [Nat.mul_assoc] using hds i (by simpa using hlt)
      case mpr =>
        intro hds i hlt
        simpa [Nat.mul_assoc] using hds (i + 1) (by simpa using hlt)
    case neg =>
      refine ⟨fun ⟨v, hv⟩ => (nomatch hv), fun hds => absurd ?_ h⟩
      simpa using hds 0 (by simp)

theorem error_of_foldlM {e : Failure} (h : dims.foldlM overflowSafeMultiply n = .error e) : e = .invalidArgument := by
  induction dims generalizing n
  case nil => cases h
  case cons d ds hi =>
    rw [List.foldlM_cons, overflowSafeMultiply] at h
    split_ifs at h
    case pos => exact hi h
    case neg => cases h; rfl

variable {byteWidth : τ → Nat} {elementType : τ}

-- A validated shape without empty dimensions is validated in every order of its dimensions.
theorem makeValidatedShape_ok {t : Shape τ} (hp : ∀ d ∈ dims, 0 < d)
    (h : makeValidatedShapeWithDescendingLayout byteWidth elementType dims = .ok t) (hd : ds.Perm dims) :
    makeValidatedShapeWithDescendingLayout byteWidth elementType ds = .ok (makeShapeWithDescendingLayout elementType ds) := by
  have hn : dims = [] ↔ ds = [] := ⟨fun h => (h ▸ hd).eq_nil, fun h => (h ▸ hd).symm.eq_nil⟩
  rw [makeValidatedShapeWithDescendingLayout, foldlM_overflowSafeMultiply hp] at h
  rw [makeValidatedShapeWithDescendingLayout, foldlM_overflowSafeMultiply fun d hd' => hp d (hd.mem_iff.mp hd'),
    hd.prod_eq]
  split_ifs at h with ho
  case pos => rw [if_pos (ho.imp_left hn.mp)]; rfl
  case neg => cases h

theorem makeValidatedShape_error {e : Failure}
    (h : makeValidatedShapeWithDescendingLayout byteWidth elementType dims = .error e) : e = .invalidArgument := by
  rw [makeValidatedShapeWithDescendingLayout] at h
  cases hf : dims.foldlM overflowSafeMultiply (byteWidth elementType)
  case error e' =>
    rw [hf] at h
    obtain rfl := Except.error.inj h
    exact error_of_foldlM hf
  case ok => rw [hf] at h; cases h

theorem isTranspose_normalized : IsTranspose s s.minorToMajor.reverse s.normalized where
  perm       := s.reverse_perm
  dimensions := rfl
  layout     := by
    rw [normalized_minorToMajor, reverseIota, List.map_reverse, rank, ← length_eq_of_perm s.perm,
      ← List.length_reverse, map_getD_range, List.reverse_reverse]

theorem isTranspose_of_normalized :
    IsTranspose s.normalized ((inverse s.minorToMajor).map ((reverseIota s.rank).getD · 0)) s where
  perm       := by
    rw [normalized_rank]
    exact map_getD_perm (List.reverse_perm _) (inverse_perm s.perm)
  dimensions := by
    have hm (j : Nat) (hj : j < s.minorToMajor.length) :
        s.normalized.dimension ((reverseIota s.rank).getD j 0) = s.dimension (s.minorToMajor.getD j 0) := by
      have hl := length_eq_of_perm s.perm
      have hj' : s.minorToMajor.length - 1 - (s.minorToMajor.length - 1 - j) = j := by omega
      have hr : (reverseIota s.rank).getD j 0 = s.minorToMajor.length - 1 - j := by
        simp [reverseIota, rank, ← hl, hj]
      have hlt : s.minorToMajor.length - 1 - j < s.minorToMajor.reverse.length := by
        rw [List.length_reverse]
        omega
      have hg : s.minorToMajor.reverse[s.minorToMajor.length - 1 - j] = s.minorToMajor[j] := by
        simp [List.getElem_reverse, hj']
      have hm : s.minorToMajor.length - 1 - j < (s.minorToMajor.reverse.map s.dimension).length := by
        rwa [List.length_map]
      rw [hr, List.getD_eq_getElem _ _ hj, ← hg]
      exact (List.getD_eq_getElem _ _ hm).trans (List.getElem_map ..)
    have hd : ((inverse s.minorToMajor).map (s.minorToMajor.getD · 0)).map s.dimension = s.dimensions := by
      rw [inverse_map_perm s.perm]
      exact map_getD_range s.dimensions 1
    conv_lhs => rw [← hd]
    rw [List.map_map, List.map_map]
    refine List.map_congr_left fun j hj => (hm j ?_).symm
    rw [length_eq_of_perm s.perm]
    exact List.mem_range.mp ((inverse_perm s.perm).mem_iff.mp hj)
  layout     := by
    rw [map_inverse_map_getD s (by simp [reverseIota]), normalized_minorToMajor]

end Descending

section Faithful

namespace BitcastDecomposition

-- The index in the output of the element at an index of the input.
def target (input output : Shape τ) (i : List Nat) : BitcastDecomposition τ → List Nat
  | reshape        => reshaped input.dimensions output.dimensions i
  | transpose dims => transposed dims i
  | trt t          => transposed t.transpose2Dims (reshaped t.transpose1Shape.dimensions t.reshapeShape.dimensions
    (transposed t.transpose1Dims i))

-- The operations of the decomposition apply to the shapes.
def WellFormed (input output : Shape τ) : BitcastDecomposition τ → Prop
  | reshape        => input.elementsIn = output.elementsIn
  | transpose dims => dims.Perm (List.range input.rank) ∧ output.dimensions = dims.map input.dimension
  | trt t          =>
    (t.transpose1Dims.Perm (List.range input.rank) ∧
      t.transpose1Shape.dimensions = t.transpose1Dims.map input.dimension) ∧
    t.transpose1Shape.elementsIn = t.reshapeShape.elementsIn ∧
    t.transpose2Dims.Perm (List.range t.reshapeShape.rank) ∧
      output.dimensions = t.transpose2Dims.map t.reshapeShape.dimension

-- The operations do not move any element in the memory.
structure Faithful (input output : Shape τ) (d : BitcastDecomposition τ) : Prop where
  wellFormed : d.WellFormed input output
  elements   : ∀ i, InBounds input.dimensions i → InBounds output.dimensions (d.target input output i) ∧
    output.multidimensionalIndexToLinearIndex (d.target input output i) = input.multidimensionalIndexToLinearIndex i
  positions  : ∀ p < input.elementsIn,
    ∃ i, InBounds input.dimensions i ∧ input.multidimensionalIndexToLinearIndex i = p

end BitcastDecomposition

variable {byteWidth : τ → Nat}

-- The dimensions of the shape are validated.
def IsValidated (byteWidth : τ → Nat) (s : Shape τ) : Prop :=
  ∃ t, makeValidatedShapeWithDescendingLayout byteWidth s.elementType s.dimensions = .ok t

theorem normalized_elementsIn : s.normalized.elementsIn = s.elementsIn := by
  rw [elementsIn_eq, ← prod_physicalDimensions]
  rfl

theorem normalized_physicalIndex (hk : k < s.elementsIn) : s.normalized.physicalIndex k = k := by
  have hd : s.normalized.dimensions = s.physicalDimensions := rfl
  rw [physicalIndex, hd, normalized, makeShapeWithDescendingLayout_toLinearIndex length_digits,
    ravel_digits (prod_physicalDimensions ▸ hk)]

theorem reshapeIsBitcast_normalized [DecidableEq τ] (hn : input.elementsIn = output.elementsIn) :
    reshapeIsBitcast input.normalized output.normalized true = true := by
  apply (reshapeIsBitcast_iff _ _ _).mpr
  rw [normalized_elementsIn, normalized_elementsIn]
  exact ⟨.inl rfl, hn, fun k hk => (normalized_physicalIndex hk).trans (normalized_physicalIndex (hn ▸ hk)).symm⟩

theorem makeShape_cases (byteWidth : τ → Nat) (s : Shape τ) :
    makeShapeWithDescendingLayoutAndSamePhysicalLayout byteWidth s = .ok s.normalized ∨
      makeShapeWithDescendingLayoutAndSamePhysicalLayout byteWidth s = .error .invalidArgument := by
  rw [makeShapeWithDescendingLayoutAndSamePhysicalLayout, map_major]
  cases h : makeValidatedShapeWithDescendingLayout byteWidth s.elementType s.physicalDimensions
  case error e => exact .inr (congrArg _ (makeValidatedShape_error h))
  case ok t =>
    rw [makeValidatedShapeWithDescendingLayout] at h
    obtain ⟨_, _, ht⟩ := Fallible.bind_eq_ok.mp h
    exact .inl (congrArg _ (Except.ok.inj ht).symm)

-- No product of the byte width and leading dimensions in the order of the memory exceeds an int64.
def PhysicalSizeFits (byteWidth : τ → Nat) (s : Shape τ) : Prop :=
  ∀ i < s.rank, byteWidth s.elementType * (s.physicalDimensions.take (i + 1)).prod ≤ int64Max

theorem length_physicalDimensions : s.physicalDimensions.length = s.rank := by
  simpa [physicalDimensions, rank] using length_eq_of_perm s.perm

theorem makeShape_iff : makeShapeWithDescendingLayoutAndSamePhysicalLayout byteWidth s = .ok s.normalized ↔
    s.PhysicalSizeFits byteWidth := by
  rw [PhysicalSizeFits, ← length_physicalDimensions, ← exists_foldlM_overflowSafeMultiply,
    makeShapeWithDescendingLayoutAndSamePhysicalLayout, map_major, makeValidatedShapeWithDescendingLayout]
  constructor
  case mp =>
    intro h
    obtain ⟨v, hv, -⟩ := Fallible.bind_eq_ok.mp h
    exact ⟨v, hv⟩
  case mpr =>
    rintro ⟨v, hv⟩
    rw [hv]
    rfl

theorem makeShape_ok (hv : IsValidated byteWidth s) (hp : 0 < s.elementsIn) :
    makeShapeWithDescendingLayoutAndSamePhysicalLayout byteWidth s = .ok s.normalized := by
  obtain ⟨t, ht⟩ := hv
  rw [makeShapeWithDescendingLayoutAndSamePhysicalLayout, map_major]
  refine makeValidatedShape_ok (fun d hd => ?positive) ht ?perm
  case positive => exact Nat.pos_of_dvd_of_pos (List.dvd_prod hd) (elementsIn_eq ▸ hp)
  case perm =>
    refine (s.reverse_perm.map _).trans ?_
    rw [← List.Perm.congr_right (.of_eq (map_getD_range s.dimensions 1))]
    exact .refl _

-- Every validated array with an element meets the condition on its size in memory.
theorem physicalSizeFits_of_pos (hv : IsValidated byteWidth s) (hp : 0 < s.elementsIn) : s.PhysicalSizeFits byteWidth :=
  makeShape_iff.mp (makeShape_ok hv hp)

-- The decomposition through the normalized shapes.
def normalizedTrt (input output : Shape τ) : BitcastDecompositionTrt τ where
  transpose1Dims  := input.minorToMajor.reverse
  transpose1Shape := input.normalized
  reshapeShape    := output.normalized
  transpose2Dims  := (inverse output.minorToMajor).map ((reverseIota output.rank).getD · 0)

variable [DecidableEq τ]

theorem decomposeBitcastToTrt_eq (hn : input.elementsIn = output.elementsIn)
    (hi : makeShapeWithDescendingLayoutAndSamePhysicalLayout byteWidth input = .ok input.normalized)
    (ho : makeShapeWithDescendingLayoutAndSamePhysicalLayout byteWidth output = .ok output.normalized) :
    decomposeBitcastToTrt byteWidth input output = .ok (some (normalizedTrt input output)) := by
  have hc₁ : composePermutations input.minorToMajor (reverseIota input.rank) = .ok input.minorToMajor.reverse := by
    have hl : input.minorToMajor.length = input.rank := length_eq_of_perm input.perm
    rw [composePermutations_eq (by simpa [reverseIota]), reverseIota, ← hl, List.map_reverse, map_getD_range]
  have hc₂ : composePermutations (reverseIota output.rank) (inversePermutation output.minorToMajor) =
      .ok (normalizedTrt input output).transpose2Dims := by
    rw [inversePermutation_eq output.perm, composePermutations_eq]
    · rfl
    · rw [(inverse_perm output.perm).length_eq]
      simp [reverseIota, rank]
  have ht₁ : transposeIsBitcast input input.normalized input.minorToMajor.reverse false = .ok true :=
    isTranspose_normalized.transposeIsBitcast_eq (.inr rfl)
  have ht₂ : transposeIsBitcast output.normalized output (normalizedTrt input output).transpose2Dims false = .ok true :=
    isTranspose_of_normalized.transposeIsBitcast_eq (.inr rfl)
  rw [decomposeBitcastToTrt, if_neg (by simp [isDecomposableBitcast, hn]), hi, ho]
  simp only [bind, Except.bind, reshapeIsBitcast_normalized hn, hc₁, ht₁, hc₂, ht₂, check]
  rfl

namespace BitcastDecomposition

theorem faithful_reshape (h : reshapeIsBitcast input output true = true) : Faithful input output .reshape where
  wellFormed    := ((reshapeIsBitcast_iff input output true).mp h).2.1
  elements _ hi := reshape_position h hi
  positions _   := exists_index

omit [DecidableEq τ] in
theorem faithful_transpose (h : IsTranspose input dims output) : Faithful input output (.transpose dims) where
  wellFormed    := ⟨h.perm, h.dimensions⟩
  elements _ hi := ⟨h.inBounds hi, h.position⟩
  positions _   := exists_index

theorem faithful_trt (hn : input.elementsIn = output.elementsIn) :
    Faithful input output (.trt (normalizedTrt input output)) where
  wellFormed := by
    have h₁ := isTranspose_normalized (s := input)
    have h₂ := isTranspose_of_normalized (s := output)
    refine ⟨⟨h₁.perm, h₁.dimensions⟩, ?_, h₂.perm, h₂.dimensions⟩
    exact normalized_elementsIn.trans (hn.trans normalized_elementsIn.symm)
  elements i hi := by
    have h₁ := isTranspose_normalized (s := input)
    have h₂ := isTranspose_of_normalized (s := output)
    obtain ⟨hb, hp⟩ := reshape_position (reshapeIsBitcast_normalized hn) (h₁.inBounds hi)
    exact ⟨h₂.inBounds hb, h₂.position.trans (hp.trans h₁.position)⟩
  positions _ := exists_index

end BitcastDecomposition

theorem decomposeBitcastToTrt_iff {trt : BitcastDecompositionTrt τ} (hn : input.elementsIn = output.elementsIn) :
    decomposeBitcastToTrt byteWidth input output = .ok (some trt) ↔
      trt = normalizedTrt input output ∧ input.PhysicalSizeFits byteWidth ∧ output.PhysicalSizeFits byteWidth := by
  constructor
  case mpr =>
    rintro ⟨rfl, hi, ho⟩
    exact decomposeBitcastToTrt_eq hn (makeShape_iff.mpr hi) (makeShape_iff.mpr ho)
  case mp =>
    intro h
    obtain hi | hi := makeShape_cases byteWidth input
    case inr =>
      rw [decomposeBitcastToTrt, if_neg (by simp [isDecomposableBitcast, hn]), hi] at h
      cases h
    case inl =>
      obtain ho | ho := makeShape_cases byteWidth output
      case inr =>
        rw [decomposeBitcastToTrt, if_neg (by simp [isDecomposableBitcast, hn]), hi, ho] at h
        cases h
      case inl =>
        rw [decomposeBitcastToTrt_eq hn hi ho] at h
        cases h
        exact ⟨rfl, makeShape_iff.mp hi, makeShape_iff.mp ho⟩

-- The empty arrays are reshaped directly, so no size in memory is computed for them.
theorem decomposeBitcast_faithful (hi : IsValidated byteWidth input) (ho : IsValidated byteWidth output)
    (hn : input.elementsIn = output.elementsIn) :
    ∃ d, decomposeBitcast byteWidth input output = .ok (some d) ∧ d.Faithful input output := by
  rw [decomposeBitcast, if_neg (by simp [isDecomposableBitcast, hn])]
  split_ifs with hr
  case pos => exact ⟨_, rfl, BitcastDecomposition.faithful_reshape hr⟩
  case neg =>
    obtain ⟨r, hr', ht⟩ := deduceTransposeDimensionsForBitcast_spec input output
    rw [hr']
    cases r
    case some dims => exact ⟨_, rfl, BitcastDecomposition.faithful_transpose ((ht dims).mp rfl)⟩
    case none =>
      have hp : 0 < input.elementsIn := by
        apply Nat.pos_of_ne_zero
        intro hz
        exact hr ((reshapeIsBitcast_iff input output true).mpr ⟨.inl rfl, hn, by simp [hz]⟩)
      have hs := (decomposeBitcastToTrt_iff hn).mpr
        ⟨rfl, physicalSizeFits_of_pos hi hp, physicalSizeFits_of_pos ho (hn ▸ hp)⟩
      simp only [bind, Except.bind, hs]
      exact ⟨_, rfl, BitcastDecomposition.faithful_trt hn⟩

-- Both decompositions exist and do not move any element in the memory.
structure DecomposesFaithfully (byteWidth : τ → Nat) (input output : Shape τ) : Prop where
  decomposeBitcast      : ∃ d, decomposeBitcast byteWidth input output = .ok (some d) ∧ d.Faithful input output
  decomposeBitcastToTrt : ∃ trt, decomposeBitcastToTrt byteWidth input output = .ok (some trt) ∧
    (BitcastDecomposition.trt trt).Faithful input output

theorem decomposesFaithfully_iff (hi : IsValidated byteWidth input) (ho : IsValidated byteWidth output)
    (hn : input.elementsIn = output.elementsIn) :
    DecomposesFaithfully byteWidth input output ↔
      input.PhysicalSizeFits byteWidth ∧ output.PhysicalSizeFits byteWidth := by
  constructor
  case mp =>
    rintro ⟨-, _, ht, -⟩
    exact ((decomposeBitcastToTrt_iff hn).mp ht).2
  case mpr =>
    intro hs
    refine ⟨decomposeBitcast_faithful hi ho hn, _, (decomposeBitcastToTrt_iff hn).mpr ⟨rfl, hs⟩, ?_⟩
    exact BitcastDecomposition.faithful_trt hn

theorem decomposesFaithfully_cycle :
    DecomposesFaithfully (fun () => 4) ⟨(), [2, 3, 4], [0, 2, 1], by decide⟩ ⟨(), [6, 4], [0, 1], by decide⟩ :=
  have hi : IsValidated (fun () => 4) ⟨(), [2, 3, 4], [0, 2, 1], by decide⟩ := ⟨_, rfl⟩
  have ho : IsValidated (fun () => 4) ⟨(), [6, 4], [0, 1], by decide⟩ := ⟨_, rfl⟩
  (decomposesFaithfully_iff hi ho rfl).mpr ⟨by unfold PhysicalSizeFits; decide, by unfold PhysicalSizeFits; decide⟩

-- The product of the sizes overflows in the order of the memory, where the empty dimension is the last one.
theorem not_decomposesFaithfully :
    ¬∀ input output : Shape Unit, IsValidated (fun () => 4) input → IsValidated (fun () => 4) output →
      input.elementsIn = output.elementsIn → DecomposesFaithfully (fun () => 4) input output := by
  intro h
  have hi : IsValidated (fun () => 4) ⟨(), [0, 1099511627776, 1099511627776], [0, 2, 1], by decide⟩ := ⟨_, rfl⟩
  have ho : IsValidated (fun () => 4) ⟨(), [0], [0], by decide⟩ := ⟨_, rfl⟩
  obtain ⟨-, _, ht, -⟩ := h _ _ hi ho rfl
  have hs := ((decomposeBitcastToTrt_iff (by rfl)).mp ht).2.1
  exact absurd (hs 1 (by decide)) (by decide)

end Faithful

end Shape

namespace Shape

open View

variable {τ : Type} {a b : Shape τ} {dims : List Nat}

-- A permutation that is its own inverse.
def SelfInverse (dims : List Nat) : Prop :=
  dims.map (dims.getD · 0) = List.range dims.length

instance : DecidablePred SelfInverse :=
  fun _ => inferInstanceAs (Decidable (_ = _))

namespace IsTranspose

variable (h : IsTranspose a dims b)
include h

theorem length_eq : dims.length = a.rank := by
  simpa using h.perm.length_eq

-- The dimensions also transpose the output to the input if they are their own inverse.
theorem symm_layout_iff : a.minorToMajor.map (dims.getD · 0) = b.minorToMajor ↔ SelfInverse dims := by
  have hm : a.minorToMajor.map (dims.getD · 0) = b.minorToMajor.map fun d => dims.getD (dims.getD d 0) 0 := by
    rw [← h.layout, List.map_map]
    rfl
  have hs : SelfInverse dims ↔ ∀ d < b.rank, dims.getD (dims.getD d 0) 0 = d := by
    have he : dims.map (dims.getD · 0) = (List.range dims.length).map fun d => dims.getD (dims.getD d 0) 0 :=
      (congrArg (List.map (dims.getD · 0)) (map_getD_range dims 0).symm).trans List.map_map
    rw [SelfInverse, he, h.rank, ← h.length_eq]
    conv_lhs => rhs; rw [← List.map_id (List.range dims.length)]
    rw [List.map_inj_left]
    simp only [List.mem_range, id_eq]
  rw [hm, hs]
  constructor
  case mp =>
    intro he d hd
    exact List.map_inj_left.mp (he.trans (List.map_id _).symm) d (mem_minorToMajor.mpr hd)
  case mpr =>
    intro he
    exact (List.map_congr_left fun d hd => he d (mem_minorToMajor.mp hd)).trans (List.map_id _)

theorem transposeIsBitcast_symm [DecidableEq τ] :
    transposeIsBitcast b a dims true = .ok (decide (SelfInverse dims)) := by
  have hl : dims.length = a.minorToMajor.length := h.length_eq.trans (length_eq_of_perm a.perm).symm
  rw [transposeIsBitcast, if_neg (by simp), composePermutations_eq hl]
  exact congrArg Except.ok (decide_eq_decide.mpr h.symm_layout_iff)

end IsTranspose

section Agree

variable [DecidableEq τ] {byteWidth : τ → Nat}

theorem reshapeIsBitcast_of_equal (h : equalIgnoringElementType a b = true) : reshapeIsBitcast a b true = true := by
  obtain ⟨t, ds, l, hp⟩ := a
  obtain ⟨t', ds', l', hp'⟩ := b
  simp only [equalIgnoringElementType, decide_eq_true_eq] at h
  obtain ⟨rfl, rfl⟩ := h
  exact (reshapeIsBitcast_iff _ _ _).mpr ⟨.inl rfl, rfl, fun _ _ => rfl⟩

-- The deduced dimensions are checked against the reversed bitcast.
theorem isReshapeOrTransposeBitcast_spec (ht : a.elementType = b.elementType) :
    ∃ r, isReshapeOrTransposeBitcast a b false = .ok r ∧
      (r = true ↔ reshapeIsBitcast a b true = true ∨ ∃ dims, IsTranspose a dims b ∧ SelfInverse dims) := by
  rw [isReshapeOrTransposeBitcast, if_neg (by simp [sameElementType, ht])]
  split_ifs with he hr
  case pos => exact ⟨true, rfl, iff_of_true rfl (.inl (reshapeIsBitcast_of_equal he))⟩
  case pos => exact ⟨true, rfl, iff_of_true rfl (.inl hr)⟩
  case neg =>
    obtain ⟨r, hd, hi⟩ := deduceTransposeDimensionsForBitcast_spec a b
    rw [hd]
    cases r
    case none =>
      refine ⟨false, rfl, iff_of_false Bool.false_ne_true ?_⟩
      rintro (h | ⟨dims, h, -⟩)
      case inl => exact hr h
      case inr => exact absurd ((hi dims).mpr h) (by simp)
    case some dims =>
      have h := (hi dims).mp rfl
      simp only [bind, Except.bind, h.transposeIsBitcast_symm]
      refine ⟨_, rfl, ?_⟩
      rw [decide_eq_true_eq]
      refine ⟨fun hs => .inr ⟨dims, h, hs⟩, ?_⟩
      rintro (h' | ⟨dims', h', hs⟩)
      case inl => exact absurd h' hr
      case inr => exact h.eq.trans h'.eq.symm ▸ hs

-- The decomposition is a single reshape or a single transpose.
def BitcastDecomposition.IsSingle : BitcastDecomposition τ → Prop
  | reshape     => True
  | transpose _ => True
  | trt _       => False

omit [DecidableEq τ] in
theorem IsTranspose.elementsIn_eq (h : IsTranspose a dims b) : a.elementsIn = b.elementsIn := by
  have hm := (h.perm.map a.dimension).prod_eq
  rw [Shape.elementsIn_eq, Shape.elementsIn_eq, h.dimensions, hm]
  exact congrArg List.prod (map_getD_range a.dimensions 1).symm

theorem decomposeBitcast_isSingle_iff :
    (∃ d, decomposeBitcast byteWidth a b = .ok (some d) ∧ d.IsSingle) ↔
      reshapeIsBitcast a b true = true ∨ ∃ dims, IsTranspose a dims b := by
  by_cases hn : a.elementsIn = b.elementsIn
  case neg =>
    have hd : decomposeBitcast byteWidth a b = .ok none := by
      rw [decomposeBitcast, if_pos (by simp [isDecomposableBitcast, hn])]
      rfl
    refine iff_of_false (by simp [hd]) ?_
    rintro (hr | ⟨dims, h⟩)
    case inl => exact hn ((reshapeIsBitcast_iff a b true).mp hr).2.1
    case inr => exact hn h.elementsIn_eq
  case pos =>
    rw [decomposeBitcast, if_neg (by simp [isDecomposableBitcast, hn])]
    split_ifs with hr
    case pos => exact iff_of_true ⟨.reshape, rfl, trivial⟩ (.inl hr)
    case neg =>
      obtain ⟨r, hd, hi⟩ := deduceTransposeDimensionsForBitcast_spec a b
      rw [hd]
      cases r
      case some dims => exact iff_of_true ⟨.transpose dims, rfl, trivial⟩ (.inr ⟨dims, (hi dims).mp rfl⟩)
      case none =>
        refine iff_of_false ?_ (by simp [hr, ← hi])
        simp only [bind, Except.bind]
        rintro ⟨d, hd, hs⟩
        cases ht : decomposeBitcastToTrt byteWidth a b <;> rw [ht] at hd
        case error => cases hd
        case ok t =>
          obtain ⟨trt, -, rfl⟩ := Option.map_eq_some_iff.mp (Except.ok.inj hd)
          exact hs

-- Both functions find the same bitcasts.
def BitcastPredicatesAgree (byteWidth : τ → Nat) (a b : Shape τ) : Prop :=
  ∃ r, isReshapeOrTransposeBitcast a b false = .ok r ∧
    (r = true ↔ (∃ d, decomposeBitcast byteWidth a b = .ok (some d) ∧ d.IsSingle) ∨ a = b)

theorem bitcastPredicatesAgree_iff (ht : a.elementType = b.elementType) : BitcastPredicatesAgree byteWidth a b ↔
    reshapeIsBitcast a b true = true ∨ ∀ dims, IsTranspose a dims b → SelfInverse dims := by
  obtain ⟨r, hr, hi⟩ := isReshapeOrTransposeBitcast_spec ht
  have he : a = b → reshapeIsBitcast a b true = true := by
    rintro rfl
    exact reshapeIsBitcast_of_equal (by simp [equalIgnoringElementType])
  simp only [BitcastPredicatesAgree, hr, Except.ok.injEq, exists_eq_left', hi, decomposeBitcast_isSingle_iff]
  constructor
  case mp =>
    intro h
    refine or_iff_not_imp_left.mpr fun hn dims hd => ?_
    obtain ⟨dims', hd', hs⟩ := (h.mpr (.inl (.inr ⟨dims, hd⟩))).resolve_left hn
    exact hd.eq.trans hd'.eq.symm ▸ hs
  case mpr =>
    intro h
    constructor
    case mp => exact fun h' => .inl (h'.imp_right fun ⟨dims, hd, _⟩ => ⟨dims, hd⟩)
    case mpr =>
      rintro ((h' | ⟨dims, hd⟩) | h')
      case inl.inl => exact .inl h'
      case inl.inr => exact h.imp_right fun h => ⟨dims, hd, h dims hd⟩
      case inr     => exact .inl (he h')

theorem bitcastPredicatesAgree_iff_swap : BitcastPredicatesAgree (fun () => 4) ⟨(), [10, 5], [1, 0], by decide⟩
    ⟨(), [5, 10], [0, 1], by decide⟩ := by
  refine (bitcastPredicatesAgree_iff (by rfl)).mpr (.inr fun dims h => ?_)
  obtain rfl : dims = [1, 0] := h.eq
  decide

-- The dimensions of a transpose of three dimensions are not their own inverse.
theorem not_bitcastPredicatesAgree : ¬BitcastPredicatesAgree (fun () => 4) ⟨(), [2, 3, 4], [2, 1, 0], by decide⟩
    ⟨(), [3, 4, 2], [1, 0, 2], by decide⟩ := by
  rintro ⟨r, hr, hi⟩
  have hd : decomposeBitcast (fun () => 4) ⟨(), [2, 3, 4], [2, 1, 0], by decide⟩ ⟨(), [3, 4, 2], [1, 0, 2], by decide⟩ =
      .ok (some (.transpose [1, 2, 0])) := rfl
  obtain rfl : r = true := hi.mpr (.inl ⟨_, hd, trivial⟩)
  exact absurd (Except.ok.inj hr) (by decide)

end Agree
end Shape
