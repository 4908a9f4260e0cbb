import XlaModel.Shape.Dimensions
import XlaModel.Shape.Theorems.DecomposeBitcast
import XlaModel.Shape.Theorems.NestedTiling

namespace TiledShape

open RowMajor View Shape NestedTiling

variable {τ : Type} {s s' : TiledShape τ} {permutation indices indices' : List Nat}

section LinearIndex

variable {tile : Tile} {tiles : List Tile} {shape xs ys : List Nat}

theorem tileIndices_injective (hr : tile.rank ≤ xs.length) (hl : xs.length = ys.length)
    (h : tileIndices tile xs = tileIndices tile ys) : xs = ys := by
  have hx : collapse ⟨xs, tile⟩ (tileIndices tile xs) = xs := collapse_tileIndices hr rfl
  have hy : collapse ⟨xs, tile⟩ (tileIndices tile ys) = ys := collapse_tileIndices (hl ▸ hr) hl
  rw [← hx, h, hy]

-- No two indices have the same tiles and the same positions in them.
theorem encode_injective (hx : xs.length = shape.length) (hy : ys.length = shape.length)
    (h : encode shape xs tiles = encode shape ys tiles) : xs = ys := by
  induction tiles generalizing shape xs ys
  case nil => exact h
  case cons tile tiles hi =>
    have hl {zs : List Nat} (hz : zs.length = shape.length) :
        (List.replicate (tile.rank - shape.length) 0 ++ zs).length = (padShape tile shape).length := by
      rw [length_padShape, List.length_append, List.length_replicate, hz]
      omega
    have hr : tile.rank ≤ (padShape tile shape).length := by
      rw [length_padShape]
      exact Nat.le_max_right _ _
    have ht {zs : List Nat} (hz : zs.length = shape.length) :
        (tileIndices tile (List.replicate (tile.rank - shape.length) 0 ++ zs)).length =
          (tileShape tile (padShape tile shape)).length := by
      rw [length_tileShape hr, length_tileIndices (hl hz ▸ hr), hl hz]
    have he := hi (ht hx) (ht hy) h
    exact List.append_cancel_left (tileIndices_injective (hl hx ▸ hr) ((hl hx).trans (hl hy).symm) he)

theorem length_physicalDims : s.physicalDims.length = s.rank := by
  simpa using physicalDims_perm.length_eq

theorem length_physicalShape : s.physicalShape.length = s.rank := by
  rw [physicalShape, List.length_map, length_physicalDims]

-- The linear index is a function of the physical sizes, the physical indices and the tiles.
theorem linearIndexForNestedTiling_congr (hs : s'.physicalShape = s.physicalShape) (ht : s'.tiles = s.tiles)
    (hl : indices'.length = indices.length)
    (hi : s'.physicalDims.map (indices'.getD · 0) = s.physicalDims.map (indices.getD · 0)) :
    s'.linearIndexForNestedTiling indices' = s.linearIndexForNestedTiling indices := by
  have hr : s'.rank = s.rank := by rw [← length_physicalShape, hs, length_physicalShape]
  rw [linearIndexForNestedTiling, linearIndexForNestedTiling, hr, hl, hs, ht, hi]

theorem linearIndexForNestedTiling_injective (hs : s'.physicalShape = s.physicalShape) (ht : s'.tiles = s.tiles)
    (hp : ∀ tile ∈ s.tiles, ∀ t ∈ tile.dimensions, 0 < t) (hi : InBounds s.dimensions indices)
    (hi' : InBounds s'.dimensions indices')
    (h : s'.linearIndexForNestedTiling indices' = s.linearIndexForNestedTiling indices) :
    s'.physicalDims.map (indices'.getD · 0) = s.physicalDims.map (indices.getD · 0) := by
  have hr : s'.rank = s.rank := by rw [← length_physicalShape, hs, length_physicalShape]
  by_cases hz : s.rank = 0
  case pos =>
    rw [List.eq_nil_of_length_eq_zero (length_physicalDims.trans hz),
      List.eq_nil_of_length_eq_zero (length_physicalDims.trans (hr.trans hz))]
    rfl
  case neg =>
    obtain ⟨k, hk, -, hd⟩ := linearIndexForNestedTiling_eq hz hi hp
    obtain ⟨k', hk', -, hd'⟩ := linearIndexForNestedTiling_eq (hr ▸ hz) hi' (ht ▸ hp)
    obtain rfl := Option.some.inj (hk'.symm.trans (h.trans hk))
    rw [expandedShape, hs, ht] at hd'
    have he := hd'.symm.trans hd
    refine encode_injective ?_ ?_ he
    · rw [List.length_map, length_physicalDims, hr, length_physicalShape]
    · rw [List.length_map, length_physicalDims, length_physicalShape]

end LinearIndex

theorem getD_lt_dimension {d : Nat} (hi : InBounds s.dimensions indices) (hd : d < s.rank) :
    indices.getD d 0 < s.dimension d := by
  have hl : indices.length = s.dimensions.length := List.Forall₂.length_eq hi
  have hd : d < s.dimensions.length := hd
  have := List.Forall₂.get hi (hl ▸ hd) hd
  simpa [dimension, hd, hl ▸ hd] using this

-- The result has the same sizes in the order of the memory, and every element keeps its position.
def KeepsPhysicalOrder (s : TiledShape τ) (permutation : List Nat) (result : Except Failure (TiledShape τ)) : Prop :=
  ∃ s', result = .ok s' ∧ s'.minorToMajor.map s'.dimension = s.minorToMajor.map s.dimension ∧
    ∀ indices, InBounds s.dimensions indices →
      s'.linearIndexForNestedTiling (transposed permutation indices) = s.linearIndexForNestedTiling indices

theorem setDimensionsAndMinorToMajor_eq {dimensions minorToMajor : List Nat} (hd : dimensions.length = s.rank)
    (hl : minorToMajor.Perm (List.range s.rank)) : ∃ s', s.setDimensionsAndMinorToMajor dimensions minorToMajor = .ok s' ∧
      s'.elementType = s.elementType ∧ s'.dimensions = dimensions ∧ s'.minorToMajor = minorToMajor ∧ s'.tiles = s.tiles := by
  rw [setDimensionsAndMinorToMajor, dif_pos (hd.symm ▸ hl)]
  exact ⟨_, rfl, rfl, rfl, rfl, rfl⟩

section Permutation

variable (hp : permutation.Perm (List.range s.rank))
include hp

theorem permuted_dimensions : permute s.dimensions permutation = .ok (permutation.map s.dimension) := by
  rw [permute_eq hp]
  refine congrArg Except.ok (List.map_congr_left fun d hd => ?_)
  have hd : d < s.dimensions.length := List.mem_range.mp (hp.mem_iff.mp hd)
  rw [dimension, List.getD_eq_getElem _ _ hd, List.getD_eq_getElem _ _ hd]

theorem length_permutation : permutation.length = s.rank := by
  simpa using hp.length_eq

theorem getD_permutation_lt {d : Nat} (hd : d < s.rank) : permutation.getD d 0 < s.rank := by
  have hl : d < permutation.length := (length_permutation hp).symm ▸ hd
  rw [List.getD_eq_getElem _ _ hl]
  exact List.mem_range.mp (hp.mem_iff.mp (List.getElem_mem hl))

theorem length_transposed (hi : InBounds s.dimensions indices) : (transposed permutation indices).length = indices.length := by
  rw [transposed, List.length_map, length_permutation hp]
  exact (List.Forall₂.length_eq hi).symm

theorem getD_transposed {d : Nat} (hd : d < s.rank) :
    (transposed permutation indices).getD d 0 = indices.getD (permutation.getD d 0) 0 := by
  have hl : d < permutation.length := (length_permutation hp).symm ▸ hd
  simp [transposed, hl]

theorem getD_getD_inverse {d : Nat} (hd : d < s.rank) : permutation.getD ((inverse permutation).getD d 0) 0 = d := by
  have hl : d < (inverse permutation).length := by
    rw [(inverse_perm hp).length_eq, List.length_range]
    exact hd
  have hr : ((inverse permutation).map (permutation.getD · 0)).getD d 0 = (List.range s.rank).getD d 0 :=
    congrArg (·.getD d 0) (inverse_map_perm hp)
  simpa [hl, hd] using hr

end Permutation

section PermuteDimensions

theorem keepsPhysicalOrder_of_isTranspose {result : Except Failure (TiledShape τ)} (hr : result = .ok s')
    (ht : s'.tiles = s.tiles) (h : IsTranspose s.toShape permutation s'.toShape) :
    KeepsPhysicalOrder s permutation result := by
  have hd {ds : List Nat} (hds : ∀ d ∈ ds, d < s'.rank) : ds.map s'.dimension = (ds.map (permutation.getD · 0)).map s.dimension := by
    rw [List.map_map]
    exact List.map_congr_left fun d hm => h.dimension (hds d hm)
  have hphys : s'.physicalDims.map (permutation.getD · 0) = s.physicalDims := by
    rw [physicalDims, List.map_reverse, h.layout, physicalDims]
  refine ⟨s', hr, ?layout, fun indices hi =>
      linearIndexForNestedTiling_congr ?physicalShape ht (length_transposed h.perm hi) ?indices⟩
  case layout => rw [hd fun d hm => mem_minorToMajor.mp hm, h.layout]
  case physicalShape =>
      rw [physicalShape, hd fun d hm => List.mem_range.mp (physicalDims_perm.mem_iff.mp hm), hphys, physicalShape]
  case indices =>
    rw [← hphys, List.map_map]
    refine List.map_congr_left fun d hm => getD_transposed h.perm (h.rank ▸ ?_)
    exact List.mem_range.mp (physicalDims_perm.mem_iff.mp hm)

theorem permuteDimensions_keepsPhysicalOrder [DecidableEq τ] (hp : permutation.Perm (List.range s.rank)) :
    KeepsPhysicalOrder s permutation (permuteDimensions permutation s) := by
  have hl := length_permutation hp
  have hinv : (inverse permutation).Perm (List.range s.rank) := inverse_perm hp
  have hlm : (permutation.map s.dimension).length = s.rank := by rw [List.length_map, hl]
  obtain ⟨s₁, h₁, he₁, hd₁, -, ht₁⟩ := setDimensionsAndMinorToMajor_eq hlm s.perm
  have hr₁ : s₁.rank = s.rank := by rw [rank, hd₁, List.length_map, hl]
  have hc : (inverse permutation).length = s.minorToMajor.length := hinv.length_eq.trans s.perm.length_eq.symm
  obtain ⟨s₂, h₂, he₂, hd₂, hm₂, ht₂⟩ := setDimensionsAndMinorToMajor_eq (rfl : s₁.dimensions.length = s₁.rank)
    (hr₁ ▸ map_getD_perm hinv s.perm)
  have ht : IsTranspose s.toShape permutation s₂.toShape := by
    refine ⟨hp, hd₂.trans hd₁, ?_⟩
    rw [hm₂, List.map_map]
    refine (List.map_congr_left fun d hd => ?_).trans (List.map_id _)
    exact getD_getD_inverse hp (mem_minorToMajor.mp hd)
  refine keepsPhysicalOrder_of_isTranspose ?_ (ht₂.trans ht₁) ht
  rw [permuteDimensions, permuteDimensionsIgnoringLayout, permuted_dimensions hp, inversePermutation_eq hp,
    composePermutations_eq hc]
  simp only [bind, Except.bind, h₁, h₂, ht.transposeIsBitcast_eq (.inr (he₁.symm.trans he₂.symm)), check]
  rfl

end PermuteDimensions

section ReorderLogicalDimensions

theorem reorderLogicalDimensions_eq (hp : permutation.Perm (List.range s.rank)) :
    ∃ s', s.reorderLogicalDimensions permutation = .ok s' ∧ s'.dimensions = permutation.map s.dimension ∧
      s'.minorToMajor = s.minorToMajor.map (permutation.getD · 0) ∧ s'.tiles = s.tiles := by
  have hl := length_permutation hp
  have hlm : (permutation.map s.dimension).length = s.rank := by rw [List.length_map, hl]
  obtain ⟨s', h, -, hd, hm, ht⟩ := setDimensionsAndMinorToMajor_eq hlm (map_getD_perm hp s.perm)
  refine ⟨s', ?_, hd, hm, ht⟩
  rw [reorderLogicalDimensions, permuted_dimensions hp]
  exact h

theorem unitIndex_getD {n d e : Nat} (he : e < n) : (unitIndex n d).getD e 0 = if e = d then 1 else 0 := by
  by_cases hd : e = d
  case pos =>
    subst hd
    simp [unitIndex, he]
  case neg => simp [unitIndex, he, hd, List.getElem_set_ne (Ne.symm hd)]

-- The permutation applied twice keeps the sizes, and the elements stay in place under it.
structure KeptTwice (s : TiledShape τ) (permutation : List Nat) : Prop where
  sizes    : ∀ d < s.rank, s.dimension (permutation.getD (permutation.getD d 0) 0) = s.dimension d
  elements : (∃ d < s.rank, s.dimension d = 0) ∨
    ∀ d < s.rank, s.dimension d ≠ 1 → permutation.getD (permutation.getD d 0) 0 = d

-- The layout is composed with the permutation instead of its inverse.
theorem reorderLogicalDimensions_keepsPhysicalOrder_iff (hp : permutation.Perm (List.range s.rank))
    (ht : ∀ tile ∈ s.tiles, ∀ t ∈ tile.dimensions, 0 < t) :
    KeepsPhysicalOrder s permutation (s.reorderLogicalDimensions permutation) ↔ KeptTwice s permutation := by
  obtain ⟨s', h, hd', hm', ht'⟩ := reorderLogicalDimensions_eq hp
  have hl := length_permutation hp
  have hr : s'.rank = s.rank := by rw [rank, hd', List.length_map, hl]
  have hdim {d : Nat} (hd : d < s.rank) : s'.dimension d = s.dimension (permutation.getD d 0) := by
    rw [dimension, hd']
    simp [hl, hd]
  have hsizes : s'.minorToMajor.map s'.dimension = s.minorToMajor.map s.dimension ↔
      ∀ d < s.rank, s.dimension (permutation.getD (permutation.getD d 0) 0) = s.dimension d := by
    rw [hm', List.map_map, List.map_inj_left]
    refine forall_congr' fun d => ?_
    rw [mem_minorToMajor]
    refine imp_congr_right fun hd => ?_
    rw [Function.comp_apply, hdim (getD_permutation_lt hp hd)]
  have hphysDims : s'.physicalDims = s.physicalDims.map (permutation.getD · 0) := by
    rw [physicalDims, hm', physicalDims, List.map_reverse]
  have hphys (hs : s'.minorToMajor.map s'.dimension = s.minorToMajor.map s.dimension) :
      s'.physicalShape = s.physicalShape := by
    rw [physicalShape, physicalDims, List.map_reverse, hs, physicalShape, physicalDims, List.map_reverse]
  have hidx (indices : List Nat) : s'.physicalDims.map ((transposed permutation indices).getD · 0) =
      s.physicalDims.map fun d => indices.getD (permutation.getD (permutation.getD d 0) 0) 0 := by
    rw [hphysDims, List.map_map]
    refine List.map_congr_left fun d hd => ?_
    exact getD_transposed hp (getD_permutation_lt hp (List.mem_range.mp (physicalDims_perm.mem_iff.mp hd)))
  constructor
  case mp =>
    rintro ⟨s'', hs'', hs, hi⟩
    obtain rfl := Except.ok.inj (h.symm.trans hs'')
    refine ⟨hsizes.mp hs, or_iff_not_imp_left.mpr fun hz d hd h₁ => ?_⟩
    have hpos (e : Nat) (he : e < s.rank) : 0 < s.dimension e := Nat.pos_of_ne_zero fun h₀ => hz ⟨e, he, h₀⟩
    have hprod : 0 < s.dimensions.prod := by
      rw [← map_getD_range s.dimensions 1]
      exact List.prod_pos fun n hn => by
        obtain ⟨e, he, rfl⟩ := List.mem_map.mp hn
        exact hpos e (List.mem_range.mp he)
    have hu : InBounds s.dimensions (unitIndex s.rank d) :=
      unitIndex_inBounds hprod (Nat.lt_of_le_of_ne (hpos d hd) (Ne.symm h₁))
    have hu' : InBounds s'.dimensions (transposed permutation (unitIndex s.rank d)) := by
      rw [hd', InBounds, transposed, List.forall₂_map_left_iff, List.forall₂_map_right_iff, List.forall₂_same]
      exact fun e he => getD_lt_dimension hu (List.mem_range.mp (hp.mem_iff.mp he))
    have hn := linearIndexForNestedTiling_injective (hphys hs) ht' ht hu hu' (hi _ hu)
    rw [hidx] at hn
    have hn := List.map_inj_left.mp hn d (physicalDims_perm.mem_iff.mpr (List.mem_range.mpr hd))
    rw [unitIndex_getD hd, if_pos rfl, unitIndex_getD (getD_permutation_lt hp (getD_permutation_lt hp hd))] at hn
    exact of_not_not fun hne => absurd hn (by rw [if_neg hne]; exact Nat.zero_ne_one)
  case mpr =>
    rintro ⟨hs, he⟩
    refine ⟨s', h, hsizes.mpr hs, fun indices hi => ?_⟩
    refine linearIndexForNestedTiling_congr (hphys (hsizes.mpr hs)) ht' (length_transposed hp hi) ?_
    rw [hidx]
    refine List.map_congr_left fun d hd => ?_
    have hd : d < s.rank := List.mem_range.mp (physicalDims_perm.mem_iff.mp hd)
    have hlt := getD_lt_dimension hi hd
    have hlt' := getD_lt_dimension hi (getD_permutation_lt hp (getD_permutation_lt hp hd))
    rw [hs d hd] at hlt'
    obtain ⟨e, he₀, he₁⟩ | he := he
    case inl =>
      have := getD_lt_dimension hi he₀
      omega
    case inr =>
      by_cases h₁ : s.dimension d = 1
      case pos => omega
      case neg => rw [he d hd h₁]

-- Both functions keep the order of the memory.
def ReorderingsKeepPhysicalOrder [DecidableEq τ] (s : TiledShape τ) (permutation : List Nat) : Prop :=
  KeepsPhysicalOrder s permutation (permuteDimensions permutation s) ∧
    KeepsPhysicalOrder s permutation (s.reorderLogicalDimensions permutation)

theorem reorderingsKeepPhysicalOrder_iff [DecidableEq τ] (hp : permutation.Perm (List.range s.rank))
    (ht : ∀ tile ∈ s.tiles, ∀ t ∈ tile.dimensions, 0 < t) :
    ReorderingsKeepPhysicalOrder s permutation ↔ KeptTwice s permutation := by
  rw [ReorderingsKeepPhysicalOrder, reorderLogicalDimensions_keepsPhysicalOrder_iff hp ht]
  exact and_iff_right (permuteDimensions_keepsPhysicalOrder hp)

-- The array `[2, 3, 4]` in row-major order.
def twentyFour : TiledShape Unit where
  toShape := makeShapeWithDescendingLayout () [2, 3, 4]
  tiles   := []

theorem reorderingsKeepPhysicalOrder_iff_swap : ReorderingsKeepPhysicalOrder twentyFour [2, 1, 0] :=
  (reorderingsKeepPhysicalOrder_iff (by decide) (by decide)).mpr ⟨by decide, .inr (by decide)⟩

-- A cycle of three dimensions is not its own inverse.
theorem not_reorderingsKeepPhysicalOrder : ¬ReorderingsKeepPhysicalOrder twentyFour [1, 2, 0] := by
  rintro ⟨-, s', hs, hm, -⟩
  have hr : (twentyFour.reorderLogicalDimensions [1, 2, 0]).map (fun s => s.minorToMajor.map s.dimension) =
      .ok [3, 2, 4] := rfl
  rw [hs] at hr
  have hm' : twentyFour.minorToMajor.map twentyFour.dimension = [4, 3, 2] := rfl
  have := (Except.ok.inj hr).symm.trans (hm.trans hm')
  exact absurd this (by decide)

end ReorderLogicalDimensions

end TiledShape
