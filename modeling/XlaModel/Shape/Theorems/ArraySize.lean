import XlaModel.Shape.Theorems.LinearIndex

namespace AllocatedShape

open RowMajor Shape TiledShape NestedTiling

variable {τ : Type} {s : AllocatedShape τ} {tile : Tile} {shape indices ds ts : List Nat} {d k m n t : Nat}

section RoundUpTo

theorem le_roundUpTo (ht : 0 < t) : n ≤ roundUpTo n t := by
  rw [roundUpTo, ceilOfRatio]
  have hd := Nat.div_add_mod (n + t - 1) t
  have hm := Nat.mod_lt (n + t - 1) ht
  rw [Nat.mul_comm] at hd
  omega

theorem byteSize_le {byteSizeOfPrimitiveType : τ → Nat} (h : m ≤ n) :
    s.byteSize byteSizeOfPrimitiveType m ≤ s.byteSize byteSizeOfPrimitiveType n := by
  rw [byteSize, byteSize]
  split_ifs
  case pos =>
    have hm := Nat.mul_le_mul_right s.elementSizeInBits h
    exact Nat.div_le_div_right (by omega)
  case neg => exact Nat.mul_le_mul_right _ h

end RoundUpTo

section NumOfElements

theorem foldl_mul_eq_prod {α : Type} {f : α → Nat} {xs : List α} {a : Nat} :
    xs.foldl (fun a x => a * f x) a = a * (xs.map f).prod := by
  induction xs generalizing a
  case nil          => simp
  case cons x xs hi => rw [List.foldl_cons, hi, List.map_cons, List.prod_cons, Nat.mul_assoc]

theorem prod_zipWith_roundUpTo (h : ts.length ≤ ds.length) :
    (List.zipWith roundUpTo ds ts).prod = (List.zipWith ceilOfRatio ds ts).prod * ts.prod := by
  induction ts generalizing ds
  case nil => simp
  case cons t ts hi =>
    obtain ⟨d, ds, rfl⟩ := List.exists_cons_of_length_pos (Nat.zero_lt_of_lt h)
    rw [List.zipWith_cons_cons, List.zipWith_cons_cons, List.prod_cons, List.prod_cons, List.prod_cons,
      hi (Nat.le_of_succ_le_succ h), roundUpTo]
    ring

theorem prod_tileShape (h : tile.rank ≤ shape.length) : (tileShape tile shape).prod =
    (List.zipWith roundUpTo shape.reverse tile.dimensions.reverse).prod * (shape.reverse.drop tile.rank).prod := by
  rw [prod_zipWith_roundUpTo (by simpa [Tile.rank] using h), LinearIndex.zipWith_reverse h, List.prod_reverse,
    List.prod_reverse, List.drop_reverse, List.prod_reverse, tileShape, List.prod_append, List.prod_append]
  rw [Nat.mul_assoc, Nat.mul_comm]
  rfl

-- At least the elements of the tiled array are allocated.
theorem prod_tileShape_le_numOfElements : (tileShape tile (padShape tile s.physicalShape)).prod ≤ s.numOfElements tile := by
  have hk : tile.rank ≤ (padShape tile s.physicalShape).length := by
    rw [length_padShape]
    exact Nat.le_max_right _ _
  have hm : s.minorToMajor.length = s.rank := s.perm.length_eq.trans List.length_range
  have hr : (padShape tile s.physicalShape).reverse =
      s.minorToMajor.map s.dimension ++ List.replicate (tile.rank - s.rank) 1 := by
    rw [padShape, List.reverse_append, List.reverse_replicate, length_physicalShape, physicalShape, physicalDims,
      List.map_reverse, List.reverse_reverse]
  have hz : (List.range tile.rank).map (fun dim =>
      roundUpTo (if dim < s.rank then s.dimension (s.minorToMajor.getD dim 0) else 1)
        (tile.dimensions.getD (tile.rank - dim - 1) 0)) =
      List.zipWith roundUpTo (padShape tile s.physicalShape).reverse tile.dimensions.reverse := by
    refine List.ext_getElem ?length fun i hi _ => ?get
    case length => simpa [Tile.rank] using hk
    case get =>
      have hi : i < tile.dimensions.length := by simpa [Tile.rank] using hi
      have ht : tile.dimensions.getD (tile.rank - i - 1) 0 = tile.dimensions[tile.dimensions.length - 1 - i] := by
        rw [Tile.rank, Nat.sub_right_comm, List.getD_eq_getElem]
      simp only [hr, List.getElem_map, List.getElem_range, List.getElem_zipWith, List.getElem_reverse, ht]
      by_cases hlt : i < s.rank
      case pos => simp [hlt, hm]
      case neg =>
        rw [List.getElem_append_right (by rw [List.length_map, hm]; exact Nat.le_of_not_lt hlt), List.getElem_replicate,
          if_neg hlt]
  have hd : ((padShape tile s.physicalShape).reverse.drop tile.rank).prod =
      ((s.minorToMajor.drop tile.rank).map s.dimension).prod := by
    rw [hr, List.drop_append, List.prod_append, List.drop_replicate, List.prod_replicate, Nat.one_pow, Nat.mul_one,
      List.map_drop]
  rw [numOfElements, foldl_mul_eq_prod, foldl_mul_eq_prod, hz, Nat.one_mul, ← hd, ← prod_tileShape hk]
  split_ifs
  case pos => exact le_roundUpTo s.tailPaddingAlignmentInElements_pos
  case neg => exact le_rfl

end NumOfElements

section Buffer

variable {byteSizeOfPrimitiveType : τ → Nat}

-- The sizes that are computed for the buffer fit into an `int64_t`.
structure FitsInt64 (s : AllocatedShape τ) (byteSizeOfPrimitiveType : τ → Nat) (tile : Tile) : Prop where
  elements : s.numOfElements tile ≤ int64Max
  bits     : s.numOfElements tile * s.elementSizeInBits ≤ int64Max
  bytes    : s.numOfElements tile * byteSizeOfPrimitiveType s.elementType ≤ int64Max

-- The functions agree on the indices of the array and every element is in the buffer.
structure InBuffer (s : AllocatedShape τ) (byteSizeOfPrimitiveType : τ → Nat) (tile : Tile) : Prop where
  agrees    : ∀ indices, InBounds s.dimensions indices → s.linearIndex indices = s.linearIndexForNestedTiling indices
  largest   : ∃ last, s.linearIndex (s.dimensions.map (· - 1)) = some last ∧
    ∀ indices, InBounds s.dimensions indices → ∃ k, s.linearIndex indices = some k ∧ k ≤ last
  covered   : ∃ size, s.arrayDataSize byteSizeOfPrimitiveType = some size ∧ size ≤ s.arraySize byteSizeOfPrimitiveType ∧
    ∀ indices, InBounds s.dimensions indices → ∃ k, s.linearIndex indices = some k ∧
      s.byteSize byteSizeOfPrimitiveType (k + 1) ≤ size
  allocated : ∀ indices, InBounds s.dimensions indices → ∃ k, s.linearIndex indices = some k ∧ k < s.numOfElements tile
  fits      : ∀ indices, InBounds s.dimensions indices → ∃ k, s.linearIndex indices = some k ∧ k ≤ int64Max

theorem last_inBounds (hd : ∀ d ∈ ds, 0 < d) : InBounds ds (ds.map (· - 1)) := by
  rw [InBounds, List.forall₂_map_left_iff, List.forall₂_same]
  exact fun d h => Nat.sub_one_lt_of_lt (hd d h)

theorem le_last (h : InBounds ds indices) : List.Forall₂ (· ≤ ·) indices (ds.map (· - 1)) := by
  rw [List.forall₂_map_right_iff]
  exact List.Forall₂.imp (fun _ _ => Nat.le_sub_one_of_lt) h

-- The sizes follow from the order and the number of the allocated elements.
theorem inBuffer_of_le {last : Nat} (ht : s.tiles = [tile]) (hf : s.FitsInt64 byteSizeOfPrimitiveType tile)
    (ha : ∀ indices, InBounds s.dimensions indices → s.linearIndex indices = s.linearIndexForNestedTiling indices)
    (hl : s.linearIndex (s.dimensions.map (· - 1)) = some last)
    (hk : ∀ indices, InBounds s.dimensions indices → ∃ k, s.linearIndex indices = some k ∧ k ≤ last)
    (hn : last < s.numOfElements tile) : s.InBuffer byteSizeOfPrimitiveType tile where
  agrees  := ha
  largest := ⟨last, hl, hk⟩
  covered := by
    refine ⟨s.byteSize byteSizeOfPrimitiveType (last + 1), ?dataSize, ?size, fun indices hi => ?fits⟩
    case dataSize =>
      rw [arrayDataSize, hl]
      rfl
    case size =>
      rw [arraySize, ht]
      exact byteSize_le hn
    case fits =>
      obtain ⟨k, hi, hle⟩ := hk indices hi
      exact ⟨k, hi, byteSize_le (Nat.succ_le_succ hle)⟩
  allocated indices hi := by
    obtain ⟨k, hi, hle⟩ := hk indices hi
    exact ⟨k, hi, hle.trans_lt hn⟩
  fits indices hi := by
    obtain ⟨k, hi, hle⟩ := hk indices hi
    exact ⟨k, hi, (hle.trans hn.le).trans hf.elements⟩

-- If the array has a single dimension, the tile has a single row or the array fits into a row.
def RowTile (s : AllocatedShape τ) (tile : Tile) : Prop :=
  s.rank = 1 → (∀ t ∈ tile.dimensions.dropLast, t = 1) ∨ ∀ t ∈ tile.dimensions.getLast?, s.dimension 0 ≤ t

theorem expandedShape_prod_le (ht : s.tiles = [tile]) : s.expandedShape.prod ≤ s.numOfElements tile := by
  rw [expandedShape, ht]
  exact prod_tileShape_le_numOfElements

variable (ht : s.tiles = [tile]) (hd : ∀ d ∈ s.dimensions, 0 < d) (hp : ∀ t ∈ tile.dimensions, 0 < t)
variable (hf : s.FitsInt64 byteSizeOfPrimitiveType tile)
include ht hd hp hf

theorem inBuffer_of_rank_ne_one (hr : s.rank ≠ 1) : s.InBuffer byteSizeOfPrimitiveType tile := by
  have hl {indices : List Nat} (hi : InBounds s.dimensions indices) : s.rank = indices.length := (List.Forall₂.length_eq hi).symm
  have ha (indices : List Nat) (hi : InBounds s.dimensions indices) :
      s.linearIndex indices = s.linearIndexForNestedTiling indices := linearIndex_eq_linearIndexForNestedTiling ht hr (hl hi)
  have hp' : ∀ tile ∈ s.tiles, ∀ t ∈ tile.dimensions, 0 < t := by simpa [ht] using hp
  have hm := last_inBounds hd
  by_cases h₀ : s.rank = 0
  case pos =>
    have hz (indices : List Nat) (hi : InBounds s.dimensions indices) : s.linearIndex indices = some 0 := by
      rw [linearIndex, if_neg (not_not.mpr (hl hi)), if_pos h₀]
    have hn := Nat.zero_lt_of_lt (encode_inBounds hp' (physical_inBounds hm)).ravel_lt
    exact inBuffer_of_le ht hf ha (hz _ hm) (fun indices hi => ⟨0, hz indices hi, le_rfl⟩) (hn.trans_le (expandedShape_prod_le ht))
  case neg =>
    obtain ⟨last, hlast, hlt, -⟩ := linearIndexForNestedTiling_eq h₀ hm hp'
    refine inBuffer_of_le ht hf ha ((ha _ hm).trans hlast) (fun indices hi => ?_) (hlt.trans_le (expandedShape_prod_le ht))
    obtain ⟨k, k', hk, hk', hle⟩ := linearIndexForNestedTiling_le hp ht h₀ hi hm (le_last hi)
    obtain rfl : k' = last := Option.some.inj (hk'.symm.trans hlast)
    exact ⟨k, (ha _ hi).trans hk, hle⟩

omit hd hf in
theorem le_linearIndexForNestedTiling {e : Nat} (hr : s.rank = 1) :
    ∃ k, s.linearIndexForNestedTiling [e] = some k ∧ e ≤ k := by
  have hm : s.minorToMajor = [0] := by
    have hp : s.minorToMajor.Perm (List.range s.rank) := s.perm
    rw [hr] at hp
    exact List.perm_singleton.mp hp
  refine ⟨_, linearIndexForNestedTiling_eq_interleaved ht (by omega) hr, ?_⟩
  rw [hm]
  rcases List.eq_nil_or_concat tile.dimensions with hn | ⟨ts, t, hn⟩
  case inl => simp [hn, LinearIndex.interleaved]
  case inr =>
    rw [List.concat_eq_append] at hn
    have hts : 0 < ts.prod := List.prod_pos fun t ht => hp t (by simp [hn, ht])
    have hle := Nat.mul_le_mul_right (e / t) (Nat.le_mul_of_pos_left t hts)
    have he := Nat.div_add_mod e t
    simp only [hn, List.map_cons, List.map_nil, List.reverse_append, List.reverse_singleton, List.singleton_append,
      LinearIndex.interleaved, List.prod_append, List.prod_singleton, List.getD_cons_zero]
    omega

theorem inBuffer_of_agrees {d : Nat} (hs : s.dimensions = [d])
    (ha : ∀ e, e < d → s.linearIndex [e] = s.linearIndexForNestedTiling [e]) :
    s.InBuffer byteSizeOfPrimitiveType tile := by
  have hr : s.rank = 1 := by
    rw [Shape.rank, hs]
    rfl
  have hd₀ : 0 < d := hd d (by simp [hs])
  have hl (e : Nat) : s.linearIndex [e] = some e := by
    have hl : s.rank = [e].length := hr
    rw [linearIndex, if_neg (not_not.mpr hl), if_neg (by omega), if_pos hr]
    rfl
  have hi {indices : List Nat} (hi : InBounds s.dimensions indices) : ∃ e, indices = [e] ∧ e < d := by
    rw [hs] at hi
    obtain ⟨e, es, he, hes, rfl⟩ := List.forall₂_cons_right_iff.mp hi
    exact ⟨e, by rw [List.forall₂_nil_right_iff.mp hes], he⟩
  refine inBuffer_of_le ht hf ?agrees (by rw [hs]; exact hl (d - 1)) ?bounded ?covered
  case agrees =>
    intro indices h
    obtain ⟨e, rfl, he⟩ := hi h
    exact ha e he
  case bounded =>
    intro indices h
    obtain ⟨e, rfl, he⟩ := hi h
    exact ⟨e, hl e, Nat.le_sub_one_of_lt he⟩
  case covered =>
    obtain ⟨k, hk, hle⟩ := le_linearIndexForNestedTiling (e := d - 1) ht hp hr
    obtain ⟨k', hk', hlt, -⟩ := linearIndexForNestedTiling_eq (by omega) (last_inBounds hd) (by simpa [ht] using hp)
    rw [hs] at hk'
    obtain rfl : k = k' := Option.some.inj (hk.symm.trans hk')
    exact hle.trans_lt (hlt.trans_le (expandedShape_prod_le ht))

omit ht hd hf in
-- The rows of a tile have to follow each other unless a single row is enough.
theorem agrees_iff {d : Nat} : (∀ e, e < d → ∀ t ∈ tile.dimensions.getLast?, e = e / t * tile.dimensions.prod + e % t) ↔
    (∀ t ∈ tile.dimensions.dropLast, t = 1) ∨ ∀ t ∈ tile.dimensions.getLast?, d ≤ t := by
  rcases List.eq_nil_or_concat tile.dimensions with hn | ⟨ts, t, hn⟩
  case inl => simp [hn]
  case inr =>
    rw [List.concat_eq_append] at hn
    have ht : 0 < t := hp t (by simp [hn])
    simp only [hn, List.getLast?_concat, List.dropLast_concat, Option.mem_some_iff, forall_eq', List.prod_append,
      List.prod_singleton]
    refine ⟨fun h => ?mp, ?mpr⟩
    case mp =>
      by_contra! hc
      obtain ⟨⟨u, hu, hne⟩, hlt⟩ := hc
      -- The first element of the second row.
      have he := h t hlt
      rw [Nat.div_self ht, Nat.mod_self, Nat.one_mul, Nat.add_zero] at he
      have h₁ : ts.prod = 1 := Nat.eq_of_mul_eq_mul_right ht (he.symm.trans (Nat.one_mul t).symm)
      exact hne (Nat.dvd_one.mp (h₁ ▸ List.dvd_prod hu))
    case mpr =>
      rintro (hts | hle) e he
      case inl => rw [List.prod_eq_one hts, Nat.one_mul, Nat.div_add_mod']
      case inr => rw [Nat.div_eq_of_lt (by omega), Nat.zero_mul, Nat.zero_add, Nat.mod_eq_of_lt (by omega)]

-- The linear index of an array with a single dimension ignores the tile.
theorem inBuffer_iff : s.InBuffer byteSizeOfPrimitiveType tile ↔ s.RowTile tile := by
  by_cases hr : s.rank = 1
  case pos =>
    obtain ⟨d, hs⟩ := List.length_eq_one_iff.mp hr
    have ha : (∀ e, e < d → s.linearIndex [e] = s.linearIndexForNestedTiling [e]) ↔ s.RowTile tile := by
      rw [RowTile, imp_iff_right hr, Shape.dimension, hs]
      rw [List.getD_cons_zero, ← agrees_iff hp]
      exact forall₂_congr fun e _ => linearIndex_eq_linearIndexForNestedTiling_iff_of_rank_one ht hr
    refine ⟨fun h => ha.mp fun e he => h.agrees [e] ?_, fun h => inBuffer_of_agrees ht hd hp hf hs (ha.mpr h)⟩
    rw [hs]
    exact .cons he .nil
  case neg => exact iff_of_true (inBuffer_of_rank_ne_one ht hd hp hf hr) fun h => absurd h hr

end Buffer

-- The array `[300]` of bytes in tiles of `8` rows and `128` columns.
def vector : AllocatedShape Unit where
  toShape                            := makeShapeWithDescendingLayout () [300]
  tiles                              := [⟨[8, 128]⟩]
  tailPaddingAlignmentInElements     := 1
  tailPaddingAlignmentInElements_pos := le_rfl
  elementSizeInBits                  := 0

-- The array `[3, 100]` in the same tiles.
def matrix : AllocatedShape Unit where
  toShape                            := makeShapeWithDescendingLayout () [3, 100]
  tiles                              := [⟨[8, 128]⟩]
  tailPaddingAlignmentInElements     := 1
  tailPaddingAlignmentInElements_pos := le_rfl
  elementSizeInBits                  := 0

theorem inBuffer_iff_matrix : matrix.InBuffer (fun _ => 1) ⟨[8, 128]⟩ ↔ matrix.RowTile ⟨[8, 128]⟩ :=
  inBuffer_iff rfl (by decide) (by decide) ⟨by decide, by decide, by decide⟩

theorem not_inBuffer_vector : vector.linearIndex [128] = some 128 ∧ vector.linearIndexForNestedTiling [128] = some 1024 ∧
    ¬vector.InBuffer (fun _ => 1) ⟨[8, 128]⟩ := by
  have hl : vector.linearIndex [128] = some 128 := by decide
  have hn : vector.linearIndexForNestedTiling [128] = some 1024 := by decide
  refine ⟨hl, hn, fun h => ?_⟩
  have he := h.agrees [128] (.cons (by decide) .nil)
  rw [hl, hn] at he
  simp at he

end AllocatedShape
