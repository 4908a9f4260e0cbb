import XlaModel.Lib.PermutedView
import XlaModel.Shape.LinearIndex
import XlaModel.Shape.Theorems.DecomposeBitcast

namespace TiledShape

open RowMajor NestedTiling

variable {tile : Tile} {tiles : List Tile} {shape indices xs : List Nat} {k n r : Nat}

namespace NestedTiling

theorem linearize_eq (h : shape.length = indices.length) : linearize ⟨shape, indices⟩ = ravel shape indices := by
  suffices hs : (shape.zip indices).foldr (fun dim s => (s.1 + dim.2 * s.2, s.2 * dim.1)) (0, 1) =
      (ravel shape indices, shape.prod) from congrArg Prod.fst hs
  induction shape generalizing indices
  case nil => rfl
  case cons size shape hi =>
    cases indices
    case nil => cases h
    case cons index indices =>
      rw [List.zip_cons_cons, List.foldr_cons, hi (by simpa using h), ravel, List.prod_cons]
      simp only [Prod.mk.injEq]
      exact ⟨Nat.add_comm _ _, Nat.mul_comm _ _⟩

theorem delinearize_eq (h : k < shape.prod) : delinearize shape k = digits shape k := by
  suffices hs : shape.foldr (fun size s => (s.2 % size :: s.1, s.2 / size)) ([], k) =
      (digits shape (k % shape.prod), k / shape.prod) from (congrArg Prod.fst hs).trans (by rw [Nat.mod_eq_of_lt h])
  clear h
  induction shape
  case nil => simp [digits]
  case cons size shape hi =>
    have hm : k % (shape.prod * size) % shape.prod = k % shape.prod := Nat.mod_mul_right_mod _ _ _
    rw [List.foldr_cons, hi, digits, List.prod_cons, Nat.mul_comm size]
    simp only [hm, Nat.mod_mul_right_div_self, Nat.div_div_eq_div_mul]

theorem ceilOfRatio_lt {d e t : Nat} (ht : 0 < t) (he : e < d) : e / t < ceilOfRatio d t := by
  rw [ceilOfRatio, Nat.div_lt_iff_lt_mul ht]
  have := Nat.div_add_mod (d + t - 1) t
  have := Nat.mod_lt (d + t - 1) ht
  rw [Nat.mul_comm]
  omega

theorem length_tileShape (h : tile.rank ≤ shape.length) : (tileShape tile shape).length = shape.length + tile.rank := by
  simp only [tileShape, Tile.rank, List.length_append, List.length_take, List.length_zipWith, List.length_drop] at *
  omega

theorem length_tileIndices (h : tile.rank ≤ indices.length) :
    (tileIndices tile indices).length = indices.length + tile.rank := by
  simp only [tileIndices, Tile.rank, List.length_append, List.length_take, List.length_zipWith, List.length_drop] at *
  omega

theorem length_padShape : (padShape tile shape).length = max shape.length tile.rank := by
  simp [padShape]
  omega

section Suffix

variable {ts : List Nat}

-- The outer indices are below the rounded up quotients.
theorem div_inBounds (ht : ∀ t ∈ ts, 0 < t) (h : InBounds shape indices) :
    InBounds (List.zipWith ceilOfRatio shape ts) (List.zipWith (· / ·) indices ts) := by
  induction h generalizing ts
  case nil => exact .nil
  case cons e d es ds he _ hi =>
    cases ts
    case nil => exact .nil
    case cons t ts =>
      have ht := List.forall_mem_cons.mp ht
      exact .cons (ceilOfRatio_lt ht.1 he) (hi ht.2)

theorem mod_inBounds (ht : ∀ t ∈ ts, 0 < t) (hl : indices.length = ts.length) :
    InBounds ts (List.zipWith (· % ·) indices ts) := by
  induction ts generalizing indices
  case nil =>
    rw [List.zipWith_nil_right]
    exact .nil
  case cons t ts hi =>
    cases indices
    case nil => cases hl
    case cons e indices =>
      have ht := List.forall_mem_cons.mp ht
      exact .cons (Nat.mod_lt e ht.1) (hi ht.2 (by simpa using hl))

theorem div_mul_add_mod (hl : indices.length = ts.length) :
    List.zipWith (· + ·) (List.zipWith (· * ·) (List.zipWith (· / ·) indices ts) ts)
      (List.zipWith (· % ·) indices ts) = indices := by
  induction ts generalizing indices
  case nil =>
    obtain rfl := List.length_eq_zero_iff.mp hl
    rfl
  case cons t ts hi =>
    cases indices
    case nil => cases hl
    case cons e indices => simp [hi (by simpa using hl), Nat.div_add_mod']

end Suffix

theorem tileIndices_inBounds (ht : ∀ t ∈ tile.dimensions, 0 < t) (hr : tile.rank ≤ shape.length)
    (h : InBounds shape indices) : InBounds (tileShape tile shape) (tileIndices tile indices) := by
  have hl : indices.length = shape.length := List.Forall₂.length_eq h
  have hs : (indices.drop (shape.length - tile.rank)).length = tile.dimensions.length := by
    change _ = tile.rank
    rw [List.length_drop, hl]
    omega
  rw [tileShape, tileIndices, hl]
  exact List.rel_append (List.rel_append (List.forall₂_take _ h) (div_inBounds ht (List.forall₂_drop _ h)))
    (mod_inBounds ht hs)

-- The quotient and the remainder determine an index.
theorem collapse_tileIndices (h : tile.rank ≤ indices.length) (hl : shape.length = indices.length) :
    collapse ⟨shape, tile⟩ (tileIndices tile indices) = indices := by
  have hs : (indices.drop (indices.length - tile.rank)).length = tile.dimensions.length := by
    change _ = tile.rank
    rw [List.length_drop]
    omega
  have hp : (indices.take (indices.length - tile.rank)).length = indices.length - tile.rank :=
    List.length_take_of_le (Nat.sub_le _ _)
  rw [collapse, tileIndices, hl]
  simp only
  generalize indices.length - tile.rank = n at hs hp
  have ho : (List.zipWith (· / ·) (indices.drop n) tile.dimensions).length = tile.rank := by
    rw [List.length_zipWith, hs, Nat.min_self, Tile.rank]
  have hm : (List.zipWith (· % ·) (indices.drop n) tile.dimensions).length = tile.rank := by
    rw [List.length_zipWith, hs, Nat.min_self, Tile.rank]
  rw [List.append_assoc, List.take_left' hp, List.drop_left' hp, List.take_left' ho, ← List.drop_drop,
    List.drop_left' hp, List.drop_left' ho, List.take_of_length_le hm.le, div_mul_add_mod hs, List.take_append_drop]

theorem padShape_inBounds (h : InBounds shape indices) :
    InBounds (padShape tile shape) (List.replicate (tile.rank - shape.length) 0 ++ indices) := by
  rw [padShape]
  induction tile.rank - shape.length
  case zero      => exact h
  case succ n hi => exact .cons Nat.zero_lt_one hi

section Tiles

-- The indices of the tiled array.
def encode (shape indices : List Nat) (tiles : List Tile) : List Nat :=
  (tiles.foldl applyTile ⟨shape, indices⟩).currentIndices

theorem foldl_applyTile : tiles.foldl applyTile ⟨shape, indices⟩ =
    ⟨(expand shape tiles).1, encode shape indices tiles⟩ := by
  induction tiles generalizing shape indices
  case nil               => rfl
  case cons tile tiles h => exact h

theorem encode_inBounds (ht : ∀ tile ∈ tiles, ∀ t ∈ tile.dimensions, 0 < t) (h : InBounds shape indices) :
    InBounds (expand shape tiles).1 (encode shape indices tiles) := by
  induction tiles generalizing shape indices
  case nil                => exact h
  case cons tile tiles hi =>
    have ht := List.forall_mem_cons.mp ht
    refine hi ht.2 (tileIndices_inBounds ht.1 ?_ (padShape_inBounds h))
    rw [length_padShape]
    exact Nat.le_max_right _ _

-- No tile needs more dimensions than there are.
def Fits : Nat → List Nat → Prop
  | _, []      => True
  | n, r :: rs => r ≤ n ∧ Fits (n + r) rs

-- Only the first tile can need more dimensions than there are.
def FitsAfterFirst : Nat → List Nat → Prop
  | _, []      => True
  | n, r :: rs => Fits (max n r + r) rs

theorem padShape_eq (h : tile.rank ≤ shape.length) : padShape tile shape = shape := by
  rw [padShape, Nat.sub_eq_zero_of_le h]
  rfl

theorem foldr_collapse_of_fits (hl : shape.length = indices.length) (h : Fits shape.length (tiles.map Tile.rank)) :
    (expand shape tiles).2.foldr collapse (encode shape indices tiles) = indices := by
  induction tiles generalizing shape indices
  case nil                => rfl
  case cons tile tiles hi =>
    obtain ⟨hr, h⟩ := h
    have hp := padShape_eq hr
    have hz : List.replicate (tile.rank - shape.length) 0 ++ indices = indices := by
      rw [Nat.sub_eq_zero_of_le hr]
      rfl
    have hc : (expand (tileShape tile shape) tiles).2.foldr collapse
        (encode (tileShape tile shape) (tileIndices tile indices) tiles) = tileIndices tile indices := hi
      (by rw [length_tileShape hr, length_tileIndices (hl ▸ hr), hl]) (by rwa [length_tileShape hr])
    simp only [expand, hp, List.foldr_cons]
    rw [encode, List.foldl_cons, applyTile]
    simp only [hp, hz]
    rw [← encode, hc, collapse_tileIndices (hl ▸ hr) hl]

-- The padding of the first tile stays in front of the indices.
theorem foldr_collapse_of_fitsAfterFirst (hl : shape.length = indices.length)
    (h : FitsAfterFirst shape.length (tiles.map Tile.rank)) :
    ∃ n, (expand shape tiles).2.foldr collapse (encode shape indices tiles) = List.replicate n 0 ++ indices := by
  cases tiles
  case nil             => exact ⟨0, rfl⟩
  case cons tile tiles =>
    refine ⟨tile.rank - shape.length, ?_⟩
    have hp : (padShape tile shape).length = (List.replicate (tile.rank - shape.length) 0 ++ indices).length := by
      rw [List.length_append, List.length_replicate, length_padShape, ← hl]
      omega
    have hr : tile.rank ≤ (padShape tile shape).length := by
      rw [length_padShape]
      exact Nat.le_max_right _ _
    have hc : (expand (tileShape tile (padShape tile shape)) tiles).2.foldr collapse
        (encode (tileShape tile (padShape tile shape))
          (tileIndices tile (List.replicate (tile.rank - shape.length) 0 ++ indices)) tiles) =
        tileIndices tile (List.replicate (tile.rank - shape.length) 0 ++ indices) := foldr_collapse_of_fits
      (by rw [length_tileShape hr, length_tileIndices (hp ▸ hr), hp]) (by rwa [length_tileShape hr, length_padShape])
    rw [expand, List.foldr_cons, encode, List.foldl_cons, applyTile, ← encode, hc, collapse_tileIndices (hp ▸ hr) hp]

end Tiles

section Scatter

variable {dims logical : List Nat} {x : Nat → Nat} {d : Nat}

abbrev scatter (logical : List Nat) (values : List (Nat × Nat)) : List Nat :=
  values.foldl (fun logical (dim, index) => logical.set dim index) logical

theorem length_scatter {values : List (Nat × Nat)} : (scatter logical values).length = logical.length := by
  induction values generalizing logical
  case nil            => rfl
  case cons v vs hi => exact hi.trans List.length_set

theorem getElem?_scatter (hd : d < logical.length) :
    (scatter logical (dims.zip (dims.map x)))[d]? = if d ∈ dims then some (x d) else logical[d]? := by
  induction dims generalizing logical
  case nil               => simp [scatter]
  case cons dim dims hi =>
    rw [List.map_cons, List.zip_cons_cons, scatter, List.foldl_cons, ← scatter, hi (by simpa using hd)]
    by_cases he : dim = d
    case pos => simp [he, hd]
    case neg => simp [List.getElem?_set_ne he, Ne.symm he]

theorem scatter_eq (h : dims.Perm (List.range n)) :
    scatter (List.replicate n 0) (dims.zip (dims.map x)) = (List.range n).map x := by
  refine List.ext_getElem? fun d => ?_
  by_cases hd : d < n
  case pos =>
    rw [getElem?_scatter (by simpa using hd), if_pos (h.mem_iff.mpr (List.mem_range.mpr hd))]
    simp [hd]
  case neg => rw [List.getElem?_eq_none (by simp [length_scatter]; omega), List.getElem?_eq_none (by simp; omega)]

theorem scatter_zero (h : ∀ v ∈ xs, v = 0) : scatter (List.replicate n 0) (dims.zip xs) = List.replicate n 0 := by
  induction xs generalizing dims
  case nil => rw [List.zip_nil_right, scatter, List.foldl_nil]
  case cons v xs hi =>
    have h := List.forall_mem_cons.mp h
    cases dims
    case nil           => rfl
    case cons dim dims =>
      rw [List.zip_cons_cons, scatter, List.foldl_cons]
      simp only [h.1]
      rw [List.set_replicate_self, ← scatter, hi h.2]

end Scatter

end NestedTiling

section RoundTrips

variable {τ : Type} {s : TiledShape τ}

-- The functions are inverse to each other on the indices of the array.
def RoundTrips (s : TiledShape τ) : Prop :=
  ∀ indices, InBounds s.dimensions indices → ∃ k, s.linearIndexForNestedTiling indices = some k ∧
    s.delinearizeIndexForNestedTiling k = indices ∧ k < s.expandedShape.prod

theorem physicalDims_perm : s.physicalDims.Perm (List.range s.rank) :=
  s.minorToMajor.reverse_perm.trans s.perm

theorem physical_inBounds (h : InBounds s.dimensions indices) :
    InBounds s.physicalShape (s.physicalDims.map (indices.getD · 0)) := by
  rw [InBounds, physicalShape, List.forall₂_map_left_iff, List.forall₂_map_right_iff, List.forall₂_same]
  intro d hd
  have hd : d < s.dimensions.length := List.mem_range.mp (physicalDims_perm.mem_iff.mp hd)
  have hl : indices.length = s.dimensions.length := List.Forall₂.length_eq h
  have := List.Forall₂.get h (hl ▸ hd) hd
  simpa [Shape.dimension, hd, hl ▸ hd] using this

theorem linearIndexForNestedTiling_eq (hr : s.rank ≠ 0) (h : InBounds s.dimensions indices)
    (ht : ∀ tile ∈ s.tiles, ∀ t ∈ tile.dimensions, 0 < t) :
    ∃ k, s.linearIndexForNestedTiling indices = some k ∧ k < s.expandedShape.prod ∧
      delinearize s.expandedShape k = encode s.physicalShape (s.physicalDims.map (indices.getD · 0)) s.tiles := by
  have hl : s.rank = indices.length := (List.Forall₂.length_eq h).symm
  have hb := encode_inBounds ht (physical_inBounds h)
  refine ⟨_, ?linear, hb.ravel_lt, ?delinear⟩
  case linear =>
    rw [linearIndexForNestedTiling, if_neg (not_not.mpr hl), if_neg hr, foldl_applyTile,
      linearize_eq (List.Forall₂.length_eq hb).symm]
  case delinear => rw [expandedShape, delinearize_eq hb.ravel_lt, hb.digits_ravel]

theorem roundTrips_of_rank_eq_zero (hr : s.rank = 0) (ht : ∀ tile ∈ s.tiles, ∀ t ∈ tile.dimensions, 0 < t) :
    s.RoundTrips := by
  intro indices h
  have hl : s.rank = indices.length := (List.Forall₂.length_eq h).symm
  have hb := encode_inBounds ht (physical_inBounds h)
  refine ⟨0, ?linear, ?delinear, Nat.zero_lt_of_lt hb.ravel_lt⟩
  case linear => rw [linearIndexForNestedTiling, if_neg (not_not.mpr hl), if_pos hr]
  case delinear => rw [delinearizeIndexForNestedTiling, if_pos hr, List.length_eq_zero_iff.mp (hl.symm.trans hr)]

theorem roundTrips_of_fitsAfterFirst (ht : ∀ tile ∈ s.tiles, ∀ t ∈ tile.dimensions, 0 < t)
    (hf : FitsAfterFirst s.rank (s.tiles.map Tile.rank)) : s.RoundTrips := by
  intro indices h
  by_cases hr : s.rank = 0
  case pos => exact roundTrips_of_rank_eq_zero hr ht indices h
  case neg =>
    obtain ⟨k, hk, hlt, hd⟩ := linearIndexForNestedTiling_eq hr h ht
    have hp : s.physicalDims.length = s.rank := by simpa using physicalDims_perm.length_eq
    have hs : s.physicalShape.length = s.rank := by rw [physicalShape, List.length_map, hp]
    obtain ⟨n, hn⟩ : ∃ n, (expand s.physicalShape s.tiles).2.foldr collapse
        (encode s.physicalShape (s.physicalDims.map (indices.getD · 0)) s.tiles) =
        List.replicate n 0 ++ s.physicalDims.map (indices.getD · 0) := foldr_collapse_of_fitsAfterFirst
      (by rw [physicalShape, List.length_map, List.length_map])
      (by rwa [hs])
    refine ⟨k, hk, ?_, hlt⟩
    rw [expandedShape] at hd
    rw [delinearizeIndexForNestedTiling, if_neg hr]
    simp only [hd, hn]
    have hl : s.rank = indices.length := (List.Forall₂.length_eq h).symm
    have ho : (List.replicate n 0 ++ s.physicalDims.map (indices.getD · 0)).length - s.rank = n := by
      rw [List.length_append, List.length_replicate, List.length_map, hp, Nat.add_sub_cancel]
    rw [ho, List.drop_left' List.length_replicate, ← scatter, scatter_eq physicalDims_perm, hl, View.map_getD_range]

end RoundTrips

section Unit

-- The index whose only entry that is not zero is a one at the end.
def lastUnit (n : Nat) : List Nat :=
  List.replicate (n - 1) 0 ++ [1]

theorem length_lastUnit (h : 0 < n) : (lastUnit n).length = n := by
  simp [lastUnit]
  omega

theorem padded_lastUnit (h : 0 < n) : List.replicate (r - n) 0 ++ lastUnit n = lastUnit (max n r) := by
  rw [lastUnit, lastUnit, ← List.append_assoc, ← List.replicate_add]
  congr 2
  omega

-- The sizes that are one, except for a two at the end.
def lastTwo : Nat → List Nat
  | 0     => []
  | n + 1 => List.replicate n 1 ++ [2]

def lastTwoTile (r : Nat) : Tile where
  dimensions := lastTwo r

theorem length_lastTwo : (lastTwo n).length = n := by
  cases n <;> simp [lastTwo]

theorem rank_lastTwoTile : (lastTwoTile r).rank = r :=
  length_lastTwo

theorem padShape_lastTwo (h : 0 < n) : padShape (lastTwoTile r) (lastTwo n) = lastTwo (max n r) := by
  obtain ⟨n, rfl⟩ := Nat.exists_eq_add_one.mpr h
  obtain ⟨m, hm⟩ : ∃ m, max (n + 1) r = m + 1 := Nat.exists_eq_add_one.mpr (by omega)
  rw [padShape, rank_lastTwoTile, length_lastTwo, hm, lastTwo, lastTwo, ← List.append_assoc, ← List.replicate_add]
  congr 2
  omega

theorem tileShape_lastTwo (h : 0 < n) (hr : r ≤ n) : tileShape (lastTwoTile r) (lastTwo n) = lastTwo (n + r) := by
  obtain ⟨n, rfl⟩ := Nat.exists_eq_add_one.mpr h
  rw [tileShape, rank_lastTwoTile, length_lastTwo]
  cases r
  case zero   => simp [lastTwoTile, lastTwo]
  case succ r =>
    have hs : lastTwo (n + 1) = List.replicate (n - r) 1 ++ (List.replicate r 1 ++ [2]) := by
      rw [lastTwo, ← List.append_assoc, ← List.replicate_add, Nat.sub_add_cancel (Nat.le_of_succ_le_succ hr)]
    have hl : n + 1 - (r + 1) = (List.replicate (n - r) 1).length := by simp
    rw [hs, hl, List.take_left, List.drop_left, lastTwoTile, lastTwo, List.zipWith_append (by simp)]
    have hn : n + 1 + (r + 1) = n - r + (r + 1) + r + 1 := by omega
    rw [hn, lastTwo, List.replicate_add, List.replicate_add, List.replicate_succ' (n := r)]
    simp [ceilOfRatio]

theorem expand_lastTwo (ranks : List Nat) (h : 0 < n) :
    ∃ m, 0 < m ∧ (expand (lastTwo n) (ranks.map lastTwoTile)).1 = lastTwo m := by
  induction ranks generalizing n
  case nil => exact ⟨n, h, rfl⟩
  case cons r ranks hi =>
    simp only [List.map_cons, expand]
    rw [padShape_lastTwo h, tileShape_lastTwo (by omega) (Nat.le_max_right _ _)]
    exact hi (by omega)

theorem pos_of_mem_lastTwo {t : Nat} (h : t ∈ lastTwo n) : 0 < t := by
  cases n
  case zero   => simp [lastTwo] at h
  case succ n =>
    cases List.mem_append.mp h
    case inl h => exact (List.eq_of_mem_replicate h).symm ▸ one_pos
    case inr h => exact (List.mem_singleton.mp h).symm ▸ two_pos

theorem prod_lastTwo (h : 0 < n) : (lastTwo n).prod = 2 := by
  obtain ⟨n, rfl⟩ := Nat.exists_eq_add_one.mpr h
  simp [lastTwo]

theorem take_lastUnit {m : Nat} (h : m < n) : (lastUnit n).take m = List.replicate m 0 := by
  rw [lastUnit, List.take_append_of_le_length (by simp; omega), List.take_replicate]
  congr 1
  omega

theorem tileIndices_lastUnit (h : 0 < n) (hr : r ≤ n) :
    tileIndices (lastTwoTile r) (lastUnit n) = lastUnit (n + r) := by
  rw [tileIndices, rank_lastTwoTile, length_lastUnit h]
  cases r
  case zero   => simp [lastTwoTile, lastTwo, List.take_of_length_le (length_lastUnit h).le]
  case succ r =>
    have hn : n = n - (r + 1) + r + 1 := by omega
    have ht : (lastUnit n).take (n - (r + 1)) = List.replicate (n - (r + 1)) 0 := take_lastUnit (by omega)
    have hd : (lastUnit n).drop (n - (r + 1)) = List.replicate r 0 ++ [1] := by
      rw [lastUnit, List.drop_append_of_le_length (by simp; omega), List.drop_replicate]
      congr 2
      omega
    simp only [ht, hd, lastTwoTile, lastTwo]
    rw [List.zipWith_append (by simp), List.zipWith_append (by simp)]
    simp only [List.zipWith_replicate, Nat.zero_div, Nat.zero_mod, lastUnit]
    have hr : n + (r + 1) - 1 = n - (r + 1) + (r + 1) + r := by omega
    rw [hr, List.replicate_add, List.replicate_add, List.replicate_succ' (n := r)]
    simp

theorem collapse_zero (h : ∀ v ∈ indices.take (shape.length + tile.rank), v = 0) (hr : tile.rank ≤ shape.length) :
    ∀ v ∈ collapse ⟨shape, tile⟩ indices, v = 0 := by
  have hg (i : Nat) (hi : i < indices.length) (hi' : i < shape.length + tile.rank) : indices[i] = 0 :=
    h _ (List.mem_take_iff_getElem.mpr ⟨i, by omega, rfl⟩)
  intro v hv
  rw [collapse, List.mem_append] at hv
  obtain hv | hv := hv
  case inl =>
    obtain ⟨i, hi, rfl⟩ := List.mem_take_iff_getElem.mp hv
    simp only at hi
    exact hg i _ (by omega)
  case inr =>
    obtain ⟨i, hi, rfl⟩ := List.mem_iff_getElem.mp hv
    simp only [List.length_zipWith, List.length_take, List.length_drop] at hi
    simp only [List.getElem_zipWith, List.getElem_take, List.getElem_drop]
    rw [hg _ _ (by omega), hg _ _ (by omega), Nat.zero_mul]

section Decode

variable {ranks : List Nat}

-- The result of the inverse before the dimensions are brought into their logical order.
abbrev decode (shape : List Nat) (ranks : List Nat) : List Nat :=
  (expand shape (ranks.map lastTwoTile)).2.foldr collapse (encode shape (lastUnit shape.length) (ranks.map lastTwoTile))

theorem decode_cons (h : 0 < shape.length) :
    decode shape (r :: ranks) = collapse ⟨padShape (lastTwoTile r) shape, lastTwoTile r⟩
      (decode (tileShape (lastTwoTile r) (padShape (lastTwoTile r) shape)) ranks) := by
  have hp : (padShape (lastTwoTile r) shape).length = max shape.length r := by rw [length_padShape, rank_lastTwoTile]
  have hr : (lastTwoTile r).rank ≤ (padShape (lastTwoTile r) shape).length := by
    rw [hp, rank_lastTwoTile]
    exact Nat.le_max_right _ _
  have ht : tileIndices (lastTwoTile r) (List.replicate ((lastTwoTile r).rank - shape.length) 0 ++ lastUnit shape.length) =
      lastUnit (max shape.length r + r) := by
    rw [rank_lastTwoTile, padded_lastUnit h, tileIndices_lastUnit (by omega) (Nat.le_max_right _ _)]
  simp only [decode, List.map_cons, expand, List.foldr_cons, length_tileShape hr, hp, rank_lastTwoTile]
  rw [encode, List.foldl_cons, applyTile, ht, ← encode]

theorem fits_iff : Fits n ranks ↔ ranks.headD 0 ≤ n ∧ FitsAfterFirst n ranks := by
  cases ranks
  case nil => simp [Fits, FitsAfterFirst]
  case cons r ranks =>
    rw [Fits, FitsAfterFirst, List.headD_cons]
    refine and_congr_right fun h => ?_
    rw [Nat.max_eq_left h]

-- If a later tile is padded, then nothing is left of the index.
theorem decode_spec (h : 0 < shape.length) :
    (FitsAfterFirst shape.length ranks → decode shape ranks = lastUnit (max shape.length (ranks.headD 0))) ∧
    (¬FitsAfterFirst shape.length ranks → ∀ v ∈ decode shape ranks, v = 0) := by
  induction ranks generalizing shape
  case nil => simp [FitsAfterFirst, decode, expand, encode]
  case cons r ranks hi =>
    have hp : (padShape (lastTwoTile r) shape).length = max shape.length r := by rw [length_padShape, rank_lastTwoTile]
    have hr : (lastTwoTile r).rank ≤ (padShape (lastTwoTile r) shape).length := by
      rw [hp, rank_lastTwoTile]
      exact Nat.le_max_right _ _
    have hl : (tileShape (lastTwoTile r) (padShape (lastTwoTile r) shape)).length = max shape.length r + r := by
      rw [length_tileShape hr, hp, rank_lastTwoTile]
    have hi := @hi (tileShape (lastTwoTile r) (padShape (lastTwoTile r) shape)) (by omega)
    rw [hl] at hi
    rw [decode_cons h, FitsAfterFirst, fits_iff, List.headD_cons]
    generalize decode (tileShape (lastTwoTile r) (padShape (lastTwoTile r) shape)) ranks = decoded at hi
    have hzero (hz : ∀ v ∈ decoded.take (max shape.length r + r), v = 0) :
        ∀ v ∈ collapse ⟨padShape (lastTwoTile r) shape, lastTwoTile r⟩ decoded, v = 0 :=
      collapse_zero (by rwa [hp, rank_lastTwoTile]) hr
    by_cases hf : FitsAfterFirst (max shape.length r + r) ranks
    case neg =>
      simp only [hf, and_false, false_implies, not_false_eq_true, true_implies, true_and]
      exact hzero fun v hv => hi.2 hf v (List.mem_of_mem_take hv)
    case pos =>
      obtain rfl := hi.1 hf
      by_cases hle : ranks.headD 0 ≤ max shape.length r + r
      case pos =>
        simp only [hf, hle, and_self, true_implies, not_true_eq_false, false_implies, and_true]
        rw [Nat.max_eq_left hle, ← tileIndices_lastUnit (by omega) (Nat.le_max_right _ _)]
        exact collapse_tileIndices (by rw [rank_lastTwoTile, length_lastUnit (by omega)]; exact Nat.le_max_right _ _)
          (by rw [hp, length_lastUnit (by omega)])
      case neg =>
        simp only [hle, false_and, false_implies, not_false_eq_true, true_implies, true_and]
        refine hzero fun v hv => ?_
        rw [take_lastUnit (by omega)] at hv
        exact List.eq_of_mem_replicate hv

end Decode

end Unit

section Main

variable {τ : Type} {rank : Nat} {tileRanks : List Nat}

-- An array and tiles whose sizes are one, except for the last ones, which are two.
def makeLastTwo (elementType : τ) (rank : Nat) (tileRanks : List Nat) : TiledShape τ where
  toShape := Shape.makeShapeWithDescendingLayout elementType (lastTwo rank)
  tiles   := tileRanks.map lastTwoTile

theorem lastUnit_inBounds (h : 0 < n) : InBounds (lastTwo n) (lastUnit n) := by
  obtain ⟨m, rfl⟩ := Nat.exists_eq_add_one.mpr h
  rw [lastTwo, lastUnit, Nat.add_sub_cancel]
  refine List.rel_append ?_ (.cons (by decide) .nil)
  clear h
  induction m
  case zero      => exact .nil
  case succ m hi => exact .cons (by decide) hi

theorem map_lastUnit (h : 0 < n) : (List.range n).map ((lastUnit n).getD · 0) = lastUnit n := by
  have := View.map_getD_range (lastUnit n) 0
  rwa [length_lastUnit h] at this

-- Nothing is left of the last unit index.
theorem not_roundTrips {s : TiledShape τ} (hs : s.dimensions = lastTwo s.rank)
    (hd : s.physicalDims = List.range s.rank) (ht : s.tiles = tileRanks.map lastTwoTile) (hr : 0 < s.rank)
    (hf : ¬FitsAfterFirst s.rank tileRanks) : ¬s.RoundTrips := by
  intro h
  have hpos : ∀ tile ∈ s.tiles, ∀ t ∈ tile.dimensions, 0 < t := by
    rw [ht]
    intro tile htile t htt
    obtain ⟨r, _, rfl⟩ := List.mem_map.mp htile
    exact pos_of_mem_lastTwo htt
  have hl : s.physicalShape.length = s.rank := by
    rw [physicalShape, hd, List.length_map, List.length_range]
  have hb : InBounds s.dimensions (lastUnit s.rank) := hs ▸ lastUnit_inBounds hr
  obtain ⟨k, hk, hi, _⟩ := h _ hb
  obtain ⟨k', hk', _, he⟩ := linearIndexForNestedTiling_eq hr.ne' hb hpos
  obtain rfl := Option.some.inj (hk.symm.trans hk')
  have hz : ∀ v ∈ decode s.physicalShape tileRanks, v = 0 := (decode_spec (by rwa [hl])).2 (by rwa [hl])
  rw [decode, hl, ← ht] at hz
  rw [expandedShape, hd, map_lastUnit hr] at he
  rw [delinearizeIndexForNestedTiling, if_neg hr.ne'] at hi
  simp only [he] at hi
  rw [← scatter, scatter_zero fun v hv => hz v (List.mem_of_mem_drop hv)] at hi
  have h₁ : 1 ∈ List.replicate s.rank 0 := by
    rw [hi, lastUnit]
    exact List.mem_append_right _ (List.mem_singleton_self 1)
  exact absurd (List.eq_of_mem_replicate h₁) (by decide)

-- The ranks of the tiles determine whether the functions are inverse to each other for all sizes.
theorem roundTrips_iff [Inhabited τ] (rank : Nat) (tileRanks : List Nat) :
    (∀ s : TiledShape τ, s.rank = rank → s.tiles.map Tile.rank = tileRanks →
      (∀ tile ∈ s.tiles, ∀ t ∈ tile.dimensions, 0 < t) → s.FitsInt64 → s.RoundTrips) ↔
    rank = 0 ∨ FitsAfterFirst rank tileRanks := by
  apply Iff.intro
  case mp =>
    intro h
    by_contra hn
    obtain ⟨hr, hf⟩ := not_or.mp hn
    let s := makeLastTwo (default : τ) rank tileRanks
    have hrank : s.rank = rank := length_lastTwo
    have hpos : 0 < s.rank := by rw [hrank]; exact Nat.pos_of_ne_zero hr
    have hdims : s.dimensions = lastTwo s.rank := by rw [hrank]; rfl
    have hphysical : s.physicalDims = List.range s.rank := by
      simp [s, makeLastTwo, physicalDims, Shape.makeShapeWithDescendingLayout, Shape.makeDescendingLayout, Shape.rank]
    refine not_roundTrips hdims hphysical rfl hpos (by rwa [hrank]) (h s hrank ?ranks ?positive ?fits)
    case ranks    => simp [s, makeLastTwo, Function.comp_def, rank_lastTwoTile]
    case positive =>
      intro tile htile t ht
      obtain ⟨r, _, rfl⟩ := List.mem_map.mp htile
      exact pos_of_mem_lastTwo ht
    case fits =>
      have hshape : s.physicalShape = lastTwo s.rank := by
        rw [← hdims, physicalShape, hphysical]
        exact View.map_getD_range s.dimensions 1
      obtain ⟨m, hm, he⟩ := expand_lastTwo tileRanks hpos
      have he : s.expandedShape = lastTwo m := by rw [expandedShape, hshape]; exact he
      rw [FitsInt64, he, prod_lastTwo hm]
      decide
  case mpr =>
    rintro (hr | hf) s rfl rfl ht _
    case inl => exact roundTrips_of_rank_eq_zero hr ht
    case inr => exact roundTrips_of_fitsAfterFirst ht hf

-- An array with eight elements and the tiles `(2)(2,2,2)`. The second tile needs three dimensions, but there are two.
def eightElements : TiledShape Unit where
  toShape := Shape.makeShapeWithDescendingLayout () [8]
  tiles   := [⟨[2]⟩, ⟨[2, 2, 2]⟩]

theorem not_roundTrips_eight : InBounds eightElements.dimensions [3] ∧
    eightElements.linearIndexForNestedTiling [3] = some 3 ∧
    eightElements.delinearizeIndexForNestedTiling 3 = [1] ∧ ¬eightElements.RoundTrips := by
  have hb : InBounds eightElements.dimensions [3] := .cons (by decide) .nil
  have hk : eightElements.linearIndexForNestedTiling [3] = some 3 := by decide
  have hi : eightElements.delinearizeIndexForNestedTiling 3 = [1] := by decide
  refine ⟨hb, hk, hi, fun h => ?_⟩
  obtain ⟨k, hk', hi', _⟩ := h _ hb
  obtain rfl := Option.some.inj (hk.symm.trans hk')
  exact absurd (hi.symm.trans hi') (by decide)

end Main
end TiledShape

namespace TiledShape

open RowMajor Shape NestedTiling

variable {τ : Type} {s : TiledShape τ} {tile : Tile} {tiles : List Tile} {shape indices tiledShape ts outer xs : List Nat}
variable {allow : Bool}

namespace IsUntiledLayout

-- The tiles divide the dimensions. After the first dimension that is tiled there is a single tile in each dimension.
inductive Divides : Bool → List Nat → List Nat → List Nat → Prop
  | nil (allow : Bool) : Divides allow [] [] []
  | multiple {t n : Nat} {ds ts outer : List Nat} : 0 < t → Divides (decide (t = 1)) ds ts outer →
    Divides true (n * t :: ds) (t :: ts) (n :: outer)
  | single {t : Nat} {ds ts outer : List Nat} : 0 < t → Divides false ds ts outer →
    Divides false (t :: ds) (t :: ts) (1 :: outer)

theorem divides_of_split (hl : tiledShape.length = ts.length) (h : split allow tiledShape ts = some (some outer)) :
    Divides allow tiledShape ts outer := by
  induction ts generalizing tiledShape outer allow
  case nil =>
    obtain rfl := List.length_eq_zero_iff.mp hl
    obtain rfl : [] = outer := by simpa [split] using h
    exact .nil allow
  case cons t ts hi =>
    obtain ⟨d, ds, rfl⟩ := List.exists_cons_of_length_eq_add_one hl
    rw [split] at h
    split_ifs at h with h₀ hd ha
    case pos => simp at h
    case pos => simp at h
    case neg =>
      obtain ⟨outer?, hs, h⟩ := Option.bind_eq_some_iff.mp h
      obtain ⟨outer, rfl, rfl⟩ := Option.map_eq_some_iff.mp (Option.some.inj h)
      have hs := hi (Nat.succ.inj hl) hs
      have ht : 0 < t := Nat.pos_of_ne_zero h₀
      have hd : d / t * t = d := Nat.div_mul_cancel (Nat.dvd_of_mod_eq_zero (not_not.mp hd))
      cases allow
      case true =>
        have hs : Divides true (d / t * t :: ds) (t :: ts) (d / t :: outer) := .multiple ht (by simpa using hs)
        rwa [hd] at hs
      case false =>
        have h₁ : d / t = 1 := by simpa using ha
        rw [h₁, Nat.one_mul] at hd
        rw [h₁, ← hd]
        exact .single ht hs

theorem Divides.length_eq (h : Divides allow tiledShape ts outer) :
    tiledShape.length = ts.length ∧ outer.length = ts.length := by
  induction h
  case nil             => exact ⟨rfl, rfl⟩
  case multiple _ _ hi => exact ⟨congrArg (· + 1) hi.1, congrArg (· + 1) hi.2⟩
  case single _ _ hi   => exact ⟨congrArg (· + 1) hi.1, congrArg (· + 1) hi.2⟩

theorem Divides.ceilOfRatio_eq (h : Divides allow tiledShape ts outer) : List.zipWith ceilOfRatio tiledShape ts = outer := by
  have hc (n : Nat) {t : Nat} (ht : 0 < t) : ceilOfRatio (n * t) t = n := by
    rw [ceilOfRatio, Nat.add_sub_assoc ht, Nat.mul_comm, Nat.mul_add_div ht, Nat.div_eq_of_lt (by omega), Nat.add_zero]
  induction h
  case nil => rfl
  case multiple t n _ _ _ ht _ hi => rw [List.zipWith_cons_cons, hi, hc n ht]
  case single t _ _ _ ht _ hi =>
    have h₁ := hc 1 ht
    rw [Nat.one_mul] at h₁
    rw [List.zipWith_cons_cons, hi, h₁]

theorem Divides.prod_eq (h : Divides allow tiledShape ts outer) : outer.prod * ts.prod = tiledShape.prod := by
  induction h
  case nil => rfl
  case multiple t n ds ts outer _ _ hi =>
    rw [List.prod_cons, List.prod_cons, List.prod_cons, ← hi]
    ring
  case single t ds ts outer _ _ hi =>
    rw [List.prod_cons, List.prod_cons, List.prod_cons, ← hi]
    ring

theorem Divides.pos (h : Divides allow tiledShape ts outer) : ∀ t ∈ ts, 0 < t := by
  induction h
  case nil                => exact fun t ht => absurd ht List.not_mem_nil
  case multiple ht _ hi   => exact List.forall_mem_cons.mpr ⟨ht, hi⟩
  case single ht _ hi     => exact List.forall_mem_cons.mpr ⟨ht, hi⟩

-- A single tile in each dimension is the whole array.
theorem Divides.single_tile (h : Divides false tiledShape ts outer) :
    tiledShape = ts ∧ outer = List.replicate ts.length 1 := by
  generalize ha : false = allow at h
  induction h
  case nil => exact ⟨rfl, rfl⟩
  case multiple => cases ha
  case single hi =>
    obtain ⟨rfl, rfl⟩ := hi ha
    exact ⟨rfl, rfl⟩

theorem zipWith_of_inBounds (h : InBounds ts xs) : List.zipWith (· / ·) xs ts = List.replicate ts.length 0 ∧
    List.zipWith (· % ·) xs ts = xs := by
  induction h
  case nil => exact ⟨rfl, rfl⟩
  case cons x t xs ts hx _ hi =>
    obtain ⟨hd, hm⟩ := hi
    rw [List.zipWith_cons_cons, List.zipWith_cons_cons, hd, hm, Nat.div_eq_of_lt hx, Nat.mod_eq_of_lt hx]
    exact ⟨rfl, rfl⟩

-- The elements of the tiles are in row-major order of the array.
theorem Divides.ravel_eq (h : Divides allow tiledShape ts outer) (hx : InBounds tiledShape xs) :
    ravel (outer ++ ts) (List.zipWith (· / ·) xs ts ++ List.zipWith (· % ·) xs ts) = ravel tiledShape xs := by
  induction h generalizing xs
  case nil =>
    obtain rfl : xs = [] := List.forall₂_nil_right_iff.mp hx
    rfl
  case multiple t n ds ts outer ht hd hi =>
    obtain ⟨x, xs, -, hxs, rfl⟩ := List.forall₂_cons_right_iff.mp hx
    have hl : (List.zipWith (· / ·) xs ts).length = outer.length := by
      rw [List.length_zipWith, List.Forall₂.length_eq hxs, hd.length_eq.1, hd.length_eq.2, Nat.min_self]
    rw [List.zipWith_cons_cons, List.zipWith_cons_cons, List.cons_append, List.cons_append, ravel, ravel]
    by_cases h₁ : t = 1
    case pos =>
      subst h₁
      rw [Nat.mod_one, Nat.div_one, ravel_insert_one hl, hi hxs, List.prod_append, List.prod_cons, Nat.one_mul, hd.prod_eq]
    case neg =>
      rw [decide_eq_false h₁] at hd
      obtain ⟨rfl, rfl⟩ := hd.single_tile
      obtain ⟨hz, hm⟩ := zipWith_of_inBounds hxs
      have hr := @ravel_zero_append (List.replicate ds.length 1) (t :: ds) (x % t :: xs)
      rw [List.length_replicate] at hr
      rw [hz, hm, hr, ravel, List.prod_append, List.prod_replicate, Nat.one_pow, Nat.one_mul, List.prod_cons,
        ← Nat.add_assoc, ← Nat.mul_assoc, ← Nat.add_mul, Nat.div_add_mod']
  case single t ds ts outer ht hd hi =>
    obtain ⟨x, xs, hx₀, hxs, rfl⟩ := List.forall₂_cons_right_iff.mp hx
    obtain ⟨rfl, rfl⟩ := hd.single_tile
    obtain ⟨hz, hm⟩ := zipWith_of_inBounds hxs
    have hr := @ravel_zero_append (List.replicate ds.length 1) (t :: ds) (x :: xs)
    rw [List.length_replicate] at hr
    rw [List.zipWith_cons_cons, List.zipWith_cons_cons, List.cons_append, List.cons_append, Nat.div_eq_of_lt hx₀,
      Nat.mod_eq_of_lt hx₀, ravel, Nat.zero_mul, Nat.zero_add, hz, hm, hr]

end IsUntiledLayout

-- A level of tiles keeps the order of the elements.
theorem ravel_tileIndices (hr : tile.rank ≤ shape.length) (hx : InBounds shape xs)
    (h : IsUntiledLayout.split true (shape.drop (shape.length - tile.rank)) tile.dimensions = some (some outer)) :
    tileShape tile shape = shape.take (shape.length - tile.rank) ++ (outer ++ tile.dimensions) ∧
      ravel (tileShape tile shape) (tileIndices tile xs) = ravel shape xs := by
  have hd := IsUntiledLayout.divides_of_split (by rw [List.length_drop]; exact Nat.sub_sub_self hr) h
  have hl : xs.length = shape.length := List.Forall₂.length_eq hx
  have hs : tileShape tile shape = shape.take (shape.length - tile.rank) ++ (outer ++ tile.dimensions) := by
    rw [tileShape, hd.ceilOfRatio_eq, List.append_assoc]
  refine ⟨hs, ?_⟩
  have ht : (xs.take (shape.length - tile.rank)).length = (shape.take (shape.length - tile.rank)).length := by
    rw [List.length_take, List.length_take, hl]
  rw [hs, tileIndices, hl, List.append_assoc, ravel_append ht, hd.ravel_eq (List.forall₂_drop _ hx), List.prod_append,
    hd.prod_eq, ← ravel_append ht, List.take_append_drop, List.take_append_drop]

-- All levels keep the order of the elements.
theorem ravel_encode (hx : InBounds shape xs) (h : isUntiledLayout tiles shape = some true) :
    InBounds (expand shape tiles).1 (encode shape xs tiles) ∧
      ravel (expand shape tiles).1 (encode shape xs tiles) = ravel shape xs := by
  induction tiles generalizing shape xs
  case nil => exact ⟨hx, rfl⟩
  case cons tile tiles hi =>
    rw [isUntiledLayout] at h
    split_ifs at h with hr
    have hr := Nat.le_of_not_lt hr
    obtain ⟨outer?, hs, h⟩ := Option.bind_eq_some_iff.mp h
    cases outer?
    case none => simp at h
    case some outer =>
      obtain ⟨ht, he⟩ := ravel_tileIndices hr hx hs
      have hb := tileIndices_inBounds (fun t => (IsUntiledLayout.divides_of_split
        (by rw [List.length_drop]; exact Nat.sub_sub_self hr) hs).pos t) hr hx
      have hi := hi hb (ht ▸ h)
      rw [expand, padShape_eq hr, encode, List.foldl_cons, applyTile, padShape_eq hr, Nat.sub_eq_zero_of_le hr]
      exact ⟨hi.1, hi.2.trans he⟩

-- The check accepts only tiles that do not move any element.
theorem linearIndexForNestedTiling_of_isUntiledLayout (h : isUntiledLayout s.tiles s.physicalShape = some true)
    (hi : InBounds s.dimensions indices) :
    s.linearIndexForNestedTiling indices = some (s.multidimensionalIndexToLinearIndex indices) := by
  have hl : s.rank = indices.length := (List.Forall₂.length_eq hi).symm
  obtain ⟨hb, he⟩ := ravel_encode (physical_inBounds hi) h
  rw [linearIndexForNestedTiling, if_neg (not_not.mpr hl), multidimensionalIndexToLinearIndex_eq_ravel]
  split_ifs with hr
  case pos =>
    have hm : s.minorToMajor = [] := List.eq_nil_of_length_eq_zero (s.perm.length_eq.trans (List.length_range.trans hr))
    rw [physicalDimensions, hm]
    rfl
  case neg =>
    rw [foldl_applyTile, linearize_eq (List.Forall₂.length_eq hb).symm, he]
    rfl

-- The array `[4, 16]` in row-major order with the tiles `(1,8)(4)`.
def rowTiles : TiledShape Unit where
  toShape := makeShapeWithDescendingLayout () [4, 16]
  tiles   := [⟨[1, 8]⟩, ⟨[4]⟩]

theorem linearIndexForNestedTiling_of_isUntiledLayout_rowTiles :
    rowTiles.linearIndexForNestedTiling [3, 13] = some (rowTiles.multidimensionalIndexToLinearIndex [3, 13]) :=
  linearIndexForNestedTiling_of_isUntiledLayout (by decide) (.cons (by decide) (.cons (by decide) .nil))

end TiledShape
