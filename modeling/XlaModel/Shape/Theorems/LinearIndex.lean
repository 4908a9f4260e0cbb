import XlaModel.Lib.Ravel
import XlaModel.Shape.Dimensions
import XlaModel.Shape.Theorems.NestedTiling
import XlaModel.Shape.Theorems.PermuteDimensions

namespace TiledShape

open RowMajor Shape NestedTiling

variable {τ : Type} {s : TiledShape τ} {tile : Tile} {shape indices ds es ts xs ys : List Nat} {m w n k : Nat}

namespace LinearIndex

-- The sum of the contributions of the outer and the inner indices, from the minor-most dimension on.
def interleaved : List Nat → List Nat → List Nat → Nat → Nat → Nat
  | d :: ds, e :: es, t :: ts, m, w =>
    m * (e / t) + w * (e % t) + interleaved ds es ts (m * ceilOfRatio d t) (w * t)
  | d :: ds, e :: es, [],      m, w => e * m + interleaved ds es [] (m * d) w
  | _,       _,       _,       _, _ => 0

theorem foldl_step {state : State} {dims : List Nat} :
    ((dims.zipIdx k).foldl (step s tile indices) state).linearIndex = state.linearIndex +
      interleaved (dims.map s.dimension) (dims.map (indices.getD · 0)) (tile.dimensions.reverse.drop k)
        state.tileMultiplier state.withinTileMultiplier := by
  induction dims generalizing k state
  case nil => rfl
  case cons d dims hi =>
    rw [List.zipIdx_cons, List.foldl_cons, hi, step]
    by_cases hk : k < tile.rank
    case pos =>
      have hk' : k < tile.dimensions.reverse.length := by rwa [List.length_reverse]
      have ht : tile.dimensions.reverse[k] = tile.dimensions.getD (tile.rank - 1 - k) 0 := by
        rw [List.getElem_reverse, List.getD_eq_getElem]
        rfl
      rw [if_pos hk, List.drop_eq_getElem_cons hk', ht, List.map_cons, List.map_cons, interleaved]
      simp only [Nat.add_assoc]
    case neg =>
      have hd {j : Nat} (hj : k ≤ j) : tile.dimensions.reverse.drop j = [] :=
        List.drop_eq_nil_of_le (by rw [List.length_reverse]; exact (Nat.le_of_not_lt hk).trans hj)
      rw [if_neg hk, hd le_rfl, hd (Nat.le_succ k), List.map_cons, List.map_cons, interleaved]
      simp only [Nat.add_assoc]

-- Dimensions of size one in front of the array have no effect.
theorem interleaved_padded (hl : ds.length = es.length) :
    interleaved (ds ++ List.replicate n 1) (es ++ List.replicate n 0) ts m w = interleaved ds es ts m w := by
  induction ds generalizing es ts m w
  case nil =>
    obtain rfl := List.eq_nil_of_length_eq_zero hl.symm
    rw [List.nil_append, List.nil_append]
    induction n generalizing ts m w
    case zero => rfl
    case succ n hi =>
      cases ts
      case nil       => simpa [List.replicate_succ, interleaved] using hi
      case cons t ts => simpa [List.replicate_succ, interleaved] using hi
  case cons d ds hi =>
    obtain ⟨e, es, rfl⟩ := List.exists_cons_of_length_eq_add_one hl.symm
    cases ts
    case nil       => rw [List.cons_append, List.cons_append, interleaved, interleaved, hi (Nat.succ.inj hl)]
    case cons t ts => rw [List.cons_append, List.cons_append, interleaved, interleaved, hi (Nat.succ.inj hl)]

theorem interleaved_untiled (hl : ds.length = es.length) :
    interleaved ds es [] m w = m * ravel ds.reverse es.reverse := by
  induction ds generalizing es m
  case nil => simp [interleaved, ravel]
  case cons d ds hi =>
    obtain ⟨e, es, rfl⟩ := List.exists_cons_of_length_eq_add_one hl.symm
    have hl := Nat.succ.inj hl
    rw [interleaved, hi hl, List.reverse_cons, List.reverse_cons, ravel_concat (by simp [hl])]
    ring

-- The contributions of the outer and of the inner indices are sorted out.
theorem interleaved_eq (hl : ds.length = es.length) (hr : ts.length ≤ ds.length) :
    interleaved ds es ts m w =
      m * ravel ((ds.drop ts.length).reverse ++ (List.zipWith ceilOfRatio ds ts).reverse)
        ((es.drop ts.length).reverse ++ (List.zipWith (· / ·) es ts).reverse) +
      w * ravel ts.reverse (List.zipWith (· % ·) es ts).reverse := by
  induction ts generalizing ds es m w
  case nil => simp [interleaved_untiled hl, ravel]
  case cons t ts hi =>
    obtain ⟨d, ds, rfl⟩ := List.exists_cons_of_length_pos (Nat.zero_lt_of_lt hr)
    obtain ⟨e, es, rfl⟩ := List.exists_cons_of_length_eq_add_one hl.symm
    have hl := Nat.succ.inj hl
    have hr := Nat.le_of_succ_le_succ hr
    simp only [interleaved, List.length_cons, List.drop_succ_cons, List.zipWith_cons_cons, List.reverse_cons]
    rw [hi hl hr, ← List.append_assoc, ← List.append_assoc, ravel_concat, ravel_concat]
    · ring
    · simp [← hl, hr]
    · simp [hl]

theorem zipWith_reverse {f : Nat → Nat → Nat} (h : ts.length ≤ ds.length) :
    List.zipWith f ds.reverse ts.reverse = (List.zipWith f (ds.drop (ds.length - ts.length)) ts).reverse := by
  have hs : (ds.drop (ds.length - ts.length)).length = ts.length := by
    rw [List.length_drop]
    exact Nat.sub_sub_self h
  conv_lhs => rw [← List.take_append_drop (ds.length - ts.length) ds, List.reverse_append, ← List.append_nil ts.reverse,
    List.zipWith_append (by simpa using hs), List.zipWith_nil_right, List.append_nil, ← List.reverse_zipWith hs]

-- A single level of tiles is the order of the tiled array.
theorem interleaved_reverse (hl : shape.length = xs.length) (hr : tile.rank ≤ shape.length) :
    interleaved shape.reverse xs.reverse tile.dimensions.reverse tile.dimensions.prod 1 =
      ravel (tileShape tile shape) (tileIndices tile xs) := by
  have ht {ls : List Nat} : (ls.reverse.drop tile.dimensions.reverse.length).reverse = ls.take (ls.length - tile.rank) := by
    rw [List.length_reverse, List.drop_reverse, List.reverse_reverse]
    rfl
  have hz {f : Nat → Nat → Nat} {ls : List Nat} (h : ls.length = shape.length) :
      (List.zipWith f ls.reverse tile.dimensions.reverse).reverse =
        List.zipWith f (ls.drop (ls.length - tile.rank)) tile.dimensions := by
    rw [zipWith_reverse (h ▸ hr), List.reverse_reverse]
    rfl
  have ho : (xs.take (xs.length - tile.rank) ++ List.zipWith (· / ·) (xs.drop (xs.length - tile.rank)) tile.dimensions).length =
      (shape.take (shape.length - tile.rank) ++
        List.zipWith ceilOfRatio (shape.drop (shape.length - tile.rank)) tile.dimensions).length := by
    simp [hl]
  rw [interleaved_eq (by simp [hl]) (by simpa [Tile.rank] using hr), hz rfl, hz hl.symm, hz hl.symm, ht, ht,
    List.reverse_reverse, tileShape, tileIndices, ravel_append ho, Nat.mul_comm, Nat.one_mul]

section Forall₂

variable {es' : List Nat}

theorem forall₂_zipWith_div (h : List.Forall₂ (· ≤ ·) es es') :
    List.Forall₂ (· ≤ ·) (List.zipWith (· / ·) es ts) (List.zipWith (· / ·) es' ts) := by
  induction h generalizing ts
  case nil => exact .nil
  case cons he _ hi =>
    cases ts
    case nil       => exact .nil
    case cons t ts => exact .cons (Nat.div_le_div_right he) hi

theorem forall₂_zipWith_mod (h : List.Forall₂ (· ≤ ·) es es')
    (hd : List.zipWith (· / ·) es ts = List.zipWith (· / ·) es' ts) :
    List.Forall₂ (· ≤ ·) (List.zipWith (· % ·) es ts) (List.zipWith (· % ·) es' ts) := by
  induction h generalizing ts
  case nil => exact .nil
  case cons e e' _ _ he _ hi =>
    cases ts
    case nil       => exact .nil
    case cons t ts =>
      obtain ⟨hd, hs⟩ := List.cons.inj hd
      refine .cons ?_ (hi hs)
      have hx := Nat.div_add_mod e t
      have hy := Nat.div_add_mod e' t
      change e / t = e' / t at hd
      change e % t ≤ e' % t
      rw [hd] at hx
      omega

theorem forall₂_getD_le (h : List.Forall₂ (· ≤ ·) es es') : es.getD k 0 ≤ es'.getD k 0 := by
  induction h generalizing k
  case nil           => exact le_rfl
  case cons he _ hi  =>
    cases k
    case zero   => exact he
    case succ k => exact hi

end Forall₂

end LinearIndex

section SingleTile

open LinearIndex

variable {τ : Type} {s : TiledShape τ}

-- The position in the tiled array.
theorem linearIndexForNestedTiling_eq_ravel (ht : s.tiles = [tile]) (hr : s.rank ≠ 0) (hl : s.rank = indices.length) :
    s.linearIndexForNestedTiling indices = some (ravel (tileShape tile (padShape tile s.physicalShape))
      (tileIndices tile
        (List.replicate (tile.rank - s.physicalShape.length) 0 ++ s.physicalDims.map (indices.getD · 0)))) := by
  have hk : tile.rank ≤ (padShape tile s.physicalShape).length := by
    rw [length_padShape]
    exact Nat.le_max_right _ _
  have hi : (padShape tile s.physicalShape).length =
      (List.replicate (tile.rank - s.physicalShape.length) 0 ++ s.physicalDims.map (indices.getD · 0)).length := by
    simp [padShape, physicalShape]
  rw [linearIndexForNestedTiling, if_neg (not_not.mpr hl), if_neg hr, ht, List.foldl_cons, List.foldl_nil, applyTile]
  rw [linearize_eq (by rw [length_tileShape hk, length_tileIndices (hi ▸ hk), hi])]

-- The contributions of all dimensions to the position.
theorem linearIndexForNestedTiling_eq_interleaved (ht : s.tiles = [tile]) (hr : s.rank ≠ 0) (hl : s.rank = indices.length) :
    s.linearIndexForNestedTiling indices = some (interleaved (s.minorToMajor.map s.dimension)
      (s.minorToMajor.map (indices.getD · 0)) tile.dimensions.reverse tile.dimensions.prod 1) := by
  have hk : tile.rank ≤ (padShape tile s.physicalShape).length := by
    rw [length_padShape]
    exact Nat.le_max_right _ _
  rw [linearIndexForNestedTiling_eq_ravel ht hr hl, ← interleaved_reverse (by simp [padShape, physicalShape]) hk, padShape,
    List.reverse_append, List.reverse_append, List.reverse_replicate, List.reverse_replicate, interleaved_padded,
    physicalShape, physicalDims, List.map_reverse, List.map_reverse, List.reverse_reverse, List.reverse_reverse]
  simp [physicalShape]

theorem linearIndex_eq_linearIndexForNestedTiling (ht : s.tiles = [tile]) (hr : s.rank ≠ 1) (hl : s.rank = indices.length) :
    s.linearIndex indices = s.linearIndexForNestedTiling indices := by
  by_cases h₀ : s.rank = 0
  case pos => rw [linearIndex, linearIndexForNestedTiling, if_neg (not_not.mpr hl), if_neg (not_not.mpr hl), if_pos h₀, if_pos h₀]
  case neg =>
    have htop : s.topLevelTile = tile := by
      rw [topLevelTile, ht]
      rfl
    rw [linearIndexForNestedTiling_eq_interleaved ht h₀ hl, linearIndex, if_neg (not_not.mpr hl), if_neg h₀, if_neg hr]
    simp only [htop, foldl_step, List.drop_zero, Nat.zero_add, List.prod_eq_foldl]

-- The linear index of an array with a single dimension ignores the tile.
theorem linearIndex_eq_linearIndexForNestedTiling_iff_of_rank_one {e : Nat} (ht : s.tiles = [tile]) (hr : s.rank = 1) :
    s.linearIndex [e] = s.linearIndexForNestedTiling [e] ↔
      ∀ t ∈ tile.dimensions.getLast?, e = e / t * tile.dimensions.prod + e % t := by
  have hm : s.minorToMajor = [0] := by
    have hp : s.minorToMajor.Perm (List.range s.rank) := s.perm
    rw [hr] at hp
    exact List.perm_singleton.mp hp
  have hl : s.rank = [e].length := hr
  rw [linearIndexForNestedTiling_eq_interleaved ht (by omega) hl, hm, linearIndex, if_neg (not_not.mpr hl),
    if_neg (by omega), if_pos hr, ← List.head?_reverse]
  cases hd : tile.dimensions.reverse
  case nil =>
    have hd : tile.dimensions = [] := by simpa using hd
    simp [interleaved, hd]
  case cons t ts => simp [interleaved, Nat.mul_comm]

section Monotone

variable (hp : ∀ t ∈ tile.dimensions, 0 < t)
include hp

-- Larger indices are at larger positions.
theorem ravel_tileIndices_le (hr : tile.rank ≤ shape.length) (hx : InBounds shape xs) (hy : InBounds shape ys)
    (h : List.Forall₂ (· ≤ ·) xs ys) :
    ravel (tileShape tile shape) (tileIndices tile xs) ≤ ravel (tileShape tile shape) (tileIndices tile ys) := by
  have hxl : xs.length = shape.length := List.Forall₂.length_eq hx
  have hyl : ys.length = shape.length := List.Forall₂.length_eq hy
  generalize hk : shape.length - tile.rank = k
  have outer {zs : List Nat} (hz : InBounds shape zs) :
      InBounds (shape.take k ++ List.zipWith ceilOfRatio (shape.drop k) tile.dimensions)
        (zs.take k ++ List.zipWith (· / ·) (zs.drop k) tile.dimensions) :=
    List.rel_append (List.forall₂_take _ hz) (div_inBounds hp (List.forall₂_drop _ hz))
  have inner {zs : List Nat} (hz : zs.length = shape.length) :
      InBounds tile.dimensions (List.zipWith (· % ·) (zs.drop k) tile.dimensions) :=
    mod_inBounds hp (by rw [List.length_drop, hz, ← hk]; exact Nat.sub_sub_self hr)
  have ho : List.Forall₂ (· ≤ ·) (xs.take k ++ List.zipWith (· / ·) (xs.drop k) tile.dimensions)
      (ys.take k ++ List.zipWith (· / ·) (ys.drop k) tile.dimensions) :=
    List.rel_append (List.forall₂_take _ h) (forall₂_zipWith_div (List.forall₂_drop _ h))
  rw [tileShape, tileIndices, tileIndices, hxl, hyl, hk, ravel_append (List.Forall₂.length_eq (outer hx)),
    ravel_append (List.Forall₂.length_eq (outer hy))]
  have hle := @ravel_le (shape.take k ++ List.zipWith ceilOfRatio (shape.drop k) tile.dimensions) _ _ ho
  rcases hle.lt_or_eq with hlt | heq
  case inl =>
    have hi := (inner hxl).ravel_lt
    have hm := Nat.mul_le_mul_right tile.dimensions.prod (Nat.succ_le_of_lt hlt)
    rw [Nat.succ_mul] at hm
    omega
  case inr =>
    -- Within the same tile the order is that of the inner indices.
    have he := (outer hx).ravel_inj (outer hy) heq
    have hd := List.append_inj_right he (by simp [hxl, hyl])
    rw [heq]
    exact Nat.add_le_add_left (ravel_le (forall₂_zipWith_mod (List.forall₂_drop _ h) hd)) _

theorem linearIndexForNestedTiling_le {indices' : List Nat} (ht : s.tiles = [tile]) (hr : s.rank ≠ 0)
    (hi : InBounds s.dimensions indices) (hi' : InBounds s.dimensions indices') (h : List.Forall₂ (· ≤ ·) indices indices') :
    ∃ k k', s.linearIndexForNestedTiling indices = some k ∧ s.linearIndexForNestedTiling indices' = some k' ∧ k ≤ k' := by
  have hl {zs : List Nat} (hz : InBounds s.dimensions zs) : s.rank = zs.length := (List.Forall₂.length_eq hz).symm
  refine ⟨_, _, linearIndexForNestedTiling_eq_ravel ht hr (hl hi), linearIndexForNestedTiling_eq_ravel ht hr (hl hi'), ?_⟩
  refine ravel_tileIndices_le hp ?length (padShape_inBounds (physical_inBounds hi))
      (padShape_inBounds (physical_inBounds hi')) ?le
  case length =>
    rw [length_padShape]
    exact Nat.le_max_right _ _
  case le =>
    refine List.rel_append (List.forall₂_same.mpr fun _ _ => le_rfl) ?_
    rw [List.forall₂_map_left_iff, List.forall₂_map_right_iff, List.forall₂_same]
    intro d _
    exact forall₂_getD_le h

end Monotone

end SingleTile

end TiledShape
