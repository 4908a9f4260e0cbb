import XlaModel.Sharding.Theorems.TileAssignment
import XlaModel.Sharding.Theorems.SubDims.Order

namespace Sharding

open View ExtractCommonFactorSequence ConsecutiveFactors GetOrderedSubDims

variable {t : IotaTileAssignment} {tiles devices : List (List Nat)} {transposePerm reshapeDims : List Nat}

section Blocks

def deviceShape (reshapeDims transposePerm : List Nat) : List Nat :=
  transposePerm.map (reshapeDims.getD · 0)

-- The factors of the dimensions of an iota tile assignment.
structure Factors (t : IotaTileAssignment) (tiles devices : List (List Nat)) : Prop where
  dims      : tiles.map List.prod = t.dims
  shape     : devices.map List.prod = deviceShape t.reshapeDims t.transposePerm
  extracted : tiles.flatten = extractCommonFactorSequence t.dims (deviceShape t.reshapeDims t.transposePerm)
  common    : Common tiles devices
  separated : Separated tiles devices

theorem mem_deviceShape {x : Nat} (h : t.Canonical) (hx : x ∈ deviceShape t.reshapeDims t.transposePerm) :
    x ∈ t.reshapeDims := by
  obtain ⟨d, hd, rfl⟩ := List.mem_map.mp hx
  have hd := List.mem_range.mp (h.describes.perm.mem_iff.mp hd)
  rw [List.getD_eq_getElem _ _ hd]
  exact List.getElem_mem hd

theorem deviceShape_pos (h : t.Canonical) : ∀ x ∈ deviceShape t.reshapeDims t.transposePerm, 0 < x :=
  fun x hx => h.describes.reshape_pos x (mem_deviceShape h hx)

theorem exists_factors (h : t.Canonical)
    (hn : extractCommonFactorSequence t.dims (deviceShape t.reshapeDims t.transposePerm) ≠ []) :
    ∃ tiles devices, Factors t tiles devices := by
  have hd := h.describes.dims_pos
  have hs := deviceShape_pos h
  obtain ⟨⟨fs, hfs⟩, _⟩ := (extract_ne_nil_iff hd hs).mp hn
  obtain ⟨hc, h₁⟩ := extract_coarsest hd hs hfs
  obtain ⟨tiles, hft, hpt⟩ := groups_iff.mp ((groups_nonOnes_iff h₁).mp hc.left)
  obtain ⟨devices, hfd, hpd⟩ := groups_iff.mp ((groups_nonOnes_iff h₁).mp hc.right)
  have hcommon : Common tiles devices := by
    constructor
    case flatten => exact hft.trans hfd.symm
    case factors =>
      intro f hf
      have hne : f ≠ 1 := fun h => h₁ (hft ▸ h ▸ hf)
      obtain ⟨block, hb, hf⟩ := List.mem_flatten.mp hf
      have hpos := hd block.prod (hpt ▸ List.mem_map_of_mem hb)
      have := Nat.pos_of_dvd_of_pos (List.dvd_prod hf) hpos
      omega
    case no_ones =>
      intro hone
      obtain hN | ⟨hr, hp⟩ := h.normal
      case inl =>
        exact absurd (hN.two_le_sizes h.describes.perm 1 (mem_deviceShape h (hpd ▸ hone))) (by decide)
      case inr =>
        have hnil := hc.right
        rw [hr, hp, show nonOnes (deviceShape [1] [0]) = [] from rfl] at hnil
        rw [hr, hp] at hn
        exact hn hnil.eq_nil
  refine ⟨tiles, devices, hpt, hpd, hft, hcommon, separated_of_shortest hcommon ?_⟩
  rw [hpt, hpd, hft]
  exact extract_shortest hd hs hfs

end Blocks

section SubDims

variable (h : t.Canonical) (hf : Factors t tiles devices)
include h hf

theorem Factors.perm : t.transposePerm.Perm (List.range devices.length) := by
  have hl := congrArg List.length hf.shape
  rw [List.length_map, deviceShape, List.length_map, length_eq_of_perm h.describes.perm] at hl
  exact hl ▸ h.describes.perm

-- The sub-dimensions in the order of the reshape dimensions.
def orderedSubDims (t : IotaTileAssignment) (tiles devices : List (List Nat)) : List SubDimInfo :=
  (reshapeOrder devices t.transposePerm).map (info tiles devices t.transposePerm)

theorem getOrderedSubDims_eq (hn : tiles.flatten ≠ []) :
    getOrderedSubDims t.dims t.reshapeDims t.transposePerm = some (.ok (orderedSubDims t tiles devices)) := by
  have hl : t.transposePerm.length = devices.length := by simpa using (hf.perm h).length_eq
  have hd : t.dims.length = tiles.length := by rw [←hf.dims, List.length_map]
  obtain ⟨s, hs, ho⟩ := @Ready.steps _ tiles devices t.transposePerm _ hf.common (.start hf.common) le_rfl
  rw [List.take_length, hf.dims, hf.shape, ←hl, ←hd] at hs
  have hsort := mergeSort_eq hf.common hf.separated (hf.perm h)
  rw [getOrderedSubDims, ←deviceShape, if_neg (hf.extracted ▸ hn), ←hf.extracted, hs]
  simp only [Option.bind_eq_bind, Option.bind_some, ho, List.nil_append, hsort]
  rfl

theorem orderedSubDims_perm :
    (orderedSubDims t tiles devices).Perm ((List.range tiles.flatten.length).map (info tiles devices t.transposePerm)) := by
  have hp := reshapeOrder_perm (hf.perm h)
  rw [←hf.common.flatten] at hp
  exact hp.map _

end SubDims

section Products

-- The factors at the positions of a block multiply to its product.
theorem prod_filter_block {blocks : List (List Nat)} {d : Nat} {p : Nat → Bool} (hd : d < blocks.length)
    (h : ∀ k < blocks.flatten.length, p k ↔ blockIndex blocks k = d) :
    (((List.range blocks.flatten.length).filter p).map (blocks.flatten.getD · 0)).prod = (blocks.getD d []).prod := by
  have hp : ((List.range blocks.flatten.length).filter p).Perm (block blocks d) := by
    refine (List.perm_ext_iff_of_nodup (List.nodup_range.filter _) List.nodup_range').mpr fun k => ?_
    rw [List.mem_filter, List.mem_range]
    constructor
    case mp =>
      rintro ⟨hk, hpk⟩
      exact (h k hk).mp hpk ▸ (blockIndex_spec hk).2
    case mpr =>
      intro hk
      have hlt := lt_length_of_mem_block hd hk
      exact ⟨hlt, (h k hlt).mpr (blockIndex_eq hd hk)⟩
  rw [(hp.map _).prod_eq, map_block hd, List.getD_eq_getElem _ _ hd]

variable (h : t.Canonical) (hf : Factors t tiles devices)
include h hf

theorem prod_filter_subDims (p : SubDimInfo → Bool) :
    (((orderedSubDims t tiles devices).filter p).map SubDimInfo.size).prod =
      (((List.range tiles.flatten.length).filter (p ∘ info tiles devices t.transposePerm)).map
        (tiles.flatten.getD · 0)).prod := by
  rw [(((orderedSubDims_perm h hf).filter p).map SubDimInfo.size).prod_eq, List.filter_map, List.map_map]
  rfl

theorem prod_tileDim {i : Nat} (hi : i < t.dims.length) :
    (((orderedSubDims t tiles devices).filter (·.tileDimIndex = i)).map SubDimInfo.size).prod = t.dims.getD i 0 := by
  rw [←hf.dims, List.length_map] at hi
  rw [prod_filter_subDims h hf, ←hf.dims, getD_map_prod hi]
  exact prod_filter_block hi fun k _ => by simp [info]

theorem prod_reshapeDim {d : Nat} (hd : d < t.reshapeDims.length) :
    (((orderedSubDims t tiles devices).filter (·.reshapeDimIndex = d)).map SubDimInfo.size).prod =
      t.reshapeDims.getD d 0 := by
  have hl := length_eq_of_perm h.describes.perm
  have hm : d ∈ t.transposePerm := h.describes.perm.mem_iff.mpr (List.mem_range.mpr hd)
  have hi : t.transposePerm.idxOf d < devices.length := by
    have := (hf.perm h).length_eq
    rw [List.length_range] at this
    exact this ▸ List.idxOf_lt_length_of_mem hm
  have hs : t.reshapeDims.getD d 0 = (devices.getD (t.transposePerm.idxOf d) []).prod := by
    rw [←getD_map_prod hi, hf.shape, deviceShape]
    simp [List.idxOf_lt_length_of_mem hm]
  rw [prod_filter_subDims h hf, hf.common.flatten, hs]
  refine prod_filter_block hi fun k hk => ?_
  have hr := reshapeDim_eq (hf.perm h) hk
  rw [Function.comp_apply, decide_eq_true_eq, info]
  constructor
  case mp =>
    rintro rfl
    exact hr.symm
  case mpr =>
    intro hk
    rw [hk]
    simp [List.idxOf_lt_length_of_mem hm]

end Products

section Array

variable (h : t.Canonical) (hf : Factors t tiles devices)

def reshapeBlocks (t : IotaTileAssignment) (devices : List (List Nat)) : List (List Nat) :=
  (inverse t.transposePerm).map (devices.getD · [])

-- The positions of the sub-dimensions in the order of the tile dimensions.
def tilePerm (t : IotaTileAssignment) (devices : List (List Nat)) : List Nat :=
  t.transposePerm.flatMap (block (reshapeBlocks t devices))

include h hf

theorem lt_of_mem_inverse {e : Nat} (he : e ∈ inverse t.transposePerm) : e < devices.length := by
  have hi := @inverse_perm (devices.map List.prod) _ (by simpa using hf.perm h)
  rw [List.length_map] at hi
  exact List.mem_range.mp (hi.mem_iff.mp he)

theorem map_size_orderedSubDims :
    (orderedSubDims t tiles devices).map SubDimInfo.size = (reshapeBlocks t devices).flatten := by
  rw [orderedSubDims, List.map_map, reshapeOrder, List.map_flatMap, reshapeBlocks, ←List.flatMap_def]
  refine List.flatMap_congr fun e he => ?_
  have he := lt_of_mem_inverse h hf he
  rw [List.getD_eq_getElem _ _ he, ←map_block he 0, ←hf.common.flatten]
  rfl

theorem map_prod_reshapeBlocks : (reshapeBlocks t devices).map List.prod = t.reshapeDims := by
  have hl : t.transposePerm.length = devices.length := by simpa using (hf.perm h).length_eq
  conv_rhs => rw [←map_getD_range t.reshapeDims 0, ←inverse_map_perm h.describes.perm, List.map_map]
  rw [reshapeBlocks, List.map_map]
  refine List.map_congr_left fun e he => ?_
  have he := lt_of_mem_inverse h hf he
  rw [Function.comp_apply, Function.comp_apply, ←getD_map_prod he, hf.shape, deviceShape]
  simp [hl ▸ he]

theorem map_tilePerm : (tilePerm t devices).map ((reshapeOrder devices t.transposePerm).getD · 0) =
    List.range tiles.flatten.length := by
  have hl : t.transposePerm.length = devices.length := by simpa using (hf.perm h).length_eq
  have hinv : (inverse t.transposePerm).length = t.transposePerm.length := by simp [inverse]
  have hlen : (reshapeBlocks t devices).map List.length =
      ((inverse t.transposePerm).map (block devices)).map List.length := by
    simp [reshapeBlocks, Function.comp_def]
  have hblock (d : Nat) (hd : d ∈ t.transposePerm) :
      (block (reshapeBlocks t devices) d).map (((inverse t.transposePerm).map (block devices)).flatten.getD · 0) =
        block devices ((inverse t.transposePerm).getD d 0) := by
    have hd : d < (inverse t.transposePerm).length := by
      rw [hinv, hl]
      exact List.mem_range.mp ((hf.perm h).mem_iff.mp hd)
    rw [block_congr hlen, map_block (by simpa using hd)]
    simp [hd]
  calc (tilePerm t devices).map ((reshapeOrder devices t.transposePerm).getD · 0)
    _ = t.transposePerm.flatMap fun d => block devices ((inverse t.transposePerm).getD d 0) := by
      rw [tilePerm, List.map_flatMap, reshapeOrder, List.flatMap_def]
      exact List.flatMap_congr hblock
    _ = (List.range devices.length).flatMap (block devices) := by
      rw [←List.flatMap_map, perm_map_inverse h.describes.perm, ←length_eq_of_perm h.describes.perm, hl]
    _ = List.range tiles.flatten.length := by
      rw [flatMap_block_range le_rfl, first, List.take_length, hf.common.flatten]

theorem tilePerm_perm : (tilePerm t devices).Perm (List.range (reshapeBlocks t devices).flatten.length) := by
  refine flatMap_block_perm ?_
  rw [←@List.length_map _ _ (reshapeBlocks t devices) List.prod, map_prod_reshapeBlocks h hf]
  exact h.describes.perm

theorem describes_orderedSubDims : Describes t.dims (reshapeBlocks t devices).flatten (tilePerm t devices) := by
  have hprod : (reshapeBlocks t devices).flatten.prod = t.dims.prod := by
    rw [List.prod_flatten, map_prod_reshapeBlocks h hf, h.describes.prod]
  constructor
  case dims_pos    => exact h.describes.dims_pos
  case perm        => exact tilePerm_perm h hf
  case prod        => exact hprod
  case reshape_pos =>
    intro d hd
    exact Nat.pos_of_dvd_of_pos (List.dvd_prod hd) (hprod ▸ h.describes.dims_prod_pos)

theorem toArray_orderedSubDims :
    toArray ((orderedSubDims t tiles devices).map SubDimInfo.size) (tilePerm t devices) t.dims = t.toArray := by
  have hd := describes_orderedSubDims h hf
  have hs : Same (permuted (reshapeBlocks t devices).flatten (tilePerm t devices)) t.view := by
    rw [IotaTileAssignment.view, ←map_prod_reshapeBlocks h hf]
    refine same_blocks fun d hd => ?_
    rw [←@List.length_map _ _ (reshapeBlocks t devices) List.prod, map_prod_reshapeBlocks h hf]
    exact List.mem_range.mp (h.describes.perm.mem_iff.mp hd)
  rw [map_size_orderedSubDims h hf, hd.toArray_eq, h.toArray_eq, deviceArray_congr hs hd.numElements_eq]

end Array

section Decomposes

def TileOrder (a b : SubDimInfo) : Prop :=
  a.tileDimIndex < b.tileDimIndex ∨ (a.tileDimIndex = b.tileDimIndex ∧ b.tileSubDimIndex < a.tileSubDimIndex)

-- The sub-dimensions of a tile assignment, major to minor in the order of the reshape dimensions. `perm` are
-- their positions in the order of the tile dimensions.
structure Decomposes (t : IotaTileAssignment) (subDims : List SubDimInfo) (perm : List Nat) : Prop where
  indices     : ∀ s ∈ subDims, s.tileDimIndex < t.dims.length ∧ s.reshapeDimIndex < t.reshapeDims.length
  tileDims    : ∀ i < t.dims.length,
    ((subDims.filter (·.tileDimIndex = i)).map SubDimInfo.size).prod = t.dims.getD i 0
  reshapeDims : ∀ d < t.reshapeDims.length,
    ((subDims.filter (·.reshapeDimIndex = d)).map SubDimInfo.size).prod = t.reshapeDims.getD d 0
  sorted      : subDims.Pairwise fun a b => a.reshapeDimIndex ≤ b.reshapeDimIndex
  isPerm      : perm.Perm (List.range subDims.length)
  tileOrder   : ∃ tileOrder : List SubDimInfo,
    perm.map (subDims[·]?) = tileOrder.map some ∧ tileOrder.Pairwise TileOrder
  array       : toArray (subDims.map SubDimInfo.size) perm t.dims = t.toArray

theorem pairwise_tileOrder :
    ((List.range tiles.flatten.length).map (info tiles devices t.transposePerm)).Pairwise TileOrder := by
  rw [List.pairwise_map]
  refine List.pairwise_lt_range.imp_of_mem fun {j k} hj hk hjk => ?_
  have hk := List.mem_range.mp hk
  obtain hlt | heq := lt_or_eq_of_le (blockIndex_mono hjk.le hk)
  case inl => exact .inl hlt
  case inr =>
    have hm := mem_block_iff.mp (blockIndex_spec hk).2
    refine .inr ⟨heq, ?_⟩
    simp only [info, heq]
    omega

theorem decomposes_orderedSubDims (h : t.Canonical) (hf : Factors t tiles devices) :
    Decomposes t (orderedSubDims t tiles devices) (tilePerm t devices) := by
  have hl : (orderedSubDims t tiles devices).length = (reshapeBlocks t devices).flatten.length := by
    rw [←map_size_orderedSubDims h hf, List.length_map]
  constructor
  case tileDims    => exact fun i => prod_tileDim h hf
  case reshapeDims => exact fun d => prod_reshapeDim h hf
  case array       => exact toArray_orderedSubDims h hf
  case isPerm      => exact hl ▸ tilePerm_perm h hf
  case sorted      =>
    refine (pairwise_reshapeOrder hf.common (hf.perm h)).imp fun {a b} hab => ?_
    have := le_iff.mp hab
    omega
  case indices     =>
    intro s hs
    obtain ⟨k, hk, rfl⟩ := List.mem_map.mp ((orderedSubDims_perm h hf).mem_iff.mp hs)
    have hk := List.mem_range.mp hk
    have hlen : t.transposePerm.length = devices.length := by simpa using (hf.perm h).length_eq
    have hd : blockIndex devices k < t.transposePerm.length := hlen ▸ (blockIndex_spec (hf.common.flatten ▸ hk)).1
    constructor
    case left  =>
      rw [←hf.dims, List.length_map]
      exact (blockIndex_spec hk).1
    case right =>
      rw [info, List.getD_eq_getElem _ _ hd]
      exact List.mem_range.mp (h.describes.perm.mem_iff.mp (List.getElem_mem hd))
  case tileOrder   =>
    refine ⟨_, ?_, @pairwise_tileOrder t tiles devices⟩
    rw [←map_tilePerm h hf, List.map_map, List.map_map]
    refine List.map_congr_left fun i hi => ?_
    have hi := List.mem_range.mp ((tilePerm_perm h hf).mem_iff.mp hi)
    rw [←hl, orderedSubDims, List.length_map] at hi
    rw [orderedSubDims, List.getElem?_map, List.getElem?_eq_getElem hi]
    simp [hi]

end Decomposes

section GetOrderedSubDims

-- The dimensions and the permuted reshape dimensions have common factors.
structure Decomposable (t : IotaTileAssignment) : Prop where
  common : ∃ fs, CommonFactors t.dims (deviceShape t.reshapeDims t.transposePerm) fs
  ne_one : ∃ d ∈ t.dims, d ≠ 1

theorem decomposable_iff (h : t.Canonical) :
    Decomposable t ↔ extractCommonFactorSequence t.dims (deviceShape t.reshapeDims t.transposePerm) ≠ [] := by
  rw [extract_ne_nil_iff h.describes.dims_pos (deviceShape_pos h)]
  exact ⟨fun hd => ⟨hd.common, hd.ne_one⟩, fun hd => ⟨hd.1, hd.2⟩⟩

theorem getOrderedSubDims_ok (h : t.Canonical) (hd : Decomposable t) :
    ∃ subDims perm, getOrderedSubDimsFromIotaTileAssignment t = some (some subDims) ∧
      Decomposes t subDims perm := by
  have hn := (decomposable_iff h).mp hd
  obtain ⟨tiles, devices, hf⟩ := exists_factors h hn
  refine ⟨_, _, ?_, decomposes_orderedSubDims h hf⟩
  rw [getOrderedSubDimsFromIotaTileAssignment, getOrderedSubDims_eq h hf (hf.extracted ▸ hn)]
  rfl

theorem getOrderedSubDims_error (h : t.Canonical) (hd : ¬Decomposable t) :
    getOrderedSubDimsFromIotaTileAssignment t = some none := by
  rw [decomposable_iff h, not_not] at hd
  rw [getOrderedSubDimsFromIotaTileAssignment, getOrderedSubDims, ←deviceShape, if_pos hd]
  rfl

theorem getOrderedSubDims_decomposes (h : t.Created) {subDims : List SubDimInfo}
    (hs : getOrderedSubDimsFromIotaTileAssignment t = some (some subDims)) : ∃ perm, Decomposes t subDims perm := by
  by_cases hd : Decomposable t
  case neg =>
    rw [getOrderedSubDims_error h.canonical hd] at hs
    exact absurd (Option.some.inj hs) nofun
  case pos =>
    obtain ⟨subDims', perm, hs', hd⟩ := getOrderedSubDims_ok h.canonical hd
    obtain rfl : subDims' = subDims := by simpa [hs] using hs'.symm
    exact ⟨perm, hd⟩

theorem getOrderedSubDims_decomposes_mesh :
    ∃ subDims, getOrderedSubDimsFromIotaTileAssignment ⟨[6, 35], [7, 10, 3], [2, 1, 0]⟩ = some (some subDims) ∧
      ∃ perm, Decomposes ⟨[6, 35], [7, 10, 3], [2, 1, 0]⟩ subDims perm := by
  have hc : IotaTileAssignment.Created ⟨[6, 35], [7, 10, 3], [2, 1, 0]⟩ :=
    .transform (show Describes [6, 35] [7, 10, 3] [2, 1, 0] from ⟨by decide, by decide, by decide, by decide⟩) rfl
  have hd : Decomposable ⟨[6, 35], [7, 10, 3], [2, 1, 0]⟩ := {
    common := ⟨[3, 2, 5, 7], groups_iff.mpr ⟨[[3, 2], [5, 7]], by decide, by decide⟩,
      groups_iff.mpr ⟨[[3], [2, 5], [7]], by decide, by decide⟩⟩
    ne_one := ⟨6, by decide, by decide⟩
  }
  obtain ⟨subDims, _, hs, _⟩ := getOrderedSubDims_ok hc.canonical hd
  exact ⟨subDims, hs, getOrderedSubDims_decomposes hc hs⟩

end GetOrderedSubDims

section AnalyzeTileAssignment

variable {tileAssignment : TileAssignment}

theorem analyzeTileAssignment_iota (ht : tileAssignment.iota = some t) :
    analyzeTileAssignment tileAssignment =
      (getOrderedSubDimsFromIotaTileAssignment t).bind (·.map fun subDims => some (analyzeResult subDims t)) := by
  simp only [analyzeTileAssignment, ht]
  rcases getOrderedSubDimsFromIotaTileAssignment t with _ | _ | _ <;> rfl

theorem analyzeTileAssignment_returns_iff (ht : tileAssignment.iota = some t) (h : t.Created) :
    (∃ result, analyzeTileAssignment tileAssignment = some result) ↔ Decomposable t := by
  rw [analyzeTileAssignment_iota ht]
  by_cases hd : Decomposable t
  case pos =>
    obtain ⟨subDims, _, hs, _⟩ := getOrderedSubDims_ok h.canonical hd
    refine iff_of_true ⟨some (analyzeResult subDims t), ?_⟩ hd
    rw [hs]
    rfl
  case neg =>
    rw [getOrderedSubDims_error h.canonical hd]
    exact iff_of_false nofun hd

theorem analyzeTileAssignment_returns_iff_mesh :
    (∃ result, analyzeTileAssignment (.ofIota ⟨[6, 35], [7, 10, 3], [2, 1, 0]⟩) = some result) ↔
      Decomposable ⟨[6, 35], [7, 10, 3], [2, 1, 0]⟩ :=
  analyzeTileAssignment_returns_iff rfl
    (.transform (show Describes [6, 35] [7, 10, 3] [2, 1, 0] from ⟨by decide, by decide, by decide, by decide⟩)
      rfl)

-- Neither sizes without a common factor sequence nor a single device are compatible.
theorem not_analyzeTileAssignment_returns :
    (IotaTileAssignment.Created ⟨[2, 3], [2, 3], [1, 0]⟩ ∧
      ¬∃ result, analyzeTileAssignment (.ofIota ⟨[2, 3], [2, 3], [1, 0]⟩) = some result) ∧
    (IotaTileAssignment.Created ⟨[1], [1], [0]⟩ ∧
      ¬∃ result, analyzeTileAssignment (.ofIota ⟨[1], [1], [0]⟩) = some result) := by
  have h (t : IotaTileAssignment)
      (he : extractCommonFactorSequence t.dims (deviceShape t.reshapeDims t.transposePerm) = []) :
      ¬∃ result, analyzeTileAssignment (.ofIota t) = some result := by
    rw [analyzeTileAssignment_iota rfl, getOrderedSubDimsFromIotaTileAssignment, getOrderedSubDims, ←deviceShape,
      if_pos he]
    exact nofun
  refine ⟨⟨?fromCreated, ?fromFactors⟩, ?toCreated, ?toFactors⟩
  case fromCreated =>
    exact .transform (show Describes [2, 3] [2, 3] [1, 0] from ⟨by decide, by decide, by decide, by decide⟩) rfl
  case fromFactors => exact h _ (by simp [extractCommonFactorSequence, deviceShape, loop, next])
  case toCreated => exact .trivial (show ∀ d ∈ [1], 0 < d by decide)
  case toFactors => exact h _ (by simp [extractCommonFactorSequence, deviceShape, loop, next])

end AnalyzeTileAssignment
end Sharding
