import XlaModel.Sharding.Theorems.TileAssignment
import XlaModel.Sharding.Theorems.Transpose.Group
import XlaModel.Sharding.Theorems.Transpose.Collect

namespace Sharding.IotaTileAssignment

open View RowMajor CanonicalizeIotaDims Transpose

variable {t t' : IotaTileAssignment} {dims perm : List Nat} {k : Nat}

-- An iota form of the transposition of the device array.
structure Transposed (t : IotaTileAssignment) (perm : List Nat) (t' : IotaTileAssignment) : Prop where
  dims      : t'.dims = perm.map (t.dims.getD · 0)
  canonical : t'.Canonical
  offset    : ∀ k < t.dims.prod, offset t'.view k = offset t.view (offset (permuted t.dims perm) k)

theorem map_getD_zero (hp : perm.Perm (List.range dims.length)) :
    perm.map (dims.getD · 0) = perm.map (dims.getD · 1) :=
  List.map_congr_left fun d hd => by
    have : d < dims.length := List.mem_range.mp (hp.mem_iff.mp hd)
    simp [this]

theorem prod_map_getD (hp : perm.Perm (List.range dims.length)) : (perm.map (dims.getD · 0)).prod = dims.prod := by
  rw [(hp.map _).prod_eq, map_getD_range]

section NonOneDims

-- The dimensions that are not of size one are the permuted dimensions, as far as there are any.
def IsPrefix (t : IotaTileAssignment) (nonOneDims : List Nat) : Prop :=
  ∀ n (h : n < nonOneDims.length), n < t.reshapeDims.length ∧ t.reshapeDims.getD (t.transposePerm.getD n 0) 0 = nonOneDims[n]

theorem isPrefix_concat {xs : List Nat} {x : Nat} : IsPrefix t (xs ++ [x]) ↔
    IsPrefix t xs ∧ xs.length < t.reshapeDims.length ∧ t.reshapeDims.getD (t.transposePerm.getD xs.length 0) 0 = x := by
  constructor
  · intro h
    refine ⟨fun n hn => ?_, by simpa using h xs.length (by simp)⟩
    have := h n (by simp; omega)
    rwa [List.getElem_append_left hn] at this
  · rintro ⟨h, hx⟩ n hn
    obtain hlt | rfl := Nat.lt_or_eq_of_le (show n ≤ xs.length by simp at hn; omega)
    case inl =>
      rw [List.getElem_append_left hlt]
      exact h n hlt
    case inr => simpa using hx

theorem foldl_nonOneDim (s : NonOneDims) (hs : s.isPureTranspose = true ↔ IsPrefix t s.nonOneDims) :
    (dims.foldl (nonOneDim t) s).nonOneDims = s.nonOneDims ++ dims.filter (· ≠ 1) ∧
    (dims.foldl (nonOneDim t) s).oneToNonOne = s.oneToNonOne ++ oldToNewDims s.nonOneDims.length dims ∧
    ((dims.foldl (nonOneDim t) s).isPureTranspose = true ↔ IsPrefix t (dims.foldl (nonOneDim t) s).nonOneDims) := by
  induction dims generalizing s
  case nil => simpa [oldToNewDims] using hs
  case cons d dims hi =>
    rw [List.foldl_cons, oldToNewDims]
    by_cases hd : d = 1
    case pos =>
      have := hi (nonOneDim t s d) (by simpa [nonOneDim, hd] using hs)
      simpa [nonOneDim, hd] using this
    case neg =>
      have := hi (nonOneDim t s d) (by simp [nonOneDim, hd, isPrefix_concat, hs])
      simpa [nonOneDim, hd] using this

theorem nonOneDims_spec :
    (t.dims.foldl (nonOneDim t) ⟨[], [], true⟩).nonOneDims = t.dims.filter (· ≠ 1) ∧
    (t.dims.foldl (nonOneDim t) ⟨[], [], true⟩).oneToNonOne = oldToNewDims 0 t.dims ∧
    ((t.dims.foldl (nonOneDim t) ⟨[], [], true⟩).isPureTranspose = true ↔ IsPrefix t (t.dims.filter (· ≠ 1))) := by
  obtain ⟨h₁, h₂, h₃⟩ := @foldl_nonOneDim t t.dims ⟨[], [], true⟩ (by simp [IsPrefix])
  rw [h₁] at h₃
  exact ⟨h₁, h₂, h₃⟩

theorem two_le_of_mem_nonOneDims (h₀ : ∀ d ∈ dims, 0 < d) : ∀ d ∈ dims.filter (· ≠ 1), 2 ≤ d := by
  intro d hd
  obtain ⟨hd, hn⟩ := List.mem_filter.mp hd
  have := h₀ d hd
  have : d ≠ 1 := by simpa using hn
  omega

theorem eq_nil_of_prod_eq_one {xs : List Nat} (h₂ : ∀ x ∈ xs, 2 ≤ x) (h : xs.prod = 1) : xs = [] := by
  cases xs
  case nil => rfl
  case cons x xs =>
    have := h₂ x (.head _)
    rw [List.prod_cons] at h
    have := Nat.eq_one_of_mul_eq_one_right h
    omega

-- For a canonical form, a prefix is everything.
theorem Canonical.isPrefix_iff (h : t.Canonical) (hr : t.reshapeDims.length ≠ 1) :
    IsPrefix t (t.dims.filter (· ≠ 1)) ↔ t.dims.filter (· ≠ 1) = t.transposePerm.map (t.reshapeDims.getD · 0) := by
  have hl := length_eq_of_perm h.describes.perm
  constructor
  · intro hp
    have hN : Normal t.view := by
      obtain hN | hn := h.normal
      case inl => exact hN
      case inr => exact absurd (by rw [hn.1]; rfl) hr
    have hpre : t.dims.filter (· ≠ 1) <+: t.transposePerm.map (t.reshapeDims.getD · 0) := by
      rw [List.prefix_iff_getElem]
      have hle : (t.dims.filter (· ≠ 1)).length ≤ (t.transposePerm.map (t.reshapeDims.getD · 0)).length := by
        by_contra hlt
        rw [List.length_map, hl] at hlt
        exact absurd (hp t.reshapeDims.length (by omega)).1 (lt_irrefl _)
      refine ⟨hle, fun n hn => ?_⟩
      have hnl : n < t.transposePerm.length := by simpa using hn.trans_le hle
      have := (hp n hn).2
      rw [List.getElem_map, ← this, List.getD_eq_getElem _ _ hnl]
    obtain ⟨ws, hws⟩ := hpre
    have hw₂ : ∀ w ∈ ws, 2 ≤ w := by
      intro w hw
      have hm : w ∈ t.transposePerm.map (t.reshapeDims.getD · 0) := hws ▸ List.mem_append_right _ hw
      obtain ⟨d, hd, rfl⟩ := List.mem_map.mp hm
      have hd : d < t.reshapeDims.length := List.mem_range.mp (h.describes.perm.mem_iff.mp hd)
      rw [List.getD_eq_getElem _ _ hd]
      exact hN.two_le_sizes h.describes.perm _ (List.getElem_mem hd)
    have hprod := congrArg List.prod hws
    rw [List.prod_append, prod_map_getD h.describes.perm, h.describes.prod, prod_filter_ne_one] at hprod
    rw [← hws, eq_nil_of_prod_eq_one hw₂ (Nat.eq_of_mul_eq_mul_left h.describes.dims_prod_pos (by omega)), List.append_nil]
  · intro he n hn
    have hnl : n < t.transposePerm.length := by
      have := hn
      rwa [he, List.length_map] at this
    refine ⟨hl ▸ hnl, ?_⟩
    simp only [he, List.getElem_map, List.getD_eq_getElem _ _ hnl]

end NonOneDims

section Groups

-- One group of dimensions for each dimension of the device array.
def dimGroups (dims : List Nat) (groups : List (List α)) : List (List α) :=
  (oldToNewDims 0 dims).map fun d => (d.map (groups.getD · [])).getD []

theorem getD_dimGroups (groups : List (List α)) (d : Nat) :
    (dimGroups dims groups).getD d [] = (((oldToNewDims 0 dims).getD d none).map (groups.getD · [])).getD [] :=
  List.getD_map (oldToNewDims 0 dims) none _

theorem length_dimGroups (groups : List (List α)) : (dimGroups dims groups).length = dims.length := by
  rw [dimGroups, List.length_map, length_oldToNewDims]

theorem flatten_map_getD (groups : List (List α)) (ds : List (Option Nat)) :
    (ds.map fun d => (d.map (groups.getD · [])).getD []).flatten = (ds.filterMap id).flatMap (groups.getD · []) := by
  induction ds
  case nil => rfl
  case cons d ds hi => cases d <;> simp_all

theorem flatten_dimGroups {groups : List (List α)} (h : groups.length = (dims.filter (· ≠ 1)).length) :
    (dimGroups dims groups).flatten = groups.flatten := by
  rw [dimGroups, flatten_map_getD, filterMap_oldToNewDims, List.countP_eq_length_filter, ← h, ← List.range_eq_range',
    List.flatMap_def, map_getD_range]

theorem flatMap_dimGroups (groups : List (List α)) :
    perm.flatMap ((dimGroups dims groups).getD · []) = (newPerm dims perm).flatMap (groups.getD · []) := by
  have hf := flatten_map_getD groups (perm.map ((oldToNewDims 0 dims).getD · none))
  rw [List.map_map, List.filterMap_map] at hf
  simp only [getD_dimGroups]
  exact hf

theorem map_numElements_dimGroups {groups : List View} (h' : groups.map numElements = dims.filter (· ≠ 1)) :
    (dimGroups dims groups).map numElements = dims := by
  refine List.ext_getElem (by simp [length_dimGroups]) fun d h₁ h₂ => ?_
  have hd : d < (dimGroups dims groups).length := by simpa using h₁
  rw [List.getElem_map, ← List.getD_eq_getElem _ [] hd, getD_dimGroups, getD_oldToNewDims h₂]
  split_ifs with h
  case pos => exact h.symm
  case neg =>
    have hs : dims.filter (· ≠ 1) = (dims.take d).filter (· ≠ 1) ++ dims[d] :: (dims.drop (d + 1)).filter (· ≠ 1) := by
      conv_lhs => rw [← List.take_append_drop d dims, List.drop_eq_getElem_cons h₂, List.filter_append,
        List.filter_cons_of_pos (by simpa using h)]
    have hc : (groups.map numElements)[((dims.take d).filter (· ≠ 1)).length]? = some dims[d] := by
      rw [h', hs, List.getElem?_append_right le_rfl]
      simp
    rw [List.getElem?_map, Option.map_eq_some_iff] at hc
    obtain ⟨v, hv, hn⟩ := hc
    rw [Option.map_some, Option.getD_some, Nat.zero_add, List.countP_eq_length_filter, List.getD_eq_getElem?_getD, hv]
    exact hn

-- Transposing groups of dimensions permutes the groups.
theorem offset_dimGroups {groups : List View} (hp : perm.Perm (List.range dims.length))
    (h' : groups.map numElements = dims.filter (· ≠ 1)) (hs : Same groups.flatten v) (hk : k < dims.prod) :
    offset v (offset (permuted dims perm) k) = offset ((newPerm dims perm).flatMap (groups.getD · [])) k := by
  have hm := map_numElements_dimGroups h'
  have hl : groups.length = (dims.filter (· ≠ 1)).length := by rw [← h', List.length_map]
  have hf := flatten_dimGroups hl
  have hn : numElements groups.flatten = dims.prod := by
    rw [numElements, List.map_flatten, List.prod_flatten, List.map_map, ← prod_filter_ne_one dims, ← h']
    rfl
  have hp' : perm.Perm (List.range (dimGroups dims groups).length) := by rwa [length_dimGroups]
  have ho := offset_flatten_permuted (k := k) hp' (by rwa [hm])
  rw [hm, hf, ← List.flatMap_def, flatMap_dimGroups] at ho
  rw [← ho, hs.offset _ (hn ▸ offset_permuted_lt hp hk)]

end Groups

section Cases

variable (h : t.Canonical) (hp : perm.Perm (List.range t.dims.length))
include h hp

theorem describes_newDims {reshapeDims transposePerm : List Nat} (h₀ : ∀ d ∈ reshapeDims, 0 < d)
    (hq : transposePerm.Perm (List.range reshapeDims.length)) (hprod : reshapeDims.prod = t.dims.prod) :
    Describes (perm.map (t.dims.getD · 0)) reshapeDims transposePerm where
  dims_pos    := by
    intro d hd
    obtain ⟨i, hi, rfl⟩ := List.mem_map.mp hd
    have hi : i < t.dims.length := List.mem_range.mp (hp.mem_iff.mp hi)
    rw [List.getD_eq_getElem _ _ hi]
    exact h.describes.dims_pos _ (List.getElem_mem hi)
  reshape_pos := h₀
  perm        := hq
  prod        := hprod.trans (prod_map_getD hp).symm

omit h in
-- Every way to create the result reads the device array in the transposed order.
theorem exists_transposed {reshapeDims transposePerm : List Nat}
    (hd : Describes (perm.map (t.dims.getD · 0)) reshapeDims transposePerm) (hn : reshapeDims ≠ [])
    (ho : ∀ k < t.dims.prod, offset (permuted reshapeDims transposePerm) k = offset t.view (offset (permuted t.dims perm) k)) :
    ∃ t', create (perm.map (t.dims.getD · 0)) reshapeDims transposePerm = some t' ∧ Transposed t perm t' := by
  obtain ⟨t', hc, hd', ht, hs⟩ := create_spec hd hn
  refine ⟨t', hc, hd', ht, fun k hk => ?_⟩
  rw [hs.offset k, ho k hk]
  rwa [view, ht.describes.numElements_eq, hd', prod_map_getD hp]

theorem transposed_noop (hk : getTransposeKind t.dims perm = .noop) : Transposed t perm t where
  dims        := (GetTransposeKind.map_getD_eq hp hk).symm
  canonical   := h
  offset k hk' := by rw [GetTransposeKind.offset_eq hp (hk ▸ by decide) hk']

theorem transposed_reshape (hk : getTransposeKind t.dims perm = .reshape) :
    ∃ t', create (perm.map (t.dims.getD · 0)) t.reshapeDims t.transposePerm = some t' ∧ Transposed t perm t' := by
  refine exists_transposed hp (describes_newDims h hp h.describes.reshape_pos h.describes.perm h.describes.prod)
    h.ne_nil fun k hk' => ?_
  rw [GetTransposeKind.offset_eq hp (hk ▸ by decide) hk']
  rfl

-- The device array is an iota array.
theorem transposed_iota (hk : getTransposeKind t.dims perm = .transpose) (hr : t.reshapeDims.length = 1) :
    ∃ t', create (perm.map (t.dims.getD · 0)) t.dims perm = some t' ∧ Transposed t perm t' := by
  have hn : t.dims ≠ [] := by
    intro hn
    rw [hn, List.length_nil, List.range_zero, List.perm_nil] at hp
    subst hp
    cases hk
  refine exists_transposed hp (describes_newDims h hp h.describes.dims_pos hp rfl) hn fun k hk => ?_
  have hv : t.view = permuted t.reshapeDims (List.range t.reshapeDims.length) := by
    have := h.describes.perm
    rw [hr, List.range_one, List.perm_singleton] at this
    rw [view, this, hr, List.range_one]
  rw [hv, offset_rowMajor (h.describes.prod ▸ offset_permuted_lt hp hk)]

omit h in
theorem newPerm_eq_filterMap (f : Nat → Nat) :
    perm.filterMap (fun dim => if t.dims.getD dim 0 = 1 then none
      else some (f (((oldToNewDims 0 t.dims).getD dim none).getD 0))) = (newPerm t.dims perm).map f := by
  rw [newPerm, List.map_filterMap]
  refine List.filterMap_congr fun d hd => ?_
  have hd : d < t.dims.length := List.mem_range.mp (hp.mem_iff.mp hd)
  rw [List.getD_eq_getElem _ _ hd, getD_oldToNewDims hd]
  split_ifs <;> simp

theorem transposed_pure (hf : t.dims.filter (· ≠ 1) = t.transposePerm.map (t.reshapeDims.getD · 0)) {s : NonOneDims}
    (h₁ : s.nonOneDims = t.dims.filter (· ≠ 1)) (h₂ : s.oneToNonOne = oldToNewDims 0 t.dims) :
    ∃ t', pureTranspose t perm (perm.map (t.dims.getD · 0)) s = some t' ∧ Transposed t perm t' := by
  have hl := length_eq_of_perm h.describes.perm
  have hn : (t.dims.filter (· ≠ 1)).length = t.transposePerm.length := by rw [hf, List.length_map]
  have hq : (newPerm t.dims perm).Perm (List.range t.transposePerm.length) := hn ▸ newPerm_perm hp
  have hq' : ((newPerm t.dims perm).map (t.transposePerm.getD · 0)).Perm (List.range t.reshapeDims.length) := by
    have := hq.map (t.transposePerm.getD · 0)
    rw [map_getD_range] at this
    exact this.trans h.describes.perm
  have ho : ∀ k < t.dims.prod, offset (permuted t.reshapeDims ((newPerm t.dims perm).map (t.transposePerm.getD · 0))) k =
      offset t.view (offset (permuted t.dims perm) k) := by
    intro k hk
    have hg : (t.transposePerm.map fun d => [axis t.reshapeDims d]).map numElements = t.dims.filter (· ≠ 1) := by
      rw [hf, map_getD_zero h.describes.perm, List.map_map]
      exact List.map_congr_left fun d _ => by simp [axis]
    have hv : Same (t.transposePerm.map fun d => [axis t.reshapeDims d]).flatten t.view := by
      rw [flatten_map_singleton]
      exact .refl _
    rw [offset_dimGroups hp hg hv hk]
    congr 1
    rw [permuted, List.map_map, ← flatten_map_singleton, List.flatMap_def]
    congr 1
    refine List.map_congr_left fun d hd => ?_
    have hd : d < t.transposePerm.length := List.mem_range.mp (hq.mem_iff.mp hd)
    simp [hd]
  obtain ⟨t', hc, ht⟩ := exists_transposed hp (describes_newDims h hp h.describes.reshape_pos hq' h.describes.prod)
    h.ne_nil ho
  refine ⟨t', ?_, ht⟩
  have hlen : t.reshapeDims.length = ((newPerm t.dims perm).map (t.transposePerm.getD · 0)).length := by
    simpa using hq'.length_eq.symm
  rw [pureTranspose, guard, if_pos (by rw [h₁, hn, hl]), h₂]
  simp only [Option.bind_eq_bind, Option.pure_def, Option.bind_some]
  rw [newPerm_eq_filterMap hp (t.transposePerm.getD · 0), guard, if_pos hlen]
  exact hc

end Cases

section Grouped

open FullyDecanonicalize

variable {blocks : List (List Nat)} {info : Info} {s : NonOneDims}

theorem length_le_of_primes {xs ps : List Nat} (h₂ : ∀ x ∈ xs, 2 ≤ x) (hp : ∀ p ∈ ps, p.Prime) (h : xs.prod = ps.prod) :
    xs.length ≤ ps.length := by
  have hl : ps.length = ps.prod.primeFactorsList.length := (Nat.primeFactorsList_unique rfl hp).length_eq
  rw [hl, ← h]
  clear h
  induction xs
  case nil => simp
  case cons x xs hi =>
    have hx := h₂ x (.head _)
    have hpos : 0 < xs.prod := List.prod_pos fun y hy => Nat.zero_lt_of_lt (h₂ y (.tail _ hy))
    have hx' : 0 < x.primeFactorsList.length :=
      List.length_pos_iff.mpr ((Nat.primeFactorsList_ne_nil x).mpr hx)
    have := hi fun y hy => h₂ y (.tail _ hy)
    rw [List.prod_cons, (Nat.perm_primeFactorsList_mul (by omega) hpos.ne').length_eq, List.length_append, List.length_cons]
    omega

variable (h : t.Canonical) (hp : perm.Perm (List.range t.dims.length))
include h hp

theorem transposed_grouped {groups : List (List Nat)} {s' : GroupState} (hB : Factorization t.reshapeDims blocks)
    (hA : Arranged (entries t.transposePerm blocks) blocks info) (hd : t.dims.prod ≠ 1)
    (hg : groupReshapeDims ⟨info, 0⟩ (t.dims.filter (· ≠ 1)) = some (groups, s')) :
    ((newPerm t.dims perm).flatMap (groups.getD · [])).length = info.newTransposePerm.length ∧
    ∃ t', create (perm.map (t.dims.getD · 0)) s'.info.newReshapeDims ((newPerm t.dims perm).flatMap (groups.getD · [])) =
        some t' ∧ Transposed t perm t' := by
  have hl : t.reshapeDims.length = blocks.length := by rw [← hB.prod, List.length_map]
  have hprod : t.dims.prod = blocks.flatten.prod := by rw [List.prod_flatten, hB.prod, h.describes.prod]
  have hr : factors info 0 (entries t.transposePerm blocks).length = (t.dims.filter (· ≠ 1)).prod := by
    rw [hA.factors_eq, prod_filter_ne_one, hprod]
  obtain ⟨blocks', ha, hf, hm⟩ := groupReshapeDims_spec hA hB.prime (Nat.zero_le _)
    (two_le_of_mem_nonOneDims h.describes.dims_pos) hr hg
  have hlen := map_length_eq ha.perm
  have hlen' : groups.length = (t.dims.filter (· ≠ 1)).length := by rw [← hm, List.length_map]
  have hf : groups.flatten = t.transposePerm.flatMap (block blocks') := by
    rw [hf, show block blocks' = block blocks from funext fun d => block_congr hlen.symm, ← map_fst_entries]
    refine List.ext_getElem (by simp) fun i h₁ h₂ => ?_
    have hi : i < (entries t.transposePerm blocks).length := by simpa using h₂
    simp [hi]
  have hl' : blocks.length = blocks'.length := List.Forall₂.length_eq ha.perm
  have hprod' : blocks'.map List.prod = t.reshapeDims := by rw [← map_prod_eq ha.perm, hB.prod]
  have hq : t.transposePerm.Perm (List.range blocks'.length) := hl' ▸ hl ▸ h.describes.perm
  have hq' : ((newPerm t.dims perm).flatMap (groups.getD · [])).Perm groups.flatten := by
    have := (newPerm_perm hp).flatMap_right (groups.getD · [])
    rwa [← hlen', List.flatMap_def (l := List.range _), map_getD_range] at this
  have hq'' : ((newPerm t.dims perm).flatMap (groups.getD · [])).Perm (List.range s'.info.newReshapeDims.length) := by
    rw [ha.arranged.dims]
    exact hq'.trans (hf ▸ flatMap_block_perm hq)
  have hprime := prime_of_perm ha.perm hB.prime
  have hpos : ∀ d ∈ s'.info.newReshapeDims, 0 < d := by
    rw [ha.arranged.dims]
    intro d hd
    obtain ⟨ps, hps, hd⟩ := List.mem_flatten.mp hd
    exact (hprime ps hps d hd).pos
  have hprod'' : s'.info.newReshapeDims.prod = t.dims.prod := by
    rw [ha.arranged.dims, List.prod_flatten, hprod', h.describes.prod]
  have ho : ∀ k < t.dims.prod, offset (permuted s'.info.newReshapeDims ((newPerm t.dims perm).flatMap (groups.getD · []))) k =
      offset t.view (offset (permuted t.dims perm) k) := by
    intro k hk
    have hg' : (groups.map (permuted s'.info.newReshapeDims)).map numElements = t.dims.filter (· ≠ 1) := by
      rw [List.map_map, ← hm]
      refine List.map_congr_left fun g hg => ?_
      rw [Function.comp_apply, numElements, permuted, List.map_map, groupSize]
      congr 1
      refine List.map_congr_left fun j hj => ?_
      have hj : j ∈ groups.flatten := List.mem_flatten.mpr ⟨g, hg, hj⟩
      have hlt : j < s'.info.newReshapeDims.length := List.mem_range.mp (hq''.mem_iff.mp (hq'.mem_iff.mpr hj))
      simp [axis, hlt]
    have hv : Same (groups.map (permuted s'.info.newReshapeDims)).flatten t.view := by
      have hd : ∀ d ∈ t.transposePerm, d < blocks'.length := fun d hd => List.mem_range.mp (hq.mem_iff.mp hd)
      have := same_blocks hd
      rw [hprod', ← hf, ← ha.arranged.dims] at this
      rwa [show (groups.map (permuted s'.info.newReshapeDims)).flatten = permuted s'.info.newReshapeDims groups.flatten
        from List.map_flatten.symm]
    rw [offset_dimGroups hp hg' hv hk]
    congr 1
    rw [permuted, List.map_flatMap]
    refine List.flatMap_congr fun d hd => ?_
    have hd : d < groups.length := hlen' ▸ List.mem_range.mp ((newPerm_perm hp).mem_iff.mp hd)
    simp [hd, permuted]
  refine ⟨?_, exists_transposed hp (describes_newDims h hp hpos hq'' hprod'') ?_ ho⟩
  · rw [hq''.length_eq, List.length_range, hA.appended.perm, List.length_map, ha.arranged.dims,
      ha.arranged.length_flatten]
  · rintro hn
    rw [hn] at hprod''
    exact hd hprod''.symm

end Grouped

end Sharding.IotaTileAssignment
