import XlaModel.Sharding.Theorems.Canonicalize
import XlaModel.Sharding.TileAssignment

namespace Sharding

open View RowMajor

variable {dims reshapeDims transposePerm : List Nat}

-- A device array that is described by reshaping and transposing an iota array.
structure Describes (dims reshapeDims transposePerm : List Nat) : Prop where
  dims_pos    : ∀ d ∈ dims, 0 < d
  reshape_pos : ∀ d ∈ reshapeDims, 0 < d
  perm        : transposePerm.Perm (List.range reshapeDims.length)
  prod        : reshapeDims.prod = dims.prod

def deviceArray (dims : List Nat) (v : View) : Array Int where
  sizes  := dims
  values := (List.range dims.prod).map (offset v ·)

theorem getElem?_deviceArray {v : View} (hk : k < dims.prod) :
    (deviceArray dims v).values[k]? = some (offset v k : Int) := by
  simp [deviceArray, hk]

theorem getElem?_iota {sizes : List Nat} (hk : k < sizes.prod) : (Array.iota sizes 0).values[k]? = some (k : Int) := by
  rw [Array.iota, List.getElem?_map]
  simp [hk]

theorem iota_valid (sizes : List Nat) : (Array.iota sizes 0).Valid :=
  ⟨by simp [Array.iota]⟩

theorem deviceArray_congr (h : Same v w) (hn : numElements v = dims.prod) : deviceArray dims v = deviceArray dims w := by
  refine Array.ext rfl (List.map_congr_left fun k hk => ?_)
  rw [h.offset k (hn ▸ List.mem_range.mp hk)]

theorem same_of_deviceArray_eq (hv : numElements v = dims.prod) (hw : numElements w = dims.prod)
    (h : deviceArray dims v = deviceArray dims w) : Same v w where
  numElements := hv.trans hw.symm
  offset k hk := by
    have := List.map_inj_left.mp (congrArg Array.values h) k (List.mem_range.mpr (hv ▸ hk))
    exact Int.ofNat.inj this

namespace Describes

variable (h : Describes dims reshapeDims transposePerm)
include h

theorem dims_prod_pos : 0 < dims.prod :=
  List.prod_pos h.dims_pos

theorem numElements_eq : numElements (permuted reshapeDims transposePerm) = dims.prod :=
  (numElements_permuted h.perm).trans h.prod

theorem gathers_iff {a : Array Int} : Array.Gathers (Array.iota reshapeDims 0) transposePerm a ↔
    a = deviceArray (transposePerm.map (reshapeDims.getD · 1)) (permuted reshapeDims transposePerm) := by
  have hp : (transposePerm.map (reshapeDims.getD · 1)).prod = reshapeDims.prod :=
    Array.prod_map_dim (a := Array.iota reshapeDims 0) h.perm
  have hg : Array.Gathers (Array.iota reshapeDims 0) transposePerm
      (deviceArray (transposePerm.map (reshapeDims.getD · 1)) (permuted reshapeDims transposePerm)) := by
    refine ⟨⟨by simp [deviceArray]⟩, rfl, fun k (hk : k < reshapeDims.prod) => ?_⟩
    rw [getElem?_deviceArray (hp.symm ▸ hk)]
    exact (getElem?_iota (offset_permuted_lt h.perm hk)).symm
  exact ⟨fun ha => ha.unique h.perm hg, fun ha => ha ▸ hg⟩

theorem toArray_eq : toArray reshapeDims transposePerm dims =
    some (deviceArray dims (permuted reshapeDims transposePerm)) := by
  obtain ⟨a, ha, hg⟩ := Array.transposeDimensions_gathers (iota_valid _) h.perm
  have hp : (transposePerm.map (reshapeDims.getD · 1)).prod = reshapeDims.prod :=
    Array.prod_map_dim (a := Array.iota reshapeDims 0) h.perm
  rw [h.gathers_iff] at hg
  have hn : (deviceArray (transposePerm.map (reshapeDims.getD · 1)) (permuted reshapeDims transposePerm)).numElements =
      dims.prod := by
    rw [Array.numElements, deviceArray, List.length_map, List.length_range, hp, h.prod]
  rw [toArray, ha, hg]
  refine (if_pos hn.symm).trans (congrArg some ?_)
  rw [deviceArray, deviceArray, hp, h.prod]

end Describes

-- An iota tile assignment whose dimensions are canonical.
structure IotaTileAssignment.Canonical (t : IotaTileAssignment) : Prop where
  describes : Describes t.dims t.reshapeDims t.transposePerm
  ne_nil    : t.reshapeDims ≠ []
  normal    : Normal (permuted t.reshapeDims t.transposePerm) ∨ t.reshapeDims = [1] ∧ t.transposePerm = [0]

namespace IotaTileAssignment

variable {t t' : IotaTileAssignment}

def view (t : IotaTileAssignment) : View :=
  permuted t.reshapeDims t.transposePerm

theorem Canonical.toArray_eq (h : t.Canonical) : t.toArray = some (deviceArray t.dims t.view) :=
  h.describes.toArray_eq

theorem create_spec (h : Describes dims reshapeDims transposePerm) (hn : reshapeDims ≠ []) :
    ∃ t, create dims reshapeDims transposePerm = some t ∧ t.dims = dims ∧ t.Canonical ∧
      Same t.view (permuted reshapeDims transposePerm) := by
  obtain ⟨dims', perm', hc, hp, hs, hN⟩ := canonicalizeIotaDims_spec h.perm h.reshape_pos
  have hp₀ : transposePerm ≠ [] := by
    rintro rfl
    exact hn (List.length_eq_zero_iff.mp (length_eq_of_perm h.perm).symm)
  rw [create, hc]
  simp only [Option.bind_eq_bind, Option.bind_some]
  by_cases hd : dims' = []
  case neg =>
    rw [if_pos hd]
    have hpos : ∀ d ∈ dims', 0 < d := by
      obtain hN | ⟨rfl, _⟩ := hN
      case inl => exact fun d hd => Nat.zero_lt_of_lt (hN.two_le_sizes hp d hd)
      case inr => simp
    refine ⟨_, rfl, rfl, ⟨⟨h.dims_pos, hpos, hp, ?_⟩, hd, hN⟩, hs⟩
    rw [← h.prod, ← numElements_permuted hp, hs.numElements, numElements_permuted h.perm]
  case pos =>
    rw [if_neg (not_not.mpr hd), if_pos ⟨hn, hp₀⟩]
    subst hd
    obtain rfl : perm' = [] := by simpa using hp.length_eq
    have hprod : dims.prod = 1 := by rw [← h.numElements_eq, ← hs.numElements]; rfl
    refine ⟨_, rfl, rfl, ⟨⟨h.dims_pos, by simp, .refl _, by simp [hprod]⟩, by simp, .inr ⟨rfl, rfl⟩⟩, ?_⟩
    exact (same_one rfl).trans hs

theorem create_nil : create dims [] [] = none := rfl

-- The ways to obtain an iota tile assignment.
inductive Created : IotaTileAssignment → Prop
  | trivial {dims : List Nat} : (∀ d ∈ dims, 0 < d) → Created (createTrivial dims)
  | transform {dims reshapeDims transposePerm : List Nat} {t : IotaTileAssignment} :
    Describes dims reshapeDims transposePerm → create dims reshapeDims transposePerm = some t → Created t

theorem createTrivial_canonical (h : ∀ d ∈ dims, 0 < d) : (createTrivial dims).Canonical where
  describes := ⟨h, by simpa [createTrivial] using List.prod_pos h, .refl _, by simp [createTrivial]⟩
  ne_nil    := by simp [createTrivial]
  normal    := by
    by_cases h₁ : dims.prod = 1
    case pos => exact .inr ⟨by simp [createTrivial, h₁], rfl⟩
    case neg =>
      have := List.prod_pos h
      exact .inl ⟨by simp [createTrivial, permuted, axis]; omega, by simp [createTrivial, permuted]⟩

theorem Created.canonical (h : Created t) : t.Canonical := by
  cases h
  case trivial dims h => exact createTrivial_canonical h
  case transform dims reshapeDims transposePerm h hc =>
    have hn : reshapeDims ≠ [] := by
      rintro rfl
      obtain rfl : transposePerm = [] := by simpa using h.perm.length_eq
      simp [create_nil] at hc
    obtain ⟨t', hc', _, ht, _⟩ := create_spec h hn
    obtain rfl : t' = t := Option.some.inj (hc'.symm.trans hc)
    exact ht

theorem beq_iff : (t == t') = true ↔ t = t' := by
  constructor
  · intro h
    have h : ((t.dims == t'.dims && t.reshapeDims == t'.reshapeDims) && t.transposePerm == t'.transposePerm) = true := h
    simp only [Bool.and_eq_true, beq_iff_eq] at h
    exact IotaTileAssignment.ext h.1.1 h.1.2 h.2
  · rintro rfl
    change ((t.dims == t.dims && t.reshapeDims == t.reshapeDims) && t.transposePerm == t.transposePerm) = true
    simp

namespace Canonical

theorem view_ne (h : t.Canonical) (h' : t'.Canonical) (hN : Normal t.view) (h₁ : t'.reshapeDims = [1]) :
    ¬Same t.view t'.view := by
  intro hs
  have hp : t.reshapeDims.prod = 1 := by
    rw [← numElements_permuted h.describes.perm]
    exact hs.numElements.trans (by rw [view, numElements_permuted h'.describes.perm, h₁]; rfl)
  obtain ⟨r, hr⟩ := List.exists_mem_of_ne_nil _ h.ne_nil
  have := hN.two_le_sizes h.describes.perm r hr
  have := Nat.le_of_dvd (by omega) (hp ▸ List.dvd_prod hr)
  omega

-- The canonical form is determined by the device array.
theorem unique (h : t.Canonical) (h' : t'.Canonical) (hd : t.dims = t'.dims) (hs : Same t.view t'.view) : t = t' := by
  obtain hN | ⟨hr, hp⟩ := h.normal <;> obtain hN' | ⟨hr', hp'⟩ := h'.normal
  case inl.inl =>
    obtain ⟨hr, hp⟩ := permuted_inj h.describes.perm h'.describes.perm (hN.two_le_sizes h.describes.perm)
      (hN'.two_le_sizes h'.describes.perm) (hN.unique hN' hs)
    exact IotaTileAssignment.ext hd hr hp
  case inl.inr => exact absurd hs (h.view_ne h' hN hr')
  case inr.inl => exact absurd hs.symm (h'.view_ne h hN' hr)
  case inr.inr => exact IotaTileAssignment.ext hd (hr.trans hr'.symm) (hp.trans hp'.symm)

theorem toArray_inj (h : t.Canonical) (h' : t'.Canonical) (hd : t.dims = t'.dims) :
    t.toArray = t'.toArray ↔ t = t' := by
  constructor
  · intro ha
    rw [h.toArray_eq, h'.toArray_eq, hd] at ha
    exact h.unique h' hd <| same_of_deviceArray_eq (hd ▸ h.describes.numElements_eq) h'.describes.numElements_eq
      (Option.some.inj ha)
  · rintro rfl
    rfl

end Canonical

end IotaTileAssignment
end Sharding

namespace Sharding

open View

namespace TileAssignment

variable {t t' : TileAssignment} {iota iota' : IotaTileAssignment}

-- The tile assignment has the given iota form, and has either materialized it or not.
structure Holds (t : TileAssignment) (iota : IotaTileAssignment) : Prop where
  iota_eq : t.iota = some iota
  cached  : ∀ a, t.array_ = some a → iota.toArray = some a

theorem holds_ofIota (iota : IotaTileAssignment) : (ofIota iota).Holds iota where
  iota_eq := rfl
  cached  := by simp [ofIota]

namespace Holds

theorem maybeMaterializeFullArray (h : t.Holds iota) (hc : iota.Canonical) :
    ∃ t', t.maybeMaterializeFullArray = some t' ∧ t'.Holds iota ∧ t'.array_ = iota.toArray := by
  unfold TileAssignment.maybeMaterializeFullArray
  cases ha : t.array_
  case none =>
    refine ⟨{ t with array_ := iota.toArray }, ?_, ⟨h.iota_eq, fun a ha => ha⟩, rfl⟩
    simp [h.iota_eq, hc.toArray_eq]
  case some a => exact ⟨t, rfl, h, ha.trans (h.cached a ha).symm⟩

theorem array_eq (h : t.Holds iota) (hc : iota.Canonical) : t.array = iota.toArray := by
  obtain ⟨t', ht, _, ha⟩ := h.maybeMaterializeFullArray hc
  simp [array, ht, ha]

theorem beq_eq (h : t.Holds iota) (h' : t'.Holds iota') : t.beq t' = some (iota == iota') := by
  simp [beq, h.iota_eq, h'.iota_eq]

end Holds

-- Two iota forms are equal if and only if their device arrays are.
theorem beq_agrees (h : iota.Created) (h' : iota'.Created) (hd : iota.dims = iota'.dims) (ht : t.Holds iota)
    (ht' : t'.Holds iota') :
    ((iota == iota') = true ↔ iota.toArray = iota'.toArray) ∧
    (∃ a a', t.array = some a ∧ t'.array = some a' ∧ t.beq t' = some (decide (a = a'))) ∧
    (t.beq t' = some true →
      ∀ (H : Type) (combine : H → List Int → List Nat → H) (s : H), t.hashValue combine s = t'.hashValue combine s) := by
  have hc  := h.canonical
  have hc' := h'.canonical
  have hi := hc.toArray_inj hc' hd
  refine ⟨IotaTileAssignment.beq_iff.trans hi.symm, ?_, ?_⟩
  · refine ⟨_, _, (ht.array_eq hc).trans hc.toArray_eq, (ht'.array_eq hc').trans hc'.toArray_eq, ?_⟩
    rw [ht.beq_eq ht']
    congr 1
    rw [Bool.eq_iff_iff, IotaTileAssignment.beq_iff, decide_eq_true_iff, ← hi, hc.toArray_eq, hc'.toArray_eq]
    exact Option.some_inj
  · intro hb H combine s
    rw [ht.beq_eq ht'] at hb
    obtain rfl := IotaTileAssignment.beq_iff.mp (Option.some.inj hb)
    rw [hashValue, hashValue, ht.array_eq hc, ht'.array_eq hc]

theorem beq_agrees_six :
    ((⟨[6], [2, 3], [1, 0]⟩ : IotaTileAssignment) == ⟨[6], [3, 2], [1, 0]⟩) = true ↔
      (⟨[6], [2, 3], [1, 0]⟩ : IotaTileAssignment).toArray = (⟨[6], [3, 2], [1, 0]⟩ : IotaTileAssignment).toArray :=
  have h : Describes [6] [2, 3] [1, 0] := ⟨by decide, by decide, by decide, rfl⟩
  have h' : Describes [6] [1, 3, 2] [2, 0, 1] := ⟨by decide, by decide, by decide, rfl⟩
  (beq_agrees (.transform h rfl) (.transform h' rfl) rfl (holds_ofIota _) (holds_ofIota _)).1

end TileAssignment
end Sharding
