import XlaModel.Sharding.Theorems.TileAssignment
import XlaModel.Sharding.Theorems.Transpose.IotaTileAssignment

namespace Sharding

open View

namespace IotaTileAssignment

open CanonicalizeIotaDims FullyDecanonicalize Transpose

variable {t t' : IotaTileAssignment} {perm : List Nat}

-- The transposition factors a dimension whose trial division overflows.
structure DecanonicalizationOverflows (t : IotaTileAssignment) (perm : List Nat) : Prop where
  transpose : getTransposeKind t.dims perm = .transpose
  not_iota  : t.reshapeDims.length ≠ 1
  not_pure  : t.dims.filter (· ≠ 1) ≠ t.transposePerm.map (t.reshapeDims.getD · 0)
  overflows : Overflows t.reshapeDims

theorem take_prod_dvd {xs : List Nat} {i j : Nat} (h : i ≤ j) : (xs.take i).prod ∣ (xs.take j).prod :=
  (List.take_sublist_take_left h).prod_dvd_prod

theorem interleaves_self (xs : List Nat) : Interleaves xs xs := by
  intro i j
  obtain h | h := Nat.le_total i j
  case inl => exact .inl (take_prod_dvd h)
  case inr => exact .inr (take_prod_dvd h)

theorem interleaves_singleton {xs : List Nat} {n : Nat} (h : xs.prod = n) : Interleaves xs [n] := by
  intro i j
  cases j
  case zero   => exact .inr (by simp)
  case succ j =>
    refine .inl ?_
    rw [List.take_succ_cons, List.take_nil, List.prod_singleton, ← h]
    exact (List.take_sublist i xs).prod_dvd_prod

section Spec

variable (h : t.Canonical) (hp : perm.Perm (List.range t.dims.length))
include h

theorem isPure_iff (hr : t.reshapeDims.length ≠ 1) : (t.dims.foldl (nonOneDim t) ⟨[], [], true⟩).isPureTranspose = true ↔
    t.dims.filter (· ≠ 1) = t.transposePerm.map (t.reshapeDims.getD · 0) :=
  nonOneDims_spec.2.2.trans (h.isPrefix_iff hr)

theorem prod_ne_one (hr : t.reshapeDims.length ≠ 1) : t.dims.prod ≠ 1 := by
  intro hd
  obtain hN | hn := h.normal
  case inl =>
    exact h.ne_nil (eq_nil_of_prod_eq_one (hN.two_le_sizes h.describes.perm) (h.describes.prod.trans hd))
  case inr => exact hr (by rw [hn.1]; rfl)

include hp

theorem groupedTranspose_spec (hr : t.reshapeDims.length ≠ 1) (ho : ¬Overflows t.reshapeDims) {s : NonOneDims}
    (h₁ : s.nonOneDims = t.dims.filter (· ≠ 1)) (h₂ : s.oneToNonOne = oldToNewDims 0 t.dims) :
    ∃ r, groupedTranspose t perm (perm.map (t.dims.getD · 0)) s = some r ∧ (∀ t', r = some t' → Transposed t perm t') ∧
      (r.isSome = true ↔ Interleaves (t.dims.filter (· ≠ 1)) (t.transposePerm.map (t.reshapeDims.getD · 0))) := by
  obtain ⟨info, blocks, hf, hS, hB⟩ := fullyDecanonicalize_spec h.describes.reshape_pos h.describes.perm ho
  have hl : t.reshapeDims.length = blocks.length := by rw [← hB.prod, List.length_map]
  have hlt : ∀ d ∈ t.transposePerm, d < blocks.length := fun d hd =>
    hl ▸ List.mem_range.mp (h.describes.perm.mem_iff.mp hd)
  have hA : Arranged (entries t.transposePerm blocks) blocks info := .of_splits (hl ▸ h.describes.perm) hS
  have h₂' := two_le_of_mem_nonOneDims h.describes.dims_pos
  have hprod : (t.dims.filter (· ≠ 1)).prod = info.newReshapeDims.prod := by
    rw [prod_filter_ne_one, hA.dims, List.prod_flatten, hB.prod, h.describes.prod]
  have hr' : factors info 0 (entries t.transposePerm blocks).length = (t.dims.filter (· ≠ 1)).prod := by
    rw [hA.factors_eq, hprod, hA.dims]
  have hle : (t.dims.filter (· ≠ 1)).length ≤ info.newReshapeDims.length := by
    refine length_le_of_primes h₂' (fun p hp => ?_) hprod
    rw [hA.dims] at hp
    obtain ⟨ps, hps, hp⟩ := List.mem_flatten.mp hp
    exact hB.prime ps hps p hp
  rw [groupedTranspose, hf]
  simp only [Option.bind_eq_bind, Option.bind_some, h₁, guard, if_pos hle, Option.pure_def, h₂]
  rw [map_getD_zero h.describes.perm, ← hB.prod]
  cases hg : groupReshapeDims ⟨info, 0⟩ (t.dims.filter (· ≠ 1))
  case none =>
    refine ⟨none, rfl, by simp, ?_⟩
    obtain ⟨i, j, hn, hn'⟩ := not_interleaves_of_none hB.prime hlt h₂' rfl hA (Nat.zero_le _) hr' hg
    rw [factors_self, Nat.one_mul] at hn hn'
    simp only [Option.isSome_none, Bool.false_eq_true, false_iff]
    exact fun hI => (hI i j).elim hn hn'
  case some r =>
    obtain ⟨groups, s'⟩ := r
    obtain ⟨hlen, t', hc, ht⟩ := transposed_grouped h hp hB hA (prod_ne_one h hr) hg
    have hI := interleaves_of_some hB.prime hlt h₂' rfl hA rfl hr' hg
    refine ⟨some t', ?_, by rintro _ ⟨⟩; exact ht, by simpa using hI⟩
    have hfl : (perm.flatMap fun dim => (((oldToNewDims 0 t.dims).getD dim none).map (groups.getD · [])).getD []) =
        (newPerm t.dims perm).flatMap (groups.getD · []) := by
      rw [← flatMap_dimGroups]
      simp only [getD_dimGroups]
    simp only [hfl, if_pos hlen, Option.bind_some, hc]

theorem transpose_spec (ho : ¬t.DecanonicalizationOverflows perm) :
    ∃ r, t.transpose perm = some r ∧ (∀ t', r = some t' → Transposed t perm t') ∧
      (r.isSome = true ↔ (getTransposeKind t.dims perm = .transpose →
        Interleaves (t.dims.filter (· ≠ 1)) (t.transposePerm.map (t.reshapeDims.getD · 0)))) := by
  obtain ⟨h₁, h₂, _⟩ := nonOneDims_spec (t := t)
  rw [transpose]
  cases hk : getTransposeKind t.dims perm <;> simp only
  case noop => exact ⟨some t, rfl, by rintro _ ⟨⟩; exact transposed_noop h hp hk, by simp⟩
  case reshape =>
    obtain ⟨t', hc, ht⟩ := transposed_reshape h hp hk
    exact ⟨some t', by rw [hc]; rfl, by rintro _ ⟨⟩; exact ht, by simp⟩
  case transpose =>
    split_ifs with hr hpure
    case pos =>
      obtain ⟨t', hc, ht⟩ := transposed_iota h hp hk hr
      refine ⟨some t', by rw [hc]; rfl, by rintro _ ⟨⟩; exact ht, ?_⟩
      obtain ⟨n, hn⟩ := List.length_eq_one_iff.mp hr
      have hq := h.describes.perm
      rw [hr, List.range_one, List.perm_singleton] at hq
      have hd := h.describes.prod
      rw [hn, List.prod_singleton, ← prod_filter_ne_one] at hd
      rw [hn, hq]
      simpa using interleaves_singleton hd.symm
    case pos =>
      rw [isPure_iff h hr] at hpure
      have hI := interleaves_self (t.dims.filter (· ≠ 1))
      conv at hI => arg 2; rw [hpure]
      obtain ⟨t', hc, ht⟩ := transposed_pure h hp hpure h₁ h₂
      exact ⟨some t', by rw [hc]; rfl, by rintro _ ⟨⟩; exact ht, by simpa using hI⟩
    case neg =>
      rw [isPure_iff h hr] at hpure
      obtain ⟨r, hg, ht, hi⟩ := groupedTranspose_spec h hp hr (fun ho' => ho ⟨hk, hr, hpure, ho'⟩) h₁ h₂
      exact ⟨r, hg, ht, by simpa using hi⟩

omit hp in
theorem transpose_none (ho : t.DecanonicalizationOverflows perm) : t.transpose perm = none := by
  rw [transpose, ho.transpose]
  simp only
  rw [if_neg ho.not_iota, if_neg fun hpure => ho.not_pure ((isPure_iff h ho.not_iota).mp hpure), groupedTranspose,
    fullyDecanonicalize_none h.describes.reshape_pos ho.overflows]
  rfl

omit h in
theorem Transposed.gathers (ht : Transposed t perm t') :
    Array.Gathers (deviceArray t.dims t.view) perm (deviceArray t'.dims t'.view) where
  valid := ⟨by simp [deviceArray]⟩
  sizes := ht.dims.trans (map_getD_zero hp)
  values k hk := by
    have hk : k < t.dims.prod := hk
    have hk' : k < t'.dims.prod := by rwa [ht.dims, prod_map_getD hp]
    rw [getElem?_deviceArray hk', ht.offset k hk]
    exact (getElem?_deviceArray (offset_permuted_lt hp hk)).symm

end Spec

end IotaTileAssignment

namespace TileAssignment

variable {t : TileAssignment} {iota : IotaTileAssignment} {perm : List Nat}

-- The result of transposing the device array.
structure TransposesArray (t : TileAssignment) (perm : List Nat) (t' : TileAssignment) : Prop where
  array : ∃ a b, t.array = some a ∧ t'.array = some b ∧ a.transposeDimensions perm = some b ∧ a.IsTranspose perm b

theorem transposeArray_spec {a : Array Int} (ha : t.array = some a) (hv : a.Valid) (hp : perm.Perm (List.range a.sizes.length)) :
    ∃ t', t.transposeArray perm = some t' ∧ t'.iota = none ∧ t.TransposesArray perm t' := by
  obtain ⟨b, hb, ht⟩ := Array.transposeDimensions_isTranspose hv hp
  exact ⟨ofArray b, by simp [transposeArray, ha, hb], rfl, a, b, ha, rfl, hb, ht⟩

theorem TransposesArray.of_gathers {t' : TileAssignment} {a b : Array Int} (ha : t.array = some a) (hb : t'.array = some b)
    (hv : a.Valid) (hp : perm.Perm (List.range a.sizes.length)) (hg : a.Gathers perm b) : t.TransposesArray perm t' := by
  obtain ⟨c, hc, hg'⟩ := Array.transposeDimensions_gathers hv hp
  exact ⟨a, b, ha, hb, hg.unique hp hg' ▸ hc, hg.isTranspose hp⟩

namespace Holds

variable (ht : t.Holds iota) (h : iota.Canonical)
include ht h

theorem array_eq_deviceArray : t.array = some (deviceArray iota.dims iota.view) :=
  (ht.array_eq h).trans h.toArray_eq

theorem dimensions_eq : t.dimensions = some iota.dims := by
  rw [dimensions, ht.iota_eq]
  cases ha : t.array_
  case none => rfl
  case some a =>
    obtain rfl := Option.some.inj (h.toArray_eq.symm.trans (ht.cached a ha))
    rfl

-- Without an iota form of the transposition, the array is transposed.
theorem transpose_spec (hp : perm.Perm (List.range iota.dims.length)) (ho : ¬iota.DecanonicalizationOverflows perm) :
    ∃ t', t.transpose perm = some t' ∧ t.TransposesArray perm t' ∧
      ∀ r, iota.transpose perm = some r → ∀ iota', t'.iota = some iota' → t'.Holds iota' ∧ r = some iota' := by
  have hA := ht.array_eq_deviceArray h
  have hv : (deviceArray iota.dims iota.view).Valid := ⟨by simp [deviceArray]⟩
  obtain ⟨r, hr, hT, _⟩ := iota.transpose_spec h hp ho
  rw [transpose, ht.dimensions_eq h]
  simp only [Option.bind_eq_bind, Option.bind_some, ht.iota_eq, Option.pure_def, hr]
  split_ifs with hk
  case pos =>
    have hg := (IotaTileAssignment.transposed_noop h hp hk).gathers hp
    have hr' : iota.transpose perm = some (some iota) := by simp [IotaTileAssignment.transpose, hk]
    refine ⟨t, rfl, .of_gathers hA hA hv hp hg, ?_⟩
    rintro _ ⟨⟩ iota' hi
    obtain rfl := Option.some.inj (ht.iota_eq.symm.trans hi)
    exact ⟨ht, Option.some.inj (hr.symm.trans hr')⟩
  case neg =>
    cases hn : r
    case none =>
      obtain ⟨t', ht', hn, htr⟩ := transposeArray_spec hA hv hp
      exact ⟨t', ht', htr, by simp [hn]⟩
    case some iota'' =>
      have hT := hT _ hn
      have hA' := (holds_ofIota iota'').array_eq_deviceArray hT.canonical
      refine ⟨ofIota iota'', rfl, .of_gathers hA hA' hv hp (hT.gathers hp), ?_⟩
      rintro _ ⟨⟩ _ ⟨⟩
      exact ⟨holds_ofIota _, rfl⟩

end Holds

-- The iota form and the array are transposed alike, without failing checks.
structure TransposeAgrees (iota : IotaTileAssignment) (perm : List Nat) : Prop where
  form : ∃ r, iota.transpose perm = some r ∧
    ∀ iota', r = some iota' → ∃ a b, iota.toArray = some a ∧ iota'.toArray = some b ∧ a.IsTranspose perm b
  tile : ∀ t : TileAssignment, t.Holds iota → ∃ t', t.transpose perm = some t' ∧ t.TransposesArray perm t'

theorem transposeAgrees_iff (h : iota.Created) (hp : perm.Perm (List.range iota.dims.length)) :
    TransposeAgrees iota perm ↔ ¬iota.DecanonicalizationOverflows perm := by
  have hc := h.canonical
  constructor
  · intro ha ho
    obtain ⟨r, hr, _⟩ := ha.form
    rw [IotaTileAssignment.transpose_none hc ho] at hr
    cases hr
  · intro ho
    obtain ⟨r, hr, hT, _⟩ := iota.transpose_spec hc hp ho
    refine ⟨⟨r, hr, fun iota' hi => ?_⟩, fun t ht => ?_⟩
    · have hT := hT iota' hi
      exact ⟨_, _, hc.toArray_eq, hT.canonical.toArray_eq, (hT.gathers hp).isTranspose hp⟩
    · obtain ⟨t', ht', hA, _⟩ := ht.transpose_spec hc hp ho
      exact ⟨t', ht', hA⟩

theorem transposeAgrees_iff_small : TransposeAgrees ⟨[6, 4], [2, 12], [1, 0]⟩ [1, 0] ↔
    ¬(⟨[6, 4], [2, 12], [1, 0]⟩ : IotaTileAssignment).DecanonicalizationOverflows [1, 0] :=
  have h : Describes [6, 4] [2, 12] [1, 0] := ⟨by decide, by decide, by decide, rfl⟩
  transposeAgrees_iff (.transform h rfl) (by decide)

-- The square of a prime number that is larger than all divisors whose square does not overflow.
theorem not_transposeAgrees_large : ¬TransposeAgrees ⟨[2, 46349 ^ 2], [2, 46349 ^ 2], [1, 0]⟩ [1, 0] := by
  have h : Describes [2, 46349 ^ 2] [2, 46349 ^ 2] [1, 0] := ⟨by decide, by decide, by decide, rfl⟩
  intro ha
  obtain ⟨r, hr, _⟩ := ha.form
  have hc : IotaTileAssignment.Canonical ⟨[2, 46349 ^ 2], [2, 46349 ^ 2], [1, 0]⟩ :=
    IotaTileAssignment.Created.canonical (.transform h rfl)
  rw [IotaTileAssignment.transpose_none hc] at hr
  · cases hr
  · have hp : Nat.Prime 46349 := by norm_num
    have hc : FullyDecanonicalize.cofactor 46349 = 46349 :=
      FullyDecanonicalize.cofactor_eq (by decide) fun p hq hd => by
        rw [(Nat.prime_dvd_prime_iff_eq hq hp).mp hd]
        decide
    refine ⟨by decide, by decide, by decide, 46349 ^ 2, by decide, ?_⟩
    rw [pow_two 46349, FullyDecanonicalize.cofactor_mul (by decide) (by decide), hc]
    decide

end TileAssignment
end Sharding
