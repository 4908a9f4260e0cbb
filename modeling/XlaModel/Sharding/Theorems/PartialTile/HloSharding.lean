import XlaModel.Sharding.Theorems.HloSharding
import XlaModel.Sharding.Theorems.PartialTile.Group

namespace Sharding

open View

variable {dims : List Nat} {v w : View} {g fuel : Nat}

theorem pos_of_prod_pos {xs : List Nat} (h : 0 < xs.prod) : ∀ x ∈ xs, 0 < x := by
  intro x hx
  apply Nat.pos_of_ne_zero
  rintro rfl
  exact absurd (Nat.zero_dvd.mp (List.dvd_prod hx)) h.ne'

theorem values_deviceArray (h : numElements v = dims.prod) : (deviceArray dims v).values = (offsets v).map Int.ofNat := by
  rw [deviceArray, offsets, h, List.map_map]
  rfl

theorem deviceArray_groupsSorted (hv : numElements v = dims.prod) (hw : numElements w = dims.prod)
    (h : List.GroupsSorted g (offsets v) (offsets w)) :
    List.GroupsSorted g (deviceArray dims v).values (deviceArray dims w).values := by
  rw [values_deviceArray hv, values_deviceArray hw]
  exact h.map fun _ _ => Int.ofNat_le.mpr

theorem IotaTileAssignment.Canonical.eq_deviceArray {t : IotaTileAssignment} {a : Array Int} (h : t.Canonical)
    (ha : t.toArray = some a) : a = deviceArray t.dims t.view :=
  Option.some.inj (ha.symm.trans h.toArray_eq)

namespace TileAssignment

variable {t t' : TileAssignment} {a a' : Array Int}

-- A tile assignment is either explicit or has an iota form, which it has either materialized or not.
inductive Denotes (t : TileAssignment) (a : Array Int) : Prop
  | explicit : t = ofArray a → a.Valid → Denotes t a
  | iota {iota : IotaTileAssignment} : iota.Created → t.Holds iota → iota.toArray = some a → Denotes t a

namespace Denotes

theorem hasArray (h : t.Denotes a) : t.HasArray a := by
  cases h
  case explicit ht hv => exact ht ▸ hasArray_ofArray hv
  case iota iota hc ht ha =>
    obtain rfl := hc.canonical.eq_deviceArray ha
    exact ht.hasArray hc.canonical

theorem beq (h : t.Denotes a) (h' : t'.Denotes a) : t.beq t' = some true := by
  have ha := h.hasArray.array
  have ha' := h'.hasArray.array
  cases h
  case explicit ht _ =>
    have hi : t.iota = none := by rw [ht, ofArray]
    simp [TileAssignment.beq, hi, ha, ha']
  case iota iota hc ht hi =>
    cases h'
    case explicit ht' _ =>
      have hi' : t'.iota = none := by rw [ht', ofArray]
      simp [TileAssignment.beq, hi', ha, ha']
    case iota iota' hc' ht' hi' =>
      have hd : iota.dims = iota'.dims :=
        congrArg Array.sizes ((hc.canonical.eq_deviceArray hi).symm.trans (hc'.canonical.eq_deviceArray hi'))
      have hb := (hc.canonical.toArray_inj hc'.canonical hd).mp (hi.trans hi'.symm)
      rw [ht.beq_eq ht', hb, IotaTileAssignment.beq_iff.mpr rfl]

theorem of_iota (h : t.Denotes a) {iota : IotaTileAssignment} (hi : t.iota = some iota) :
    t.Holds iota ∧ iota.Canonical ∧ a = deviceArray iota.dims iota.view := by
  cases h
  case explicit ht _ =>
    rw [ht, ofArray] at hi
    cases hi
  case iota iota' hc ht ha =>
    obtain rfl := Option.some.inj (ht.iota_eq.symm.trans hi)
    exact ⟨ht, hc.canonical, hc.canonical.eq_deviceArray ha⟩

theorem eq_of_beq (h : t.Denotes a) (h' : t'.Denotes a') (hb : t.beq t' = some true) : a = a' := by
  rw [TileAssignment.beq] at hb
  cases hi : t.iota <;> cases hi' : t'.iota <;> simp only [hi, hi'] at hb
  case some.some iota iota' =>
    obtain ⟨_, _, rfl⟩ := h.of_iota hi
    obtain ⟨_, _, rfl⟩ := h'.of_iota hi'
    obtain rfl := IotaTileAssignment.beq_iff.mp (Option.some.inj hb)
    rfl
  all_goals simpa [h.hasArray.array, h'.hasArray.array] using hb

-- Reshaping keeps the reshaped and transposed dimensions of an iota form.
theorem reshape_of_prod (h : t.Denotes a) {dims : List Nat} (hp : dims.prod = a.sizes.prod) :
    ∃ t', t.reshape dims = some t' ∧ t'.Denotes { a with sizes := dims } ∧
      (t.iota = none ∧ t'.iota = none ∨ ∃ iota, t.iota = some iota ∧ t' = ofIota { iota with dims }) := by
  cases h
  case explicit ht hv =>
    have hn : dims.prod = a.numElements := hp.trans hv.length_values.symm
    have hr : a.reshape dims = some { a with sizes := dims } := if_pos hn
    subst ht
    refine ⟨ofArray { a with sizes := dims }, ?_, .explicit rfl ⟨hn.symm⟩, .inl ⟨rfl, rfl⟩⟩
    simp [TileAssignment.reshape, (hasArray_ofArray hv).array, hr]
    simp [ofArray]
  case iota iota hc ht ha =>
    have hC := hc.canonical
    obtain rfl := hC.eq_deviceArray ha
    have hp : dims.prod = iota.dims.prod := hp
    have hd : Describes dims iota.reshapeDims iota.transposePerm :=
      ⟨pos_of_prod_pos (hp ▸ hC.describes.dims_prod_pos), hC.describes.reshape_pos, hC.describes.perm,
        hC.describes.prod.trans hp.symm⟩
    obtain ⟨iota', hcr, hdims, hC', hs'⟩ := IotaTileAssignment.create_spec hd hC.ne_nil
    obtain rfl : iota' = { iota with dims } := hC'.unique ⟨hd, hC.ne_nil, hC.normal⟩ hdims hs'
    refine ⟨ofIota { iota with dims }, ?reshape, .iota (.transform hd hcr) (holds_ofIota _) ?array,
      .inr ⟨iota, ht.iota_eq, rfl⟩⟩
    case reshape =>
      rw [TileAssignment.reshape, ht.iota_eq]
      simp [guard, if_pos hp, hcr]
    case array =>
      rw [hC'.toArray_eq, deviceArray, deviceArray]
      simp only [hp]
      rfl

-- The last dimension has a single element.
theorem reshape (h : t.Denotes a) (hl : a.sizes.getLast? = some 1) :
    ∃ t', t.reshape a.sizes.dropLast = some t' ∧ t'.Denotes { a with sizes := a.sizes.dropLast } := by
  have hs : a.sizes.dropLast ++ [1] = a.sizes := List.dropLast_append_getLast? 1 hl
  have hp : a.sizes.dropLast.prod = a.sizes.prod := by
    conv_rhs => rw [← hs, List.prod_append, List.prod_singleton, Nat.mul_one]
  obtain ⟨t', ht', hD, _⟩ := h.reshape_of_prod hp
  exact ⟨t', ht', hD⟩

end Denotes

end TileAssignment

namespace HloSharding

variable {t t' : TileAssignment} {a b : Array Int} {s : HloSharding}

theorem sortGroups_spec (hg : 0 < g) {values : List Int} (hd : g ∣ values.length) (hf : values.length ≤ fuel) :
    ∃ sorted, sortGroups g fuel values = some sorted ∧ List.GroupsSorted g values sorted := by
  induction fuel generalizing values
  case zero =>
    obtain rfl := List.length_eq_zero_iff.mp (Nat.le_zero.mp hf)
    exact ⟨[], rfl, .nil⟩
  case succ fuel hi =>
    cases values
    case nil => exact ⟨[], rfl, .nil⟩
    case cons v values =>
      have hl := Nat.le_of_dvd (Nat.succ_pos _) hd
      have hdrop : ((v :: values).drop g).length = (v :: values).length - g := List.length_drop
      have hd' : g ∣ ((v :: values).drop g).length := hdrop ▸ Nat.dvd_sub hd (dvd_refl g)
      obtain ⟨sorted, hs, hS⟩ := hi hd' (by omega)
      have ht : ((v :: values).take g).length = g := List.length_take_of_le hl
      have hp := List.perm_insertionSort (· ≤ ·) ((v :: values).take g)
      refine ⟨((v :: values).take g).insertionSort (· ≤ ·) ++ sorted, ?sort, ?sorted⟩
      case sorted =>
        conv => arg 2; rw [← List.take_append_drop g (v :: values)]
        exact .append ht (hp.length_eq.trans ht) hp (List.pairwise_insertionSort ..) hS
      case sort =>
        simp [sortGroups, hs, guard, hl]

theorem sortedTile_spec (h : t.HasArray a) (hg : 0 < g) (hd : g ∣ a.sizes.prod) :
    ∃ b, sortedTile t g = some (.ofArray b) ∧ b.Valid ∧ b.sizes = a.sizes ∧ List.GroupsSorted g a.values b.values := by
  have hd : g ∣ a.values.length := h.valid.length_values ▸ hd
  obtain ⟨sorted, hs, hS⟩ := sortGroups_spec hg hd (le_refl a.numElements)
  refine ⟨{ a with values := sorted }, ?_, ⟨hS.length.trans h.valid.length_values⟩, rfl, hS⟩
  rw [sortedTile, h.array]
  simp [hs]

-- The groups of the last dimension are in ascending order.
inductive PartiallyTiles (a : Array Int) (groupSize : Nat) : HloSharding → Prop
  | replicate : a.sizes.length = 1 ∨ groupSize = a.numElements → PartiallyTiles a groupSize replicate
  | tile {t : TileAssignment} : ¬(a.sizes.length = 1 ∨ groupSize = a.numElements) → groupSize = 1 →
    t.Denotes { a with sizes := a.sizes.dropLast } → PartiallyTiles a groupSize (ofTileAssignment t false)
  | partialTile {t : TileAssignment} {b : Array Int} : ¬(a.sizes.length = 1 ∨ groupSize = a.numElements) →
    groupSize ≠ 1 → t.Denotes b → b.sizes = a.sizes → List.GroupsSorted groupSize a.values b.values →
    PartiallyTiles a groupSize (ofTileAssignment t true)

theorem pos_and_lt (h : t.HasArray a) (hg : a.sizes.getLast? = some g) (hn : g ≠ a.numElements) :
    0 < g ∧ (0 < a.sizes.prod → g < a.sizes.prod) := by
  have hd : g ∣ a.sizes.prod := List.dvd_prod (List.mem_of_getLast? hg)
  have hne : g ≠ a.sizes.prod := fun hp => hn (hp.trans h.valid.length_values.symm)
  constructor
  · apply Nat.pos_of_ne_zero
    rintro rfl
    exact hne (Nat.zero_dvd.mp hd).symm
  · intro hp
    exact lt_of_le_of_ne (Nat.le_of_dvd hp hd) hne

section Iota

variable {iota : IotaTileAssignment} (hc : iota.Canonical)
include hc

-- The minor dimension of the transposed iota is the last dimension.
theorem groupsSorted_of_last {d : Nat} (hd : iota.transposePerm.getLast? = some d) (hs : iota.reshapeDims[d]? = some g) :
    List.GroupsSorted g (deviceArray iota.dims iota.view).values (deviceArray iota.dims iota.view).values := by
  have hn : View.numElements iota.view = iota.dims.prod := hc.describes.numElements_eq
  apply deviceArray_groupsSorted hn hn
  have hp : iota.transposePerm = iota.transposePerm.dropLast ++ [d] := (List.dropLast_append_getLast? d hd).symm
  have hv : iota.view = permuted iota.reshapeDims iota.transposePerm.dropLast ++ permuted iota.reshapeDims [d] := by
    conv_lhs => rw [IotaTileAssignment.view, hp, permuted_append]
  have hgs : View.numElements (permuted iota.reshapeDims [d]) = g := by
    simp [permuted, axis, hs]
  have ho : Ordered (permuted iota.reshapeDims [d]) := by
    apply ordered_permuted hc.describes.reshape_pos (List.pairwise_singleton ..)
    simpa using (List.getElem?_eq_some_iff.mp hs).1
  rw [hv, ← hgs]
  exact groupsSorted_offsets (.refl _) ho

theorem groupsSorted_of_group (h₀ : 0 < g) (hlt : g < iota.dims.prod) {dims' perm' : List Nat}
    (h : groupMinorIotaDimsSorted iota.reshapeDims iota.transposePerm g = some (dims', perm')) :
    ∃ t' b, IotaTileAssignment.create iota.dims dims' perm' = some t' ∧ t'.Created ∧ t'.toArray = some b ∧
      b.sizes = iota.dims ∧ List.GroupsSorted g (deviceArray iota.dims iota.view).values b.values := by
  have hs := groupMinorIotaDimsSorted_spec hc.describes.perm hc.describes.reshape_pos h₀
    (hc.describes.prod ▸ hlt) h
  have hD : Describes iota.dims dims' perm' :=
    ⟨hc.describes.dims_pos, hs.pos, hs.isPerm, hs.prod.trans hc.describes.prod⟩
  have hne : dims' ≠ [] := by
    rintro rfl
    have := hs.prod.trans hc.describes.prod
    rw [List.prod_nil] at this
    omega
  obtain ⟨t', hcr, hdims, hC', hS⟩ := IotaTileAssignment.create_spec hD hne
  have hn' : View.numElements t'.view = iota.dims.prod := hdims ▸ hC'.describes.numElements_eq
  refine ⟨t', deviceArray iota.dims (permuted dims' perm'), hcr, .transform hD hcr, ?array, rfl, ?sorted⟩
  case array => rw [hC'.toArray_eq, hdims, deviceArray_congr hS hn']
  case sorted => exact deviceArray_groupsSorted hc.describes.numElements_eq hD.numElements_eq hs.sorted

end Iota

section PartialTile

variable (h : t.Denotes a) (hg : a.sizes.getLast? = some g) (hr : ¬(a.sizes.length = 1 ∨ g = a.numElements)) (h₁ : g ≠ 1)
include h hg hr h₁


theorem partiallyTiles_sortedTile :
    ∃ t', sortedTile t g = some t' ∧ PartiallyTiles a g (ofTileAssignment t' true) := by
  have hd : g ∣ a.sizes.prod := List.dvd_prod (List.mem_of_getLast? hg)
  obtain ⟨b, hb, hv, hs, hS⟩ := sortedTile_spec h.hasArray (pos_and_lt h.hasArray hg (fun hn => hr (.inr hn))).1 hd
  exact ⟨_, hb, .partialTile hr h₁ (.explicit rfl hv) hs hS⟩

theorem partiallyTiles_iota {iota : IotaTileAssignment} (hi : t.iota = some iota) :
    ∃ d, iota.transposePerm.getLast? = some d ∧ ∃ size, iota.reshapeDims[d]? = some size ∧
      (size = g → PartiallyTiles a g (ofTileAssignment t true)) ∧
      ∀ dims' perm', groupMinorIotaDimsSorted iota.reshapeDims iota.transposePerm g = some (dims', perm') →
        ∃ t', IotaTileAssignment.create iota.dims dims' perm' = some t' ∧
          PartiallyTiles a g (ofTileAssignment (.ofIota t') true) := by
  have hD := h
  cases h
  case explicit ht _ => simp [ht, TileAssignment.ofArray] at hi
  case iota iota' hc ht ha =>
    obtain rfl := Option.some.inj (ht.iota_eq.symm.trans hi)
    have hC := hc.canonical
    obtain rfl := hC.eq_deviceArray ha
    obtain ⟨h₀, hlt⟩ := pos_and_lt hD.hasArray hg fun hn => hr (.inr hn)
    have hlt := hlt hC.describes.dims_prod_pos
    have hne : iota'.transposePerm ≠ [] := by
      intro hn
      have hl := length_eq_of_perm hC.describes.perm
      rw [hn] at hl
      exact hC.ne_nil (List.length_eq_zero_iff.mp hl.symm)
    have hd : iota'.transposePerm.getLast hne < iota'.reshapeDims.length :=
      List.mem_range.mp (hC.describes.perm.mem_iff.mp (List.getLast_mem hne))
    refine ⟨_, List.getLast?_eq_some_getLast hne, _, List.getElem?_eq_getElem hd, ?replicated, ?groups⟩
    case replicated =>
      intro hs
      have hS := groupsSorted_of_last hC (List.getLast?_eq_some_getLast hne) ((List.getElem?_eq_getElem hd).trans (congrArg some hs))
      exact .partialTile hr h₁ hD rfl hS
    case groups =>
      intro dims' perm' hgr
      obtain ⟨t', b, hcr, hC', hb, hbs, hS⟩ := groupsSorted_of_group hC h₀ hlt hgr
      exact ⟨t', hcr, .partialTile hr h₁ (.iota hC' (TileAssignment.holds_ofIota t') hb) hbs hS⟩

end PartialTile

theorem partialTile_spec (h : t.Denotes a) (hg : a.sizes.getLast? = some g) :
    ∃ s, partialTile t = .ok s ∧ PartiallyTiles a g s := by
  have hA := h.hasArray
  rw [partialTile]
  simp only [hA.numElements, hA.dimensions, required, hg, pure_bind]
  split_ifs with hr h₁
  case pos => exact ⟨_, rfl, .replicate hr⟩
  case pos =>
    subst h₁
    obtain ⟨t', ht', hD⟩ := h.reshape hg
    rw [ht']
    exact ⟨_, rfl, .tile hr rfl hD⟩
  case neg =>
    obtain ⟨sorted, hs, hS⟩ := partiallyTiles_sortedTile h hg hr h₁
    cases hi : t.iota
    case none =>
      simp only [hs]
      exact ⟨_, rfl, hS⟩
    case some iota =>
      obtain ⟨d, hd, size, hsize, hP, hG⟩ := partiallyTiles_iota h hg hr h₁ hi
      simp only [hd, hsize, hs, pure_bind]
      split_ifs with hsg
      case pos => exact ⟨_, rfl, hP hsg⟩
      case neg =>
        cases hgr : groupMinorIotaDimsSorted iota.reshapeDims iota.transposePerm g
        case none => exact ⟨_, rfl, hS⟩
        case some r =>
          obtain ⟨t', ht', hP'⟩ := hG r.1 r.2 hgr
          simp only [ht', pure_bind]
          exact ⟨_, rfl, hP'⟩

theorem beq_ofTileAssignment {b : Bool} (h : t.Denotes a) (h' : t'.Denotes a) :
    (ofTileAssignment t b).beq (ofTileAssignment t' b) = .ok true := by
  simp [beq, ofTileAssignment, h.beq h', required]
  rfl

theorem PartiallyTiles.beq {a' : Array Int} {s' : HloSharding} (h : PartiallyTiles a g s) (h' : PartiallyTiles a' g s')
    (hg : g ≠ a'.numElements → 0 < g) (hs : a.sizes = a'.sizes) (hn : a.numElements = a'.numElements)
    (hp : ∀ i, (List.group g a.values i).Perm (List.group g a'.values i)) : s.beq s' = .ok true := by
  cases h
  case replicate hr =>
    rw [hs, hn] at hr
    cases h'
    case replicate               => rfl
    case tile hr' _ _            => exact absurd hr hr'
    case partialTile hr' _ _ _ _ => exact absurd hr hr'
  case tile t hr h₁ ht =>
    rw [hs, hn] at hr
    cases h'
    case replicate hr'         => exact absurd hr' hr
    case partialTile h₁' _ _ _ => exact absurd h₁ h₁'
    case tile t' _ _ ht' =>
      subst h₁
      have hv : a.values = a'.values := List.GroupsSorted.one.unique .one Nat.one_pos hp
      exact beq_ofTileAssignment (hs ▸ hv ▸ ht) ht'
  case partialTile t b hr h₁ ht hb hS =>
    rw [hs, hn] at hr
    cases h'
    case replicate hr' => exact absurd hr' hr
    case tile h₁' _    => exact absurd h₁' h₁
    case partialTile t' b' _ _ ht' hb' hS' =>
      have h₀ := hg fun hn => hr (.inr hn)
      obtain rfl : b = b' := Array.ext (hb.trans (hs.trans hb'.symm)) (hS.unique hS' h₀ hp)
      exact beq_ofTileAssignment ht ht'

-- The partial tiling is determined by the groups of the last dimension. The minor dimensions of an iota form are
-- grouped as the array is sorted.
theorem partialTile_canonical :
    (∀ t a g, t.Denotes a → a.sizes.getLast? = some g → ∃ s, partialTile t = .ok s ∧ PartiallyTiles a g s) ∧
    (∀ t t' a a' g, t.Denotes a → t'.Denotes a' → a.sizes.getLast? = some g → a.sizes = a'.sizes →
      (∀ i, (List.group g a.values i).Perm (List.group g a'.values i)) →
      ∃ s s', partialTile t = .ok s ∧ partialTile t' = .ok s' ∧ s.beq s' = .ok true) ∧
    (∀ iota : IotaTileAssignment, ∀ a g dims perm, iota.Created → iota.toArray = some a →
      iota.dims.getLast? = some g → g ≠ a.numElements →
      groupMinorIotaDimsSorted iota.reshapeDims iota.transposePerm g = some (dims, perm) →
      ∃ iota' values, IotaTileAssignment.create iota.dims dims perm = some iota' ∧
        sortGroups g a.numElements a.values = some values ∧ iota'.toArray = some { a with values }) := by
  refine ⟨fun t a g ht hg => partialTile_spec ht hg, ?unique, ?iota⟩
  case unique =>
    intro t t' a a' g ht ht' hg hs hp
    obtain ⟨s, hps, hS⟩ := partialTile_spec ht hg
    obtain ⟨s', hps', hS'⟩ := partialTile_spec ht' (hs ▸ hg)
    have hn : a.numElements = a'.numElements := by
      rw [Array.numElements, Array.numElements, ht.hasArray.valid.length_values, ht'.hasArray.valid.length_values, hs]
    exact ⟨s, s', hps, hps', hS.beq hS' (fun hn => (pos_and_lt ht'.hasArray (hs ▸ hg) hn).1) hs hn hp⟩
  case iota =>
    intro iota a g dims perm hc ha hg hn hgr
    have hC := hc.canonical
    obtain rfl := hC.eq_deviceArray ha
    have hA := (TileAssignment.holds_ofIota iota).hasArray hC
    obtain ⟨h₀, hlt⟩ := pos_and_lt hA hg hn
    obtain ⟨iota', b, hcr, _, hb, hbs, hS⟩ := groupsSorted_of_group hC h₀ (hlt hC.describes.dims_prod_pos) hgr
    have hd : g ∣ (deviceArray iota.dims iota.view).values.length :=
      hA.valid.length_values ▸ List.dvd_prod (List.mem_of_getLast? hg)
    obtain ⟨values, hv, hS'⟩ := sortGroups_spec h₀ hd (le_refl _)
    refine ⟨iota', values, hcr, hv, hb.trans (congrArg some (Array.ext hbs ?_))⟩
    exact hS.unique hS' h₀ fun i => .refl _

theorem partialTile_canonical_eight :
    (∃ s s', partialTile (.ofIota ⟨[2, 4], [2, 4], [1, 0]⟩) = .ok s ∧
      PartiallyTiles ⟨[2, 4], [0, 4, 1, 5, 2, 6, 3, 7]⟩ 4 s ∧
      partialTile (.ofArray ⟨[2, 4], [5, 4, 1, 0, 7, 6, 3, 2]⟩) = .ok s' ∧ s.beq s' = .ok true) ∧
    ∃ iota values, IotaTileAssignment.create [2, 4] [2, 2, 2] [1, 0, 2] = some iota ∧
      sortGroups 4 8 [0, 4, 1, 5, 2, 6, 3, 7] = some values ∧ iota.toArray = some ⟨[2, 4], values⟩ := by
  have h : Describes [2, 4] [2, 4] [1, 0] := ⟨by decide, by decide, by decide, rfl⟩
  have hc : IotaTileAssignment.Created ⟨[2, 4], [2, 4], [1, 0]⟩ := .transform h rfl
  have ha : (⟨[2, 4], [2, 4], [1, 0]⟩ : IotaTileAssignment).toArray = some ⟨[2, 4], [0, 4, 1, 5, 2, 6, 3, 7]⟩ := by decide
  have hd := TileAssignment.Denotes.iota hc (TileAssignment.holds_ofIota _) ha
  have hd' : (TileAssignment.ofArray ⟨[2, 4], [5, 4, 1, 0, 7, 6, 3, 2]⟩).Denotes ⟨[2, 4], [5, 4, 1, 0, 7, 6, 3, 2]⟩ :=
    .explicit rfl ⟨rfl⟩
  have hp (i : Nat) : (List.group 4 [0, 4, 1, 5, 2, 6, 3, 7] i).Perm (List.group 4 ([5, 4, 1, 0, 7, 6, 3, 2] : List Int) i) := by
    obtain rfl | rfl | hi : i = 0 ∨ i = 1 ∨ 2 ≤ i := by omega
    case inl     => decide
    case inr.inl => decide
    case inr.inr =>
      have hd (xs : List Int) (hl : xs.length = 8) : List.group 4 xs i = [] := by
        rw [List.group, List.drop_eq_nil_of_le (by omega), List.take_nil]
      rw [hd _ rfl, hd _ rfl]
  obtain ⟨s, hs, hS⟩ := partialTile_canonical.1 _ _ 4 hd rfl
  obtain ⟨s₁, s', hs₁, hs', hb⟩ := partialTile_canonical.2.1 _ _ _ _ 4 hd hd' rfl rfl hp
  obtain rfl := Except.ok.inj (hs.symm.trans hs₁)
  exact ⟨⟨s, s', hs, hS, hs', hb⟩, partialTile_canonical.2.2 _ _ 4 _ _ hc ha rfl (by decide) rfl⟩

end HloSharding
end Sharding
