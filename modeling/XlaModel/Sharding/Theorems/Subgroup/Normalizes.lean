import XlaModel.Sharding.Theorems.Subgroup.Placements

namespace Sharding.HloSharding

open Fallible View RowMajor Subgroups
open OpSharding (SubgroupType)

variable {t t' : TileAssignment} {data : List Nat} {subs subs' : List Sub} {a : Array Int} {s s' : HloSharding}

-- The types of the dimensions that follow the data dimensions.
def resultTypes (s : HloSharding) : List SubgroupType :=
  if s.replicateOnLastTileDim then [.replicated] else s.subgroupTypes

-- All devices hold the single data tile in the same way, or each device keeps its place.
inductive Keeps (data : List Nat) (subs : List Sub) (a : Array Int) (s : HloSharding) : Prop
  | simple {type : SubgroupType} : simpleSharding type = some s → data.prod = 1 →
    (∀ p ∈ subs, p.2 ≠ 1 → p.1 = type) → Keeps data subs a s
  | tiled {merged : List Sub} {b : Array Int} : s.isTiledLeaf = true → s.tileAssignment.Denotes b →
    b.sizes = data ++ merged.map Prod.snd → s.resultTypes = merged.map Prod.fst →
    (placements data merged b).Perm (placements data subs a) → Keeps data subs a s

structure Normalizes (t : TileAssignment) (data : List Nat) (subs : List Sub) (a : Array Int) (s : HloSharding) : Prop where
  result      : subgroup t (subs.map Prod.fst) = .ok s
  keeps       : Keeps data subs a s
  idempotent  : s.isTiledLeaf = true → ∃ s', subgroup s.tileAssignment s.resultTypes = .ok s' ∧ s'.beq s = .ok true
  insensitive : ∀ (subs' : List Sub) (t' : TileAssignment), subs'.filter (·.2 ≠ 1) = subs.filter (·.2 ≠ 1) →
    t.reshape (data ++ subs'.map Prod.snd) = some t' →
      ∃ s', subgroup t' (subs'.map Prod.fst) = .ok s' ∧ s'.beq s = .ok true

section Tiled

variable {types : List SubgroupType}

theorem tiled_isTiledLeaf : (tiled t types).isTiledLeaf = true := by
  rw [tiled]
  split <;> rfl

theorem tiled_tileAssignment : (tiled t types).tileAssignment = t := by
  rw [tiled]
  split <;> rfl

theorem tiled_resultTypes : (tiled t types).resultTypes = types := by
  rw [tiled]
  split
  case isTrue h  => exact h.symm
  case isFalse h => rfl

end Tiled

namespace Subgroups

theorem mem_sizesOf {p : Sub} (hp : p ∈ subs) (h₁ : p.2 ≠ 1) : sizesOf subs p.1 ≠ [] := by
  rw [sizesOf, ne_eq, List.map_eq_nil_iff]
  apply List.ne_nil_of_mem (a := p)
  exact List.mem_filter.mpr ⟨List.mem_filter.mpr ⟨hp, decide_eq_true h₁⟩, decide_eq_true rfl⟩

section Congr

theorem Sorted.congr (h : subs'.filter (·.2 ≠ 1) = subs.filter (·.2 ≠ 1)) (ho : Sorted subs) : Sorted subs' := by
  rwa [Sorted, h]

theorem Distinguishes.congr (h : subs'.filter (·.2 ≠ 1) = subs.filter (·.2 ≠ 1)) (hd : Distinguishes data subs) :
    Distinguishes data subs' := by
  refine hd.imp_right fun ⟨p, hp, h₁, hu⟩ => ?_
  have hm : p ∈ subs'.filter (·.2 ≠ 1) := h.symm ▸ List.mem_filter.mpr ⟨hp, decide_eq_true h₁⟩
  exact ⟨p, List.mem_of_mem_filter hm, h₁, hu⟩

theorem Rearranges.congr (h : t.Denotes a) (hs : a.sizes = data ++ subs.map Prod.snd)
    (hf : subs'.filter (·.2 ≠ 1) = subs.filter (·.2 ≠ 1)) (hr : Rearranges t subs)
    (ht : t.iota = none ∧ t'.iota = none ∨
      ∃ iota, t.iota = some iota ∧ t' = .ofIota { iota with dims := data ++ subs'.map Prod.snd }) : Rearranges t' subs' := by
  obtain ⟨_, hn⟩ | ⟨iota, hi, rfl⟩ := ht
  case inl => exact .inr fun iota hi => by rw [hn] at hi; cases hi
  case inr =>
    refine hr.imp (Sorted.congr hf) fun hr => ?_
    rintro _ ⟨⟩
    obtain ⟨_, _, rfl⟩ := h.of_iota hi
    have hd : (data ++ subs'.map Prod.snd).filter (· ≠ 1) = iota.dims.filter (· ≠ 1) := by
      have hs : iota.dims = data ++ subs.map Prod.snd := hs
      have hm (subs : List Sub) : (subs.map Prod.snd).filter (· ≠ 1) = (subs.filter (·.2 ≠ 1)).map Prod.snd :=
        List.filter_map ..
      rw [hs, List.filter_append, List.filter_append, hm, hm, hf]
    have hR := hr iota hi
    constructor <;> simp only [hd]
    case factors => exact hR.factors
    case lookup  => exact hR.lookup

end Congr

section Sufficient

variable (h : t.Denotes a) (hs : a.sizes = data ++ subs.map Prod.snd) (hp : 0 < a.sizes.prod)
variable (hC : Creates (mergedTypes subs) (mergedArray data subs a) s)
include hs hp hC

theorem Creates.keeps (hv : a.Valid) : Keeps data subs a s := by
  have hall {type : SubgroupType} (hm : mergedTypes subs = [type]) : ∀ p ∈ subs, p.2 ≠ 1 → p.1 = type := by
    intro p hp h₁
    have hmem : p.1 ∈ mergedTypes subs :=
      mem_mergedTypes.mpr (mem_sizesOf hp h₁)
    rw [hm] at hmem
    exact List.mem_singleton.mp hmem
  have hdata {type : SubgroupType} (hm : mergedTypes subs = [type])
      (hc : Collapses (mergedTypes subs) (mergedArray data subs a)) : data.prod = 1 := by
    have hpr := prod_mergedSizes data subs
    have hsz : data ++ (mergedSubs subs).map Prod.snd = data ++ [(sizesOf subs type).prod] := by
      rw [mergedSubs, hm]
      rfl
    have hl := hc.1
    rw [Array.numElements, (mergedArray_valid data subs a).length_values, mergedArray] at hl
    simp only [hsz, List.getLast?_concat, Option.some_inj, List.prod_append, List.prod_singleton] at hl
    rw [hsz, ← hs, List.prod_append, List.prod_singleton] at hpr
    have hpos : 0 < (sizesOf subs type).prod := Nat.pos_of_mul_pos_left (hpr ▸ hp)
    exact Nat.eq_of_mul_eq_mul_right hpos (by rw [Nat.one_mul, ← hl])
  cases hC
  case manual hc ht      =>
    have hsimple : simpleSharding .manual = some ofManual := rfl
    exact .simple hsimple (hdata ht hc) (hall ht)
  case replicate hc ht   =>
    have hsimple : simpleSharding .replicated = some HloSharding.replicate := rfl
    exact .simple hsimple (hdata ht hc) (hall ht)
  case tiled t b _ hd hS =>
    refine .tiled tiled_isTiledLeaf (tiled_tileAssignment ▸ hd) hS.sizes (tiled_resultTypes.trans types_mergedSubs.symm) ?_
    have hpr := prod_mergedSizes data subs
    rw [← hs] at hpr
    have hM : 0 < (mergedArray data subs a).sizes.prod := hpr.symm ▸ hp
    exact (placements_sorts (mergedArray_valid ..) hd.hasArray.valid rfl types_mergedSubs hM hS).trans
      (placements_merged hv hs)

omit hC in
theorem pos_of_mem_mergedSizes : ∀ d ∈ (mergedArray data subs a).sizes, 0 < d := by
  apply pos_of_prod_pos
  have hpr := prod_mergedSizes data subs
  rw [← hs] at hpr
  exact hpr.symm ▸ hp

omit hC hs hp in
theorem mergedSizes_ne_nil (ht : mergedTypes subs ≠ []) : (mergedArray data subs a).sizes ≠ [] := by
  intro hn
  have hn := (List.append_eq_nil_iff.mp hn).2
  rw [mergedSubs, List.map_map, List.map_eq_nil_iff] at hn
  exact ht hn

theorem Creates.idempotent (hd : Distinguishes data subs) (hl : s.isTiledLeaf = true) :
    ∃ s', subgroup s.tileAssignment s.resultTypes = .ok s' ∧ s'.beq s = .ok true := by
  have hc := hC
  cases hc
  case manual    => cases hl
  case replicate => cases hl
  case tiled t b hnc hD hS =>
    have h₀ : ∀ p ∈ subs, 0 < p.2 := fun p hm =>
      pos_of_prod_pos hp p.2 (hs ▸ List.mem_append_right _ (List.mem_map_of_mem hm))
    have hbs : b.sizes = data ++ (mergedSubs subs).map Prod.snd := hS.sizes
    have hbp : 0 < b.sizes.prod := by rwa [hbs, prod_mergedSizes, ← hs]
    have hd' : Distinguishes data (mergedSubs subs) := by
      refine hd.imp_right fun ⟨p, hp, h₁, hu⟩ => ?_
      have hm : p.1 ∈ mergedTypes subs := mem_mergedTypes.mpr (mem_sizesOf hp h₁)
      have hm := List.mem_map_of_mem (f := fun type => (type, (sizesOf subs type).prod)) hm
      exact ⟨_, hm, mergedSubs_ne_one h₀ _ hm, hu⟩
    obtain ⟨s', hs', hC'⟩ := subgroup_spec hD hbs hbp (.inl mergedSubs_sorted) hd'
    have hmt : mergedTypes (mergedSubs subs) = mergedTypes subs := by
      rw [← types_mergedSubs, mergedSubs_mergedSubs h₀, types_mergedSubs]
    rw [hmt, mergedArray_of_sorted hD.hasArray.valid hbs mergedSubs_sorted (mergedSubs_ne_one h₀)
      (mergedSubs_mergedSubs h₀)] at hC'
    rw [types_mergedSubs] at hs'
    refine ⟨s', by rwa [tiled_tileAssignment, tiled_resultTypes], ?_⟩
    have hn : (mergedArray data subs a).numElements = b.numElements := by
      rw [Array.numElements, (mergedArray_valid ..).length_values, Array.numElements, hD.hasArray.valid.length_values,
        hS.sizes]
    exact (Creates.of_sorts hS hn hC').beq hC (pos_of_mem_mergedSizes hs hp) mergedSizes_ne_nil

theorem Creates.insensitive (h : t.Denotes a) (hr : Rearranges t subs) (hd : Distinguishes data subs)
    (hf : subs'.filter (·.2 ≠ 1) = subs.filter (·.2 ≠ 1)) (ht : t.reshape (data ++ subs'.map Prod.snd) = some t') :
    ∃ s', subgroup t' (subs'.map Prod.fst) = .ok s' ∧ s'.beq s = .ok true := by
  have hpr : (data ++ subs'.map Prod.snd).prod = a.sizes.prod := by
    rw [hs, List.prod_append, List.prod_append, prod_filter_subs subs', hf, ← prod_filter_subs]
  obtain ⟨t₁, ht₁, hD, hi⟩ := h.reshape_of_prod hpr
  obtain rfl := Option.some.inj (ht.symm.trans ht₁)
  have hp' : 0 < ({ a with sizes := data ++ subs'.map Prod.snd } : Array Int).sizes.prod := hpr.symm ▸ hp
  obtain ⟨s', hs', hC'⟩ := subgroup_spec hD rfl hp' (hr.congr h hs hf hi) (hd.congr hf)
  have hm : mergedArray data subs' { a with sizes := data ++ subs'.map Prod.snd } = mergedArray data subs a :=
    mergedArray_congr hf rfl
  rw [hm, mergedTypes_congr hf] at hC'
  exact ⟨s', hs', hC'.beq hC (pos_of_mem_mergedSizes hs hp) mergedSizes_ne_nil⟩

end Sufficient

section Necessary

theorem beq_flags (h : s.beq s' = .ok true) : s.unreduced = s'.unreduced ∧ s.isTiledLeaf = s'.isTiledLeaf := by
  rw [beq] at h
  split_ifs at h with hf
  case neg => cases h
  case pos =>
    obtain ⟨h₁, h₂, h₃, h₄, h₅⟩ := hf
    exact ⟨h₅, by rw [isTiledLeaf, h₁, h₂, h₃, h₄, h₅, isTiledLeaf]⟩

theorem beq_tileAssignment (h : s.beq s' = .ok true) : s.tileAssignment.beq s'.tileAssignment = some true := by
  rw [beq] at h
  split_ifs at h
  case neg => cases h
  case pos =>
    obtain ⟨equal, he, h⟩ := bind_eq_ok.mp h
    rw [required_eq_ok] at he
    have h := Except.ok.inj h
    simp only [Bool.and_eq_true] at h
    rw [he, h.1.1]

theorem subgroup_of_ne (h : t.Denotes a) (hs : a.sizes = data ++ subs.map Prod.snd)
    (hne : ∃ p ∈ subs, ∃ q ∈ subs, p.1 ≠ q.1) :
    subgroup t (subs.map Prod.fst) = normalize t a.sizes (subs.map Prod.fst) := by
  rw [subgroup.eq_def]
  cases subs
  case nil =>
    obtain ⟨p, hp, _⟩ := hne
    cases hp
  case cons p subs =>
    rw [List.map_cons]
    simp only [h.hasArray.dimensions, required, pure_bind]
    rw [if_neg]
    rintro ⟨hall, _⟩
    obtain ⟨q, hq, r, hr, hne⟩ := hne
    rw [← List.map_cons, List.all_eq_true] at hall
    have hq := of_decide_eq_true (hall q.1 (List.mem_map_of_mem hq))
    have hr := of_decide_eq_true (hall r.1 (List.mem_map_of_mem hr))
    exact hne (hq.trans hr.symm)

theorem subgroup_unreduced (h : t.Denotes a) (hs : a.sizes = data ++ subs.map Prod.snd) (hd : data.prod = 1)
    (hu : ∀ p ∈ subs, p.1 = .unreduced) (hn : subs ≠ []) : subgroup t (subs.map Prod.fst) = .ok ofUnreduced := by
  rw [subgroup.eq_def]
  cases subs
  case nil => exact absurd rfl hn
  case cons p subs =>
    have hall : ((p :: subs).map Prod.fst).all (· = p.1) = true := by
      rw [List.all_eq_true]
      intro type ht
      obtain ⟨q, hq, rfl⟩ := List.mem_map.mp ht
      exact decide_eq_true ((hu q hq).trans (hu p (.head _)).symm)
    rw [List.map_cons]
    simp only [h.hasArray.dimensions, required, pure_bind]
    rw [if_pos ⟨hall, by rw [← List.map_cons, dataTileShape_eq hs, hd]⟩, hu p (.head _)]
    rfl

theorem Creates.not_unreduced {types : List SubgroupType} (h : Creates types a s) : s.unreduced = false := by
  cases h
  case manual    => rfl
  case replicate => rfl
  case tiled t b _ _ _ =>
    rw [Subgroups.tiled]
    split <;> rfl

theorem filter_append_trivial {trivial : List Sub} (h₁ : ∀ p ∈ trivial, p.2 = 1) :
    (subs.filter (·.2 ≠ 1) ++ trivial).filter (·.2 ≠ 1) = subs.filter (·.2 ≠ 1) := by
  have ht : trivial.filter (·.2 ≠ 1) = [] := List.filter_eq_nil_iff.mpr fun p hp => by simp [h₁ p hp]
  rw [List.filter_append, ht, List.append_nil, List.filter_filter]
  simp

variable (h : t.Denotes a) (hs : a.sizes = data ++ subs.map Prod.snd) (hp : 0 < a.sizes.prod)
variable (hN : Normalizes t data subs a s)
include h hs hp hN

-- Otherwise, dimensions of size one decide whether the sharding is collapsed.
theorem distinguishes : Distinguishes data subs := by
  by_contra hd
  rw [Distinguishes, not_or, not_not] at hd
  obtain ⟨hd, hu⟩ := hd
  push Not at hu
  have hf : ∀ p ∈ subs.filter (·.2 ≠ 1), p.1 = .unreduced := by
    intro p hp
    obtain ⟨hp, h₁⟩ := List.mem_filter.mp hp
    exact hu p hp (of_decide_eq_true h₁)
  have hreshape (trivial : List Sub) (h₁ : ∀ p ∈ trivial, p.2 = 1) :
      (data ++ (subs.filter (·.2 ≠ 1) ++ trivial).map Prod.snd).prod = a.sizes.prod := by
    rw [hs, List.prod_append, List.prod_append, prod_filter_subs (_ ++ trivial), filter_append_trivial h₁, ← prod_filter_subs]
  have h₁ : ∀ p ∈ [((.unreduced, 1) : Sub)], p.2 = 1 := by simp
  have h₂ : ∀ p ∈ [((.unreduced, 1) : Sub), (.other, 1)], p.2 = 1 := by simp
  obtain ⟨t₁, ht₁, hD₁, _⟩ := h.reshape_of_prod (hreshape _ h₁)
  obtain ⟨t₂, ht₂, hD₂, _⟩ := h.reshape_of_prod (hreshape _ h₂)
  obtain ⟨s₁, hs₁, hb₁⟩ := hN.insensitive _ t₁ (filter_append_trivial h₁) ht₁
  obtain ⟨s₂, hs₂, hb₂⟩ := hN.insensitive _ t₂ (filter_append_trivial h₂) ht₂
  have hu₁ : ∀ p ∈ subs.filter (·.2 ≠ 1) ++ [((.unreduced, 1) : Sub)], p.1 = .unreduced := by
    intro p hp
    obtain hp | hp := List.mem_append.mp hp
    case inl => exact hf p hp
    case inr => rw [List.mem_singleton.mp hp]
  rw [subgroup_unreduced hD₁ rfl hd hu₁ (by simp)] at hs₁
  obtain rfl := Except.ok.inj hs₁
  have hne : ∃ p ∈ subs.filter (·.2 ≠ 1) ++ [((.unreduced, 1) : Sub), (.other, 1)],
      ∃ q ∈ subs.filter (·.2 ≠ 1) ++ [((.unreduced, 1) : Sub), (.other, 1)], p.1 ≠ q.1 :=
    ⟨(.unreduced, 1), by simp, (.other, 1), by simp, by decide⟩
  have ho : Sorted (subs.filter (·.2 ≠ 1) ++ [((.unreduced, 1) : Sub), (.other, 1)]) := by
    rw [Sorted, filter_append_trivial h₂]
    exact List.pairwise_of_forall_mem_list fun p hp q hq => by rw [hf p hp, hf q hq]
  rw [subgroup_of_ne hD₂ rfl hne] at hs₂
  obtain ⟨s₂', hs₂', hC⟩ := normalize_spec hD₂ rfl (hreshape _ h₂ ▸ hp) (.inl ho)
  obtain rfl := Except.ok.inj (hs₂.symm.trans hs₂')
  have hflag := (beq_flags hb₁).1.trans (beq_flags hb₂).1.symm
  rw [hC.not_unreduced] at hflag
  cases hflag

end Necessary

section Lookup

variable {iota : IotaTileAssignment}

theorem exists_ne_of_not_sorted (ho : ¬Sorted subs) : ∃ p ∈ subs, ∃ q ∈ subs, p.2 ≠ 1 ∧ q.2 ≠ 1 ∧ p.1 ≠ q.1 := by
  by_contra hn
  push Not at hn
  apply ho
  refine List.pairwise_of_forall_mem_list fun p hp q hq => ?_
  obtain ⟨hp, hp₁⟩ := List.mem_filter.mp hp
  obtain ⟨hq, hq₁⟩ := List.mem_filter.mp hq
  rw [hn p hp q hq (of_decide_eq_true hp₁) (of_decide_eq_true hq₁)]

theorem length_mergedTypes (ho : ¬Sorted subs) (type : SubgroupType) : mergedTypes subs ≠ [type] := by
  intro hm
  obtain ⟨p, hp, q, hq, hp₁, hq₁, hne⟩ := exists_ne_of_not_sorted ho
  have hmp : p.1 ∈ mergedTypes subs := mem_mergedTypes.mpr (mem_sizesOf hp hp₁)
  have hmq : q.1 ∈ mergedTypes subs := mem_mergedTypes.mpr (mem_sizesOf hq hq₁)
  rw [hm, List.mem_singleton] at hmp hmq
  exact hne (hmp.trans hmq.symm)

theorem Sorts.perm {types : List SubgroupType} {b : Array Int} (h : Sorts types a b) (h₀ : ∀ d ∈ a.sizes, 0 < d)
    (hn : types ≠ [] → a.sizes ≠ []) : b.values.Perm a.values := by
  have hv := h.values
  split_ifs at hv with hl
  case neg => exact .of_eq hv
  case pos =>
    have hne : a.sizes ≠ [] := hn (by rintro rfl; cases hl)
    have hg : 0 < a.sizes.getLastD 0 := by
      rw [List.getLastD_eq_getLast?, List.getLast?_eq_some_getLast hne]
      exact h₀ _ (List.getLast_mem hne)
    have hid (xs : List Int) : xs.mapIdx (fun _ v => v) = xs := List.ext_getElem? fun k => by simp
    have hp := List.mapIdx_perm_of_group (f := fun _ v => v) hg hv.length hv.perm
    rwa [hid, hid] at hp

theorem normalize_of_not_sorted (ho : ¬Sorted subs) :
    normalize t (data ++ subs.map Prod.snd) (subs.map Prod.fst) = (do
      createSharding (← required (newTileAssignment t (data ++ subs.map Prod.snd).length
        (merge (data ++ subs.map Prod.snd) data (typeDims (subs.zipIdx data.length)))
        (trivialDims (subs.zipIdx data.length)))) (mergedTypes subs)) := by
  have hm : (collectDims (data ++ subs.map Prod.snd) (subs.map Prod.fst)).needsMerging = true := by
    by_contra hm
    obtain ⟨hl, _⟩ := collectDims_needsMerging (Bool.eq_false_iff.mpr hm)
    obtain ⟨p, hp, q, hq, _, _, hne⟩ := exists_ne_of_not_sorted ho
    match subs with
    | []  => cases hp
    | [_] => exact hne (by rw [List.mem_singleton.mp hp, List.mem_singleton.mp hq])
  have hl : (subs.map Prod.fst).length ≤ (data ++ subs.map Prod.snd).length := by
    rw [List.length_append, List.length_map, List.length_map]
    omega
  have hd : dataTileShape (data ++ subs.map Prod.snd) (subs.map Prod.fst) = data :=
    dataTileShape_eq (a := ⟨data ++ subs.map Prod.snd, []⟩) rfl
  rw [normalize]
  simp only [check, hl, hm, hd, decide_true, if_true, pure_bind, collectDims_typeToDims, collectDims_removedDims, merge_eq]

-- An iota form that can not be rearranged is not transposed, and its elements are looked up.
theorem newTileAssignment_lookup {tiles : TileAssignment} (hc : iota.Canonical)
    (hs : iota.dims = data ++ subs.map Prod.snd) (ho : ¬Sorted subs) (hR : ¬iota.Rearrangeable)
    (ht : newTileAssignment (.ofIota iota) (data ++ subs.map Prod.snd).length
      (merge (data ++ subs.map Prod.snd) data (typeDims (subs.zipIdx data.length)))
      (trivialDims (subs.zipIdx data.length)) = some tiles) :
    ¬IotaTileAssignment.FitsInt iota.view ∧ newTiles (.ofIota iota) (data ++ subs.map Prod.snd).length
      (merge (data ++ subs.map Prod.snd) data (typeDims (subs.zipIdx data.length))) = some tiles := by
  have hpr := hs ▸ perm_range data subs
  have hk : getTransposeKind iota.dims (List.range data.length ++ sortedDims (subs.zipIdx data.length) ++
      trivialDims (subs.zipIdx data.length)) = .transpose := by
    rw [hs]
    exact getTransposeKind_iff.mpr ho
  have hi : (TileAssignment.ofIota iota).iota = some iota := rfl
  rw [newTileAssignment, hi] at ht
  by_cases hov : iota.DecanonicalizationOverflows (List.range data.length ++ sortedDims (subs.zipIdx data.length) ++
      trivialDims (subs.zipIdx data.length))
  case pos =>
    simp only [merge_eq, iota.transpose_none hc hov] at ht
    cases ht
  case neg =>
    have hf : iota.reshapeDims.length = 1 ∨ iota.dims.filter (· ≠ 1) =
        iota.transposePerm.map (iota.reshapeDims.getD · 0) ∨ ¬FullyDecanonicalize.Overflows iota.reshapeDims := by
      by_contra hn
      rw [not_or, not_or, not_not] at hn
      exact hov ⟨hk, hn.1, hn.2.1, hn.2.2⟩
    obtain ⟨r, htr, _, hI⟩ := iota.transpose_spec hc hpr hov
    have hnI : ¬IotaTileAssignment.Transpose.Interleaves (iota.dims.filter (· ≠ 1))
        (iota.transposePerm.map (iota.reshapeDims.getD · 0)) := fun hI => hR ⟨hf, .inl hI⟩
    cases r
    case some transposed => exact absurd (hI.mp rfl hk) hnI
    case none =>
      simp only [merge_eq, htr, Option.bind_eq_bind, Option.bind_some] at ht ⊢
      exact ⟨fun hfit => hR ⟨hf, .inr hfit⟩, ht⟩

theorem eq_map_of_forall₂ {f : α → Option β} {xs : List α} {ys : List β} (y : β)
    (h : List.Forall₂ (fun x y => f x = some y) xs ys) :
    ys = xs.map (fun x => (f x).getD y) ∧ ∀ x ∈ xs, f x = some ((f x).getD y) := by
  induction h
  case nil => simp
  case cons x y xs ys h _ hi =>
    obtain ⟨rfl, hx⟩ := hi
    exact ⟨by rw [List.map_cons, h]; rfl, List.forall_mem_cons.mpr ⟨by rw [h]; rfl, hx⟩⟩

theorem exists_lookup (h : (TileAssignment.ofIota iota).Denotes a) (hs : a.sizes = data ++ subs.map Prod.snd)
    (hp : 0 < a.sizes.prod) (ho : ¬Sorted subs) (hR : ¬iota.Rearrangeable)
    (hsub : subgroup (.ofIota iota) (subs.map Prod.fst) = .ok s) :
    ¬IotaTileAssignment.FitsInt iota.view ∧ ∃ g : Nat → Int,
      (∀ k < a.sizes.prod, iota.valueAt (digits a.sizes k) = some (g k)) ∧
      Creates (mergedTypes subs) ⟨data ++ (mergedSubs subs).map Prod.snd, (offsets (mergedView data subs)).map g⟩ s := by
  obtain ⟨_, hc, rfl⟩ := h.of_iota rfl
  have hs : iota.dims = data ++ subs.map Prod.snd := hs
  obtain ⟨p, hpm, q, hqm, _, _, hne⟩ := exists_ne_of_not_sorted ho
  rw [subgroup_of_ne h hs ⟨p, hpm, q, hqm, hne⟩, deviceArray, hs, normalize_of_not_sorted ho] at hsub
  obtain ⟨tiles, ht, hsub⟩ := bind_eq_ok.mp hsub
  obtain ⟨hf, ht⟩ := newTileAssignment_lookup hc hs ho hR (required_eq_ok.mp ht)
  refine ⟨hf, fun k => (iota.valueAt (digits iota.dims k)).getD 0, ?_⟩
  rw [newTiles_eq, ← hs, Option.map_eq_some_iff] at ht
  obtain ⟨values, hv, rfl⟩ := ht
  have hd : data ++ subs.map Prod.snd = iota.dims := hs.symm
  have hp : 0 < iota.dims.prod := hp
  have hl := List.Forall₂.length_eq (mapM_eq_some.mp hv)
  obtain ⟨hvalues, hg⟩ := eq_map_of_forall₂ 0 (mapM_eq_some.mp hv)
  have hpr := prod_mergedSizes data subs
  replace hl := hl.symm.trans ((offsets_mergedView_perm data subs).length_eq.trans (List.length_range.trans hpr.symm))
  constructor
  · intro k hk
    apply hg k
    rw [(offsets_mergedView_perm data subs).mem_iff, hd]
    exact List.mem_range.mpr hk
  · have hD : (TileAssignment.ofArray ⟨data ++ (mergedSubs subs).map Prod.snd, values⟩).Denotes
        ⟨data ++ (mergedSubs subs).map Prod.snd, values⟩ := .explicit rfl ⟨hl⟩
    obtain ⟨s', hs', hC⟩ := createSharding_merged (a := deviceArray iota.dims iota.view) hs hp hD rfl
    obtain rfl := Except.ok.inj (hsub.symm.trans hs')
    rw [hvalues] at hC
    exact hC

theorem simpleSharding_isTiledLeaf {type : SubgroupType} (h : simpleSharding type = some s) : s.isTiledLeaf = false := by
  cases type <;> cases h <;> rfl

theorem map_device_placements (h : a.Valid) : (placements data subs a).map Placement.device = a.values := by
  rw [placements_eq h]
  exact List.ext_getElem? fun k => by simp [place, Function.comp_def]

-- The values that are looked up are not those of a device array.
theorem not_perm_of_lookup {g : Nat → Int} (hc : iota.Canonical) (hd : iota.dims ≠ [])
    (hf : ¬IotaTileAssignment.FitsInt iota.view)
    (hg : ∀ k < iota.dims.prod, iota.valueAt (digits iota.dims k) = some (g k)) :
    ¬((List.range iota.dims.prod).map g).Perm ((List.range iota.dims.prod).map Int.ofNat) := by
  intro hp
  obtain ⟨k, h₀, hk, hle⟩ := IotaTileAssignment.exists_value_le_zero hc hd hg hf
  have hz := IotaTileAssignment.value_zero hc hd hg
  have hn : ((List.range iota.dims.prod).map g).Nodup :=
    hp.nodup_iff.mpr (List.nodup_range.map fun _ _ => Int.ofNat.inj)
  obtain ⟨j, _, hj⟩ := List.mem_map.mp (hp.mem_iff.mp (List.mem_map_of_mem (List.mem_range.mpr hk)))
  have hj : (j : Int) = g k := hj
  have hgk : g k = g 0 := by omega
  have hinj := List.inj_on_of_nodup_map hn (List.mem_range.mpr hk) (List.mem_range.mpr (h₀.trans hk)) hgk
  omega

theorem rearranges (h : t.Denotes a) (hs : a.sizes = data ++ subs.map Prod.snd) (hp : 0 < a.sizes.prod)
    (hN : Normalizes t data subs a s) : Rearranges t subs := by
  by_contra hr
  rw [Rearranges, not_or] at hr
  obtain ⟨ho, hr⟩ := hr
  push Not at hr
  obtain ⟨iota, hi, hR⟩ := hr
  obtain ⟨_, hc, rfl⟩ := h.of_iota hi
  have hs : iota.dims = data ++ subs.map Prod.snd := hs
  have hp : 0 < iota.dims.prod := hp
  have hpr : (data ++ subs.map Prod.snd).prod = iota.dims.prod := congrArg List.prod hs.symm
  obtain ⟨t', ht', hD, ht⟩ := h.reshape_of_prod hpr
  rw [hi] at ht
  obtain ⟨hn, _⟩ | ⟨_, ⟨⟩, rfl⟩ := ht
  case inl => cases hn
  case inr =>
    obtain ⟨s', hs', hb⟩ := hN.insensitive subs _ rfl ht'
    rw [← hs] at hD hs'
    obtain ⟨hf, g, hg, hC⟩ := exists_lookup hD hs hp ho hR hs'
    cases hC
    case manual hm    => exact length_mergedTypes ho _ hm
    case replicate hm => exact length_mergedTypes ho _ hm
    case tiled t₁ b hnc hDb hS =>
      have hleaf := (beq_flags hb).2.symm.trans tiled_isTiledLeaf
      cases hN.keeps
      case simple type hsimple _ _ =>
        rw [simpleSharding_isTiledLeaf hsimple] at hleaf
        cases hleaf
      case tiled merged b' _ hDb' hbs _ hplace =>
        have ht₁ := beq_tileAssignment hb
        rw [tiled_tileAssignment] at ht₁
        obtain rfl := hDb.eq_of_beq hDb' ht₁
        have hval : (deviceArray iota.dims iota.view).values = (offsets iota.view).map Int.ofNat :=
          values_deviceArray hc.describes.numElements_eq
        have hv := hplace.map Placement.device
        rw [map_device_placements hDb.hasArray.valid, map_device_placements h.hasArray.valid, hval] at hv
        have hM : ∀ d ∈ data ++ (mergedSubs subs).map Prod.snd, 0 < d :=
          pos_of_prod_pos (by rwa [prod_mergedSizes, ← hs])
        have hbg := hS.perm hM (mergedSizes_ne_nil (a := b))
        have hg' := ((offsets_mergedView_perm data subs).map g).symm.trans (hbg.symm.trans hv)
        rw [← hs] at hg'
        have hview := offsets_permuted_perm hc.describes.perm
        rw [hc.describes.prod] at hview
        have hd : iota.dims ≠ [] := by
          intro hn
          obtain ⟨p, hpm, _⟩ := exists_ne_of_not_sorted ho
          have hnil := List.map_eq_nil_iff.mp (List.append_eq_nil_iff.mp (hs.symm.trans hn)).2
          rw [hnil] at hpm
          cases hpm
        exact not_perm_of_lookup hc hd hf hg (hg'.trans (hview.map Int.ofNat))

end Lookup

end Subgroups

-- The collapsed forms depend on the dimensions of size one only for a single data tile that is unreduced. The iota form
-- is either transposed or looked up.
theorem subgroup_normalizes_iff (h : t.Denotes a) (hs : a.sizes = data ++ subs.map Prod.snd) (hv : a.values ≠ []) :
    (∃ s, Normalizes t data subs a s) ↔ Distinguishes data subs ∧ Rearranges t subs := by
  have hp : 0 < a.sizes.prod := h.hasArray.valid.length_values ▸ List.length_pos_iff.mpr hv
  constructor
  · rintro ⟨s, hN⟩
    exact ⟨distinguishes h hs hp hN, rearranges h hs hp hN⟩
  · rintro ⟨hd, hr⟩
    obtain ⟨s, hsub, hC⟩ := subgroup_spec h hs hp hr hd
    exact ⟨s, hsub, hC.keeps hs hp h.hasArray.valid, hC.idempotent hs hp hd,
      fun subs' t' hf ht => hC.insensitive hs hp h hr hd hf ht⟩

theorem subgroup_normalizes_iff_eight :
    (∃ s, Normalizes (.ofIota (.createTrivial [2, 2, 1, 2])) [2] [(.replicated, 2), (.unreduced, 1), (.manual, 2)]
      ⟨[2, 2, 1, 2], [0, 1, 2, 3, 4, 5, 6, 7]⟩ s) ↔
    Distinguishes [2] [(.replicated, 2), (.unreduced, 1), (.manual, 2)] ∧
      Rearranges (.ofIota (.createTrivial [2, 2, 1, 2])) [(.replicated, 2), (.unreduced, 1), (.manual, 2)] :=
  have hc : IotaTileAssignment.Created (.createTrivial [2, 2, 1, 2]) := .trivial (by decide)
  subgroup_normalizes_iff (.iota hc (TileAssignment.holds_ofIota _) (by decide)) rfl (by decide)

-- Two devices that are unreduced over a single data tile, and a dimension of size one.
theorem not_normalizes_unreduced : ¬∃ s, Normalizes (.ofArray ⟨[1, 2, 1], [0, 1]⟩) [1] [(.unreduced, 2), (.replicated, 1)]
    ⟨[1, 2, 1], [0, 1]⟩ s := by
  rintro ⟨s, hN⟩
  have hs : subgroup (.ofArray ⟨[1, 2, 1], [0, 1]⟩) [.unreduced, .replicated] =
      .ok (ofSubgroupTypes (.ofArray ⟨[1, 2], [0, 1]⟩) [.unreduced]) := rfl
  obtain rfl := Except.ok.inj (hs.symm.trans hN.result)
  obtain ⟨s', hs', hb⟩ := hN.idempotent rfl
  have hu : subgroup (.ofArray ⟨[1, 2], [0, 1]⟩) [.unreduced] = .ok ofUnreduced := rfl
  obtain rfl := Except.ok.inj (hu.symm.trans hs')
  cases hb

end Sharding.HloSharding
