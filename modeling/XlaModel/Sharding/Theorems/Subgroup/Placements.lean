import XlaModel.Sharding.Theorems.Subgroup.Normalize

namespace Sharding.HloSharding.Subgroups

open View RowMajor
open OpSharding (SubgroupType)

variable {t t' : TileAssignment} {data : List Nat} {subs subs' : List Sub} {type : SubgroupType}
variable {a b : Array Int} {s s' : HloSharding} {j k : Nat}

-- The coordinate in the dimensions of a type that are combined into one.
def combined (subs : List Sub) (index : List Nat) (type : SubgroupType) : Nat :=
  ravel ((subs.filter (·.1 = type)).map Prod.snd) (((subs.zip index).filter (·.1.1 = type)).map Prod.snd)

-- A device with its data tile. The devices of a replication group have the same coordinates.
@[ext]
structure Placement where
  tile       : List Nat
  coordinate : SubgroupType → Nat
  device     : Int

def place (data : List Nat) (subs : List Sub) (index : List Nat) (device : Int) : Placement where
  tile            := index.take data.length
  coordinate type := if type = .replicated then 0 else combined subs (index.drop data.length) type
  device          := device

def placements (data : List Nat) (subs : List Sub) (a : Array Int) : List Placement :=
  a.each.map fun (index, device) => place data subs index device

theorem placements_eq (h : a.Valid) :
    placements data subs a = a.values.mapIdx fun k device => place data subs (digits a.sizes k) device := by
  rw [placements, h.each_eq]
  exact List.ext_getElem? fun k => by simp [Function.comp_def]

section Merged

variable {x : Nat → Nat}

-- Dimensions of size one do not affect the combined coordinate.
theorem ravel_filter {ps : List (Nat × Nat)} (h : ∀ p ∈ ps, p.1 = 1 → p.2 = 0) :
    ravel ((ps.filter (·.1 ≠ 1)).map Prod.fst) ((ps.filter (·.1 ≠ 1)).map Prod.snd) =
      ravel (ps.map Prod.fst) (ps.map Prod.snd) := by
  induction ps
  case nil => rfl
  case cons p ps hi =>
    have hp : ((ps.filter (·.1 ≠ 1)).map Prod.fst).prod = (ps.map Prod.fst).prod := by
      rw [← CanonicalizeIotaDims.prod_filter_ne_one (ps.map Prod.fst), List.filter_map]
      rfl
    have hi := hi fun q hq => h q (.tail _ hq)
    by_cases h₁ : p.1 = 1
    case pos =>
      rw [List.filter_cons_of_neg (by simpa using h₁), hi, List.map_cons, List.map_cons, ravel, h p (.head _) h₁,
        Nat.zero_mul, Nat.zero_add]
    case neg =>
      rw [List.filter_cons_of_pos (by simpa using h₁), List.map_cons, List.map_cons, List.map_cons, List.map_cons, ravel,
        ravel, hi, hp]

theorem combined_source (h₀ : ∀ p ∈ subs.zipIdx data.length, p.1.2 = 1 → x p.2 = 0) :
    combined subs ((List.range' data.length subs.length).map x) type =
      ravel (sizesOf subs type) ((typeDims (subs.zipIdx data.length) type).map x) := by
  have hz : subs.zip ((List.range' data.length subs.length).map x) =
      (subs.zipIdx data.length).map fun p => (p.1, x p.2) := by
    rw [List.zip_map_right, List.zipIdx_eq_zip_range']
    rfl
  have hf : (subs.filter (·.1 = type)).map Prod.snd =
      (((subs.zipIdx data.length).filter (·.1.1 = type)).map fun p => (p.1.2, x p.2)).map Prod.fst := by
    conv_lhs => rw [← List.zipIdx_map_fst data.length subs, List.filter_map, List.map_map]
    rw [List.map_map]
    rfl
  have hg : ((subs.zip ((List.range' data.length subs.length).map x)).filter (·.1.1 = type)).map Prod.snd =
      (((subs.zipIdx data.length).filter (·.1.1 = type)).map fun p => (p.1.2, x p.2)).map Prod.snd := by
    rw [hz, List.filter_map, List.map_map, List.map_map]
    rfl
  have hr := @ravel_filter (((subs.zipIdx data.length).filter (·.1.1 = type)).map fun p => (p.1.2, x p.2))
    fun q hq h₁ => by
      obtain ⟨p, hp, rfl⟩ := List.mem_map.mp hq
      exact h₀ p (List.mem_of_mem_filter hp) h₁
  have hq : (((subs.zipIdx data.length).filter (·.1.1 = type)).map fun p => (p.1.2, x p.2)).filter (·.1 ≠ 1) =
      ((subs.zipIdx data.length).filter fun p => p.1.1 = type ∧ p.1.2 ≠ 1).map fun p => (p.1.2, x p.2) := by
    rw [List.filter_map, List.filter_filter]
    congr 1
    exact List.filter_congr fun p _ => by simp [Bool.and_comm]
  rw [combined, hf, hg, ← hr, hq, sizesOf_eq data.length, typeDims, List.map_map, List.map_map, List.map_map]
  rfl

-- The digits of the merged dimensions.
theorem digits_merged {types : List SubgroupType} (hj : j < (types.flatMap (sizesOf subs)).prod)
    (hd : digits (types.flatMap (sizesOf subs)) j = (types.flatMap (typeDims (subs.zipIdx data.length))).map x) :
    digits ((types.filter (sizesOf subs · ≠ [])).map fun type => (sizesOf subs type).prod) j =
      (types.filter (sizesOf subs · ≠ [])).map fun type =>
        ravel (sizesOf subs type) ((typeDims (subs.zipIdx data.length) type).map x) := by
  induction types generalizing j
  case nil => rfl
  case cons type types hi =>
    rw [List.flatMap_cons] at hj hd
    rw [List.flatMap_cons, List.map_append, digits_append hj] at hd
    have hl : (digits (sizesOf subs type) (j / (types.flatMap (sizesOf subs)).prod)).length =
        ((typeDims (subs.zipIdx data.length) type).map x).length := by
      rw [length_digits, List.length_map, ← @map_typeDims data, List.length_map]
    obtain ⟨hd₁, hd₂⟩ := List.append_inj hd hl
    rw [List.prod_append] at hj
    have hp : 0 < (types.flatMap (sizesOf subs)).prod := Nat.pos_of_mul_pos_left (Nat.zero_lt_of_lt hj)
    have hi := hi (Nat.mod_lt _ hp) hd₂
    by_cases ht : sizesOf subs type = []
    case pos =>
      rw [ht, List.prod_nil, Nat.one_mul] at hj
      rw [Nat.mod_eq_of_lt hj] at hi
      rw [List.filter_cons_of_neg (by simpa using ht), hi]
    case neg =>
      have hq : j / (types.flatMap (sizesOf subs)).prod < (sizesOf subs type).prod := (Nat.div_lt_iff_lt_mul hp).mpr hj
      rw [List.filter_cons_of_pos (by simpa using ht), List.map_cons, List.map_cons, digits, prod_filter_types, hi, ← hd₁,
        ravel_digits hq]

theorem combined_merged (c : SubgroupType → Nat) (hc : sizesOf subs type = [] → c type = 0) :
    combined (mergedSubs subs) ((mergedTypes subs).map c) type = c type := by
  have hf : (mergedSubs subs).filter (·.1 = type) =
      ((mergedTypes subs).filter (· = type)).map fun type => (type, (sizesOf subs type).prod) := by
    rw [mergedSubs, List.filter_map]
    rfl
  have hz : (mergedSubs subs).zip ((mergedTypes subs).map c) =
      (mergedTypes subs).map fun type => ((type, (sizesOf subs type).prod), c type) := by
    rw [mergedSubs, List.zip_map']
  have hg : ((mergedTypes subs).map fun type => ((type, (sizesOf subs type).prod), c type)).filter (·.1.1 = type) =
      ((mergedTypes subs).filter (· = type)).map fun type => ((type, (sizesOf subs type).prod), c type) := by
    rw [List.filter_map]
    rfl
  rw [combined, hf, hz, hg, List.filter_eq]
  by_cases ht : sizesOf subs type = []
  case pos =>
    rw [List.count_eq_zero_of_not_mem (fun hm => mem_mergedTypes.mp hm ht), hc ht]
    rfl
  case neg =>
    rw [List.count_eq_one_of_mem mergedTypes_nodup (mem_mergedTypes.mpr ht)]
    simp [ravel]

end Merged

section Place

-- An element of the merged array is placed like the element of the source that it is read from.
theorem place_merged (hk : k < (data ++ subs.map Prod.snd).prod) (device : Int) :
    place data (mergedSubs subs) (digits (data ++ (mergedSubs subs).map Prod.snd) k) device =
      place data subs (digits (data ++ subs.map Prod.snd) (offset (mergedView data subs) k)) device := by
  have hp := perm_range data subs
  obtain ⟨x, hb, hd, h₀, hr⟩ := exists_digits_of_trivial hp getD_trivialDims hk
  have ho := (same_mergedView data subs).offset k (by rwa [numElements_permuted hp])
  have hi : digits (data ++ subs.map Prod.snd) (offset (mergedView data subs) k) =
      (List.range data.length).map x ++ (List.range' data.length subs.length).map x := by
    rw [← ho, ← hr, hb.digits_ravel, List.length_append, List.length_map, List.range_add, List.map_append,
      List.range'_eq_map_range]
  have hP : (kOrderedTypes.flatMap (sizesOf subs)).prod = ((mergedSubs subs).map Prod.snd).prod := by
    rw [← prod_filter_types, mergedSubs, mergedTypes, List.map_map]
    rfl
  have hk' : k < (data ++ (mergedSubs subs).map Prod.snd).prod := by rwa [prod_mergedSizes]
  have hk'' : k < (data ++ kOrderedTypes.flatMap (sizesOf subs)).prod := by
    rwa [List.prod_append, hP, ← List.prod_append]
  have hpos : 0 < ((mergedSubs subs).map Prod.snd).prod := by
    rw [List.prod_append] at hk'
    exact Nat.pos_of_mul_pos_left (Nat.zero_lt_of_lt hk')
  rw [← mergedSizes_eq, digits_append hk'', hP, List.map_append] at hd
  obtain ⟨hd₁, hd₂⟩ := List.append_inj hd (by simp)
  have hm := digits_merged (hP.symm ▸ Nat.mod_lt _ hpos) hd₂
  have hms : ((mergedSubs subs).map Prod.snd) = (kOrderedTypes.filter (sizesOf subs · ≠ [])).map fun type =>
      (sizesOf subs type).prod := by
    rw [mergedSubs, mergedTypes, List.map_map]
    rfl
  have hj : digits (data ++ (mergedSubs subs).map Prod.snd) k = (List.range data.length).map x ++
      (mergedTypes subs).map fun type => ravel (sizesOf subs type) ((typeDims (subs.zipIdx data.length) type).map x) := by
    rw [digits_append hk', hd₁]
    congr 1
    rw [mergedTypes, ← hm, hms]
  have hl : ((List.range data.length).map x).length = data.length := by simp
  rw [hi, hj]
  refine Placement.ext ?tile ?subgroups rfl
  case tile =>
    simp only [place]
    rw [List.take_left' hl, List.take_left' hl]
  case subgroups =>
    funext type
    simp only [place]
    rw [List.drop_left' hl, List.drop_left' hl]
    refine ite_congr rfl (fun _ => rfl) fun _ => ?_
    rw [combined_source, combined_merged]
    · intro ht
      rw [typeDims_eq_nil.mpr ht, ht]
      rfl
    · intro p hp h₁
      have hg := getD_of_mem_zipIdx hp
      obtain ⟨hn, hi⟩ := List.mk_mem_zipIdx_iff_le_and_getElem?_sub.mp hp
      have hlt : p.2 < (data ++ subs.map Prod.snd).length := by
        have := (List.getElem?_eq_some_iff.mp hi).1
        rw [List.length_append, List.length_map]
        omega
      apply h₀ p.2 hlt
      rw [List.getD_eq_getElem _ _ hlt] at hg ⊢
      rw [hg, h₁]

theorem placements_merged (hv : a.Valid) (hs : a.sizes = data ++ subs.map Prod.snd) :
    (placements data (mergedSubs subs) (mergedArray data subs a)).Perm (placements data subs a) := by
  have hp := (offsets_mergedView_perm data subs).map fun k =>
    place data subs (digits (data ++ subs.map Prod.snd) k) (a.values.getD k 0)
  rw [placements_eq hv, placements_eq (mergedArray_valid data subs a)]
  refine .trans (.of_eq ?values) (hp.trans (.of_eq ?perm))
  case values =>
    refine List.ext_getElem (by simp [mergedArray, offsets]) fun k h₁ h₂ => ?_
    have hk : k < (data ++ subs.map Prod.snd).prod := by
      rw [List.length_map, offsets, List.length_map, List.length_range, numElements_mergedView] at h₂
      exact h₂
    rw [List.getElem_mapIdx, List.getElem_map]
    have hkm : k < (mergedArray data subs a).values.length := by simpa using h₁
    have hg : (mergedArray data subs a).values[k] = a.values.getD (offset (mergedView data subs) k) 0 := by
      simp [mergedArray, offsets]
    rw [hg]
    have := place_merged hk (a.values.getD (offset (mergedView data subs) k) 0)
    simp only [offsets, List.getElem_map, List.getElem_range]
    exact this
  case perm =>
    rw [← hs, ← hv.length_values]
    refine List.ext_getElem (by simp) fun k h₁ h₂ => ?_
    have hk : k < a.values.length := by simpa using h₂
    simp [hk]

-- The position within a replication group does not matter.
theorem place_concat {w : List Nat} {g i j : Nat} {device : Int} (hw : w.length = data.length + subs.length) :
    place data (subs ++ [(.replicated, g)]) (w ++ [i]) device = place data (subs ++ [(.replicated, g)]) (w ++ [j]) device := by
  refine Placement.ext ?tile ?subgroups rfl
  case tile =>
    simp only [place]
    rw [List.take_append_of_le_length (by omega), List.take_append_of_le_length (by omega)]
  case subgroups =>
    funext type
    simp only [place]
    refine ite_congr rfl (fun _ => rfl) fun ht => ?_
    have hc (i : Nat) : ((subs ++ [(SubgroupType.replicated, g)]).zip ((w ++ [i]).drop data.length)).filter (·.1.1 = type) =
        (subs.zip (w.drop data.length)).filter (·.1.1 = type) := by
      rw [List.drop_append_of_le_length (by omega), List.zip_append (by rw [List.length_drop]; omega), List.filter_append]
      simp [Ne.symm ht]
    rw [combined, hc, combined, hc]

theorem placements_sorts {types : List SubgroupType} (hv : a.Valid) (hb : b.Valid) (hs : a.sizes = data ++ subs.map Prod.snd)
    (ht : subs.map Prod.fst = types) (h₀ : 0 < a.sizes.prod) (hS : Sorts types a b) :
    (placements data subs b).Perm (placements data subs a) := by
  have hval := hS.values
  split_ifs at hval with hl
  case neg =>
    obtain rfl : b = a := Array.ext hS.sizes hval
    exact .refl _
  case pos =>
    obtain rfl | ⟨subs, ⟨type, g⟩, rfl⟩ := List.eq_nil_or_concat' subs
    case inl =>
      subst ht
      cases hl
    case inr =>
      obtain rfl : type = .replicated := by simpa [← ht] using hl
      have hsz : a.sizes = (data ++ subs.map Prod.snd) ++ [g] := by simp [hs]
      have hg : a.sizes.getLastD 0 = g := by simp [hsz]
      have hg₀ : 0 < g := pos_of_prod_pos h₀ g (by simp [hsz])
      rw [hg] at hval
      have hd (k : Nat) (hk : k < a.sizes.prod) (device : Int) :
          place data (subs ++ [(.replicated, g)]) (digits a.sizes k) device =
            place data (subs ++ [(.replicated, g)]) (digits (data ++ subs.map Prod.snd) (k / g) ++ [0]) device := by
        rw [hsz] at hk ⊢
        rw [digits_append hk, List.prod_singleton]
        exact place_concat (by simp)
      have hm (c : Array Int) (hc : c.Valid) (hcs : c.sizes = a.sizes) :
          placements data (subs ++ [(.replicated, g)]) c = c.values.mapIdx fun k device =>
            place data (subs ++ [(.replicated, g)]) (digits (data ++ subs.map Prod.snd) (k / g) ++ [0]) device := by
        rw [placements_eq hc, hcs]
        refine List.ext_getElem (by simp) fun k h₁ _ => ?_
        rw [List.getElem_mapIdx, List.getElem_mapIdx]
        apply hd
        rw [← hcs, ← hc.length_values]
        simpa using h₁
      rw [hm a hv rfl, hm b hb hS.sizes]
      exact List.mapIdx_perm_of_group (f := fun i device => place data (subs ++ [(.replicated, g)])
        (digits (data ++ subs.map Prod.snd) i ++ [0]) device) hg₀ hval.length hval.perm

end Place

end Sharding.HloSharding.Subgroups
