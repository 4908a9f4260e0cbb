import XlaModel.Sharding.Theorems.Subgroup.NewTiles

namespace Sharding.HloSharding.Subgroups

open View
open OpSharding (SubgroupType)

variable {t t' : TileAssignment} {data sizes : List Nat} {subs subs' : List Sub} {types : List SubgroupType}
variable {a b b' : Array Int} {s s' : HloSharding}

-- The replication groups are in ascending order.
structure Sorts (types : List SubgroupType) (a b : Array Int) : Prop where
  sizes  : b.sizes = a.sizes
  values : if types.getLast? = some .replicated then List.GroupsSorted (a.sizes.getLastD 0) a.values b.values
    else b.values = a.values

def tiled (t : TileAssignment) (types : List SubgroupType) : HloSharding :=
  if types = [.replicated] then ofTileAssignment t true else ofSubgroupTypes t types

-- All devices are in the single data tile and of the same type.
def Collapses (types : List SubgroupType) (a : Array Int) : Prop :=
  a.sizes.getLast? = some a.numElements ∧ (types = [.manual] ∨ types = [.replicated])

inductive Creates (types : List SubgroupType) (a : Array Int) : HloSharding → Prop
  | manual    : Collapses types a → types = [.manual] → Creates types a ofManual
  | replicate : Collapses types a → types = [.replicated] → Creates types a replicate
  | tiled {t : TileAssignment} {b : Array Int} : ¬Collapses types a → t.Denotes b → Sorts types a b →
    Creates types a (tiled t types)

theorem GroupsSorted.trans {g : Nat} {xs ys zs : List Int} (h : List.GroupsSorted g xs ys)
    (h' : List.GroupsSorted g ys zs) : List.GroupsSorted g xs zs where
  length   := h'.length.trans h.length
  perm i   := (h'.perm i).trans (h.perm i)
  sorted   := h'.sorted

namespace Sorts

theorem trans (h : Sorts types a b) (h' : Sorts types b b') : Sorts types a b' where
  sizes  := h'.sizes.trans h.sizes
  values := by
    have hv := h.values
    have hv' := h'.values
    rw [h.sizes] at hv'
    split_ifs at hv hv' ⊢
    case pos => exact GroupsSorted.trans hv hv'
    case neg => exact hv'.trans hv

theorem unique (h : Sorts types a b) (h' : Sorts types a b') (hp : ∀ d ∈ a.sizes, 0 < d) (hn : types ≠ [] → a.sizes ≠ []) :
    b = b' := by
  have hv := h.values
  have hv' := h'.values
  refine Array.ext (h.sizes.trans h'.sizes.symm) ?_
  split_ifs at hv hv' with hl
  case pos =>
    have hne : a.sizes ≠ [] := hn (by rintro rfl; cases hl)
    refine hv.unique hv' ?_ fun i => .refl _
    rw [List.getLastD_eq_getLast?, List.getLast?_eq_some_getLast hne]
    exact hp _ (List.getLast_mem hne)
  case neg => exact hv.trans hv'.symm

end Sorts

theorem Creates.of_sorts (h : Sorts types a b) (hn : a.numElements = b.numElements) (hc : Creates types b s) :
    Creates types a s := by
  have hC : Collapses types b ↔ Collapses types a := by rw [Collapses, h.sizes, ← hn, Collapses]
  cases hc
  case manual hc ht       => exact .manual (hC.mp hc) ht
  case replicate hc ht    => exact .replicate (hC.mp hc) ht
  case tiled t b' hc hd hS => exact .tiled (mt hC.mpr hc) hd (h.trans hS)

theorem beq_tiled (h : t.Denotes a) (h' : t'.Denotes a) : (tiled t types).beq (tiled t' types) = .ok true := by
  rw [tiled, tiled]
  split_ifs
  case pos => exact beq_ofTileAssignment h h'
  case neg =>
    simp [beq, ofSubgroupTypes, h.beq h', required]
    rfl

-- The sharding is determined by the array.
theorem Creates.beq (h : Creates types a s) (h' : Creates types a s') (hp : ∀ d ∈ a.sizes, 0 < d)
    (hn : types ≠ [] → a.sizes ≠ []) : s.beq s' = .ok true := by
  cases h <;> cases h'
  case manual.manual hc ht _ _          => rfl
  case replicate.replicate hc ht _ _    => rfl
  case manual.replicate ht _ ht'        => simp [ht] at ht'
  case replicate.manual ht _ ht'        => simp [ht] at ht'
  case manual.tiled hc _ _ _ hn _ _     => exact absurd hc hn
  case replicate.tiled hc _ _ _ hn _ _  => exact absurd hc hn
  case tiled.manual hn _ _ hc _         => exact absurd hc hn
  case tiled.replicate hn _ _ hc _      => exact absurd hc hn
  case tiled.tiled hd hS t' b' _ hd' hS' =>
    obtain rfl := hS.unique hS' hp hn
    exact beq_tiled hd hd'

section CreateSharding

variable (h : t.Denotes a) (hs : a.sizes = data ++ sizes) (hl : sizes.length = types.length)
variable (h₁ : ∀ d ∈ sizes, d ≠ 1) (hp : 0 < a.sizes.prod)
include h hs hl h₁ hp

theorem partialTile_replicated (ht : types.getLast? = some .replicated) :
    ∃ sharding, partialTile t = .ok sharding ∧
      (Collapses types a ∧ types = [.replicated] ∧ sharding = replicate ∨
        ¬Collapses types a ∧ ∃ t' b, t'.Denotes b ∧ Sorts types a b ∧ sharding = ofTileAssignment t' true) := by
  have hne : sizes ≠ [] := by
    rintro rfl
    obtain rfl := List.length_eq_zero_iff.mp hl.symm
    cases ht
  obtain ⟨ys, g, rfl⟩ := List.eq_nil_or_concat' sizes |>.resolve_left hne
  have hg : a.sizes.getLast? = some g := by simp [hs]
  have hn : a.numElements = data.prod * ys.prod * g := by
    rw [Array.numElements, h.hasArray.valid.length_values, hs]
    simp [Nat.mul_assoc]
  have hg₀ : 0 < g := pos_of_prod_pos hp g (List.mem_of_getLast? hg)
  have hcollapse : g = a.numElements → types = [.replicated] := by
    intro he
    have h₁' : data.prod * ys.prod = 1 := Nat.eq_of_mul_eq_mul_right hg₀ (by rw [← hn, Nat.one_mul, ← he])
    have hys : ys = [] := by
      refine List.eq_nil_iff_forall_not_mem.mpr fun y hy => h₁ y (by simp [hy]) ?_
      exact Nat.dvd_one.mp (Nat.eq_one_of_mul_eq_one_left h₁' ▸ List.dvd_prod hy)
    rw [hys] at hl
    obtain ⟨type, rfl⟩ := List.length_eq_one_iff.mp hl.symm
    simpa using ht
  have hC : Collapses types a ↔ g = a.numElements := by
    rw [Collapses, hg, Option.some_inj]
    exact ⟨And.left, fun he => ⟨he, .inr (hcollapse he)⟩⟩
  obtain ⟨sharding, hs', hS⟩ := partialTile_spec h hg
  refine ⟨sharding, hs', ?_⟩
  cases hS
  case replicate hr =>
    have he : g = a.numElements := by
      refine hr.elim (fun h₁' => ?_) id
      rw [hs, List.length_append, List.length_append, List.length_singleton] at h₁'
      obtain rfl : data = [] := List.length_eq_zero_iff.mp (by omega)
      obtain rfl : ys = [] := List.length_eq_zero_iff.mp (by omega)
      simp [hn]
    exact .inl ⟨hC.mpr he, hcollapse he, rfl⟩
  case tile h₁' _ => exact absurd h₁' (h₁ g (by simp))
  case partialTile t' b hr _ hd hbs hb =>
    refine .inr ⟨fun hc => hr (.inr (hC.mp hc)), t', b, hd, ⟨hbs, ?_⟩, rfl⟩
    rw [if_pos ht, List.getLastD_eq_getLast?, hg]
    exact hb

theorem createSharding_spec : ∃ s, createSharding t types = .ok s ∧ Creates types a s := by
  have hA := h.hasArray
  rw [createSharding]
  by_cases hr : types = [.replicated]
  case pos =>
    obtain ⟨sharding, hs', hS⟩ := partialTile_replicated h hs hl h₁ hp (by rw [hr]; rfl)
    rw [if_pos hr, hs']
    refine ⟨sharding, rfl, ?_⟩
    obtain ⟨hc, ht, rfl⟩ | ⟨hc, t', b, hd, hb, rfl⟩ := hS
    case inl => exact .replicate hc ht
    case inr =>
      have := Creates.tiled hc hd hb
      rwa [tiled, if_pos hr] at this
  case neg =>
    simp only [if_neg hr, hA.numElements, hA.dimensions, required, pure_bind]
    by_cases hm : types = [.manual] ∧ a.sizes.getLast? = some a.numElements
    case pos =>
      rw [if_pos hm]
      exact ⟨_, rfl, .manual ⟨hm.2, .inl hm.1⟩ hm.1⟩
    case neg =>
      have hc : ¬Collapses types a := fun hc => hc.2.elim (fun ht => hm ⟨ht, hc.1⟩) hr
      rw [if_neg hm]
      split_ifs with ht
      case pos =>
        obtain ⟨sharding, hs', hS⟩ := partialTile_replicated h hs hl h₁ hp ht
        obtain ⟨_, hr', _⟩ | ⟨_, t', b, hd, hb, rfl⟩ := hS
        case inl => exact absurd hr' hr
        case inr =>
          rw [hs']
          have := Creates.tiled hc hd hb
          rw [tiled, if_neg hr] at this
          exact ⟨_, rfl, this⟩
      case neg =>
        have := Creates.tiled hc h ⟨rfl, by rw [if_neg ht]⟩
        rw [tiled, if_neg hr] at this
        exact ⟨_, rfl, this⟩

end CreateSharding

end Sharding.HloSharding.Subgroups

namespace Sharding.HloSharding.Subgroups

open View
open OpSharding (SubgroupType)

variable {t t' : TileAssignment} {data : List Nat} {subs subs' : List Sub} {type : SubgroupType}
variable {a b : Array Int} {s s' : HloSharding}

theorem types_mergedSubs : (mergedSubs subs).map Prod.fst = mergedTypes subs := by
  rw [mergedSubs, List.map_map]
  exact List.map_id _

theorem two_le_of_mem_sizesOf (h₀ : ∀ p ∈ subs, 0 < p.2) : ∀ n ∈ sizesOf subs type, 2 ≤ n := by
  intro n hn
  obtain ⟨p, hp, rfl⟩ := List.mem_map.mp hn
  obtain ⟨hp, h₁⟩ := List.mem_filter.mp (List.mem_of_mem_filter hp)
  have := h₀ p hp
  have : p.2 ≠ 1 := by simpa using h₁
  omega

theorem mergedSubs_ne_one (h₀ : ∀ p ∈ subs, 0 < p.2) : ∀ p ∈ mergedSubs subs, p.2 ≠ 1 := by
  intro p hp h₁
  obtain ⟨type, ht, rfl⟩ := List.mem_map.mp hp
  have hn := (List.mem_filter.mp ht).2
  rw [IotaTileAssignment.eq_nil_of_prod_eq_one (two_le_of_mem_sizesOf h₀) h₁] at hn
  simp at hn

theorem mergedSubs_sorted : Sorted (mergedSubs subs) := by
  apply List.Pairwise.filter
  rw [mergedSubs, List.pairwise_map]
  exact ((pairwise_idxOf kOrderedTypes_nodup).imp fun h => h.le).filter _

theorem mergedTypes_nodup : (mergedTypes subs).Nodup :=
  kOrderedTypes_nodup.filter _

theorem mem_mergedTypes : type ∈ mergedTypes subs ↔ sizesOf subs type ≠ [] := by
  simp [mergedTypes, mem_kOrderedTypes]

theorem sizesOf_mergedSubs (h₀ : ∀ p ∈ subs, 0 < p.2) : sizesOf (mergedSubs subs) type =
    if sizesOf subs type = [] then [] else [(sizesOf subs type).prod] := by
  have hf : (mergedSubs subs).filter (·.2 ≠ 1) = mergedSubs subs :=
    List.filter_eq_self.mpr fun p hp => decide_eq_true (mergedSubs_ne_one h₀ p hp)
  have hc : (mergedSubs subs).filter (·.1 = type) =
      ((mergedTypes subs).filter (· = type)).map fun type => (type, (sizesOf subs type).prod) := by
    rw [mergedSubs, List.filter_map]
    rfl
  rw [sizesOf, hf, hc, List.filter_eq, List.map_map, List.map_replicate]
  by_cases ht : sizesOf subs type = []
  case pos =>
    rw [if_pos ht, List.count_eq_zero_of_not_mem (fun hm => mem_mergedTypes.mp hm ht)]
    rfl
  case neg =>
    rw [if_neg ht, List.count_eq_one_of_mem mergedTypes_nodup (mem_mergedTypes.mpr ht)]
    rfl

theorem mergedSubs_mergedSubs (h₀ : ∀ p ∈ subs, 0 < p.2) : mergedSubs (mergedSubs subs) = mergedSubs subs := by
  have ht : mergedTypes (mergedSubs subs) = mergedTypes subs := by
    refine List.filter_congr fun type _ => ?_
    rw [sizesOf_mergedSubs h₀]
    split_ifs with h <;> simp [h]
  conv_lhs => rw [mergedSubs, ht]
  conv_rhs => rw [mergedSubs]
  refine List.map_congr_left fun type hm => ?_
  rw [sizesOf_mergedSubs h₀, if_neg (mem_mergedTypes.mp hm), List.prod_singleton]

theorem mergedSubs_of_length_le_one (hl : subs.length ≤ 1) (h₁ : ∀ p ∈ subs, p.2 ≠ 1) : mergedSubs subs = subs := by
  match subs with
  | []          => rfl
  | [(type, n)] =>
    have hn : n ≠ 1 := h₁ _ (.head _)
    cases type <;> simp [mergedSubs, mergedTypes, sizesOf, kOrderedTypes, hn]

-- Sorted dimensions stay in place if none of them is removed.
theorem mergedArray_of_sorted (hv : a.Valid) (hs : a.sizes = data ++ subs.map Prod.snd) (ho : Sorted subs)
    (h₁ : ∀ p ∈ subs, p.2 ≠ 1) (hm : mergedSubs subs = subs) : mergedArray data subs a = a := by
  have hf : (subs.zipIdx data.length).filter (fun p => p.1.2 ≠ 1) = subs.zipIdx data.length :=
    List.filter_eq_self.mpr fun p hp => decide_eq_true
      (h₁ p.1 ((List.zipIdx_map_fst data.length subs) ▸ List.mem_map_of_mem hp))
  have hsd : sortedDims (subs.zipIdx data.length) = List.range' data.length subs.length := by
    have hp := sortedDims_perm (subs.zipIdx data.length)
    rw [hf, List.zipIdx_map_snd] at hp
    exact hp.eq_of_pairwise (fun _ _ _ _ h h' => absurd h h'.asymm) ((sortedDims_pairwise _).mpr ho)
      List.pairwise_lt_range'
  have htd : trivialDims (subs.zipIdx data.length) = [] := by
    have hp := (sortedDims_append_perm subs data.length).length_eq
    rw [List.length_append, hsd] at hp
    exact List.length_eq_zero_iff.mp (by omega)
  have hr : List.range data.length ++ sortedDims (subs.zipIdx data.length) ++ trivialDims (subs.zipIdx data.length) =
      List.range a.sizes.length := by
    rw [hsd, htd, List.append_nil, hs, List.length_append, List.length_map, List.range_add, List.range'_eq_map_range]
  have hg := values_of_gathers hv hs (hr.symm ▸ Array.Gathers.refl hv)
  exact Array.ext (by rw [mergedArray, hm, hs]) hg.symm

theorem dataTileShape_eq (hs : a.sizes = data ++ subs.map Prod.snd) :
    dataTileShape a.sizes (subs.map Prod.fst) = data := by
  have hl : (subs.map Prod.fst).length ≤ a.sizes.length := by
    rw [hs, List.length_append, List.length_map, List.length_map]
    omega
  rw [dataTileShape, if_pos hl, hs]
  simp

-- There is more than one data tile, or some dimension is not unreduced.
def Distinguishes (data : List Nat) (subs : List Sub) : Prop :=
  data.prod ≠ 1 ∨ ∃ p ∈ subs, p.2 ≠ 1 ∧ p.1 ≠ .unreduced

-- A single type of dimensions is collapsed without merging them.
theorem mergedTypes_of_all (ht : ∀ p ∈ subs, p.1 = type) (h₁ : ∃ p ∈ subs, p.2 ≠ 1) : mergedTypes subs = [type] := by
  have hs : ∀ type', sizesOf subs type' ≠ [] ↔ type' = type := by
    intro type'
    rw [sizesOf, ne_eq, List.map_eq_nil_iff]
    constructor
    · intro hn
      obtain ⟨p, hp⟩ := List.exists_mem_of_ne_nil _ hn
      obtain ⟨hp, he⟩ := List.mem_filter.mp hp
      rw [← ht p (List.mem_of_mem_filter hp)]
      exact (of_decide_eq_true he).symm
    · rintro rfl
      obtain ⟨p, hp, h₁⟩ := h₁
      apply List.ne_nil_of_mem (a := p)
      exact List.mem_filter.mpr ⟨List.mem_filter.mpr ⟨hp, decide_eq_true h₁⟩, decide_eq_true (ht p hp)⟩
  simp only [mergedTypes, hs]
  cases type <;> rfl

theorem getLast?_mergedArray (hd : data.prod = 1) (hm : mergedTypes subs = [type]) :
    (mergedArray data subs a).sizes.getLast? = some (mergedArray data subs a).numElements := by
  rw [Array.numElements, (mergedArray_valid data subs a).length_values, mergedArray, mergedSubs, hm]
  simp [hd]

section Spec

variable (h : t.Denotes a) (hs : a.sizes = data ++ subs.map Prod.snd) (hp : 0 < a.sizes.prod)
include h hs hp

omit h in
theorem createSharding_merged (hb : t'.Denotes b) (hbs : b.sizes = data ++ (mergedSubs subs).map Prod.snd) :
    ∃ s, createSharding t' (mergedTypes subs) = .ok s ∧ Creates (mergedTypes subs) b s := by
  have h₀ : ∀ p ∈ subs, 0 < p.2 := fun p hm =>
    pos_of_prod_pos hp p.2 (hs ▸ List.mem_append_right _ (List.mem_map_of_mem hm))
  refine createSharding_spec hb hbs ?types ?positive ?numElements
  case types => rw [List.length_map, ← types_mergedSubs, List.length_map]
  case positive =>
    intro d hd
    obtain ⟨p, hm, rfl⟩ := List.mem_map.mp hd
    exact mergedSubs_ne_one h₀ p hm
  case numElements =>
    rwa [hbs, prod_mergedSizes, ← hs]

theorem normalize_spec (hr : Rearranges t subs) : ∃ s, normalize t a.sizes (subs.map Prod.fst) = .ok s ∧
    Creates (mergedTypes subs) (mergedArray data subs a) s := by
  have hl : (subs.map Prod.fst).length ≤ a.sizes.length := by
    rw [hs, List.length_append, List.length_map, List.length_map]
    omega
  rw [normalize]
  simp only [check, hl, decide_true, if_true, pure_bind, dataTileShape_eq hs]
  split_ifs with hm
  case pos =>
    obtain ⟨t', ht', hM⟩ := newTileAssignment_spec h hs hr
    rw [hs] at ht' ⊢
    rw [collectDims_typeToDims, collectDims_removedDims, ht']
    simp only [merge_eq]
    exact createSharding_merged hs hp hM rfl
  case neg =>
    rw [hs] at hm
    obtain ⟨hl₁, h₁⟩ := collectDims_needsMerging (Bool.eq_false_iff.mpr hm)
    have hms := mergedSubs_of_length_le_one hl₁ h₁
    have hM : t.Denotes (mergedArray data subs a) := by
      rw [mergedArray_of_sorted h.hasArray.valid hs (hms ▸ mergedSubs_sorted) h₁ hms]
      exact h
    have ht : subs.map Prod.fst = mergedTypes subs := by
      rw [← types_mergedSubs, hms]
    rw [ht]
    exact createSharding_merged hs hp hM rfl

theorem subgroup_spec (hr : Rearranges t subs) (hd : Distinguishes data subs) :
    ∃ s, subgroup t (subs.map Prod.fst) = .ok s ∧ Creates (mergedTypes subs) (mergedArray data subs a) s := by
  rw [subgroup.eq_def]
  cases subs
  case nil =>
    have hm : mergedArray data [] a = a := mergedArray_of_sorted h.hasArray.valid hs .nil (by simp) rfl
    have hc : ¬Collapses (mergedTypes []) a := fun hc => hc.2.elim nofun nofun
    rw [hm]
    exact ⟨_, rfl, .tiled hc h ⟨rfl, rfl⟩⟩
  case cons p subs =>
    have hN := normalize_spec h hs hp hr
    rw [List.map_cons]
    simp only [h.hasArray.dimensions, required, pure_bind, ← List.map_cons, dataTileShape_eq hs]
    split_ifs with hsm
    case neg => exact hN
    case pos =>
      have ht : ∀ q ∈ p :: subs, q.1 = p.1 := by simpa using hsm.1
      obtain ⟨q, hq, h₁, hu⟩ := hd.resolve_left (not_not.mpr hsm.2)
      have hmt := mergedTypes_of_all ht ⟨q, hq, h₁⟩
      have hl := getLast?_mergedArray (a := a) hsm.2 hmt
      rw [ht q hq] at hu
      rw [hmt] at hN ⊢
      cases hp₁ : p.1 <;> simp only [hp₁] at hu hN
      case manual     => exact ⟨_, rfl, .manual ⟨hl, .inl rfl⟩ rfl⟩
      case replicated => exact ⟨_, rfl, .replicate ⟨hl, .inr rfl⟩ rfl⟩
      case unreduced  => exact absurd rfl hu
      all_goals exact hN

end Spec

end Sharding.HloSharding.Subgroups
