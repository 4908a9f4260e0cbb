import XlaModel.Lib.PermutedView
import XlaModel.Sharding.Subgroup
import XlaModel.Sharding.Theorems.HloSharding

namespace Sharding.HloSharding.Subgroups

open View
open OpSharding (SubgroupType)

-- A subgroup dimension.
abbrev Sub :=
  SubgroupType × Nat

variable {dims data : List Nat} {subs : List Sub} {l : List (Sub × Nat)} {type : SubgroupType}

-- The sizes of the dimensions that are merged for a type.
def sizesOf (subs : List Sub) (type : SubgroupType) : List Nat :=
  ((subs.filter (·.2 ≠ 1)).filter (·.1 = type)).map Prod.snd

def mergedTypes (subs : List Sub) : List SubgroupType :=
  kOrderedTypes.filter (sizesOf subs · ≠ [])

def mergedSubs (subs : List Sub) : List Sub :=
  (mergedTypes subs).map fun type => (type, (sizesOf subs type).prod)

def typeDims (l : List (Sub × Nat)) (type : SubgroupType) : List Nat :=
  (l.filter fun p => p.1.1 = type ∧ p.1.2 ≠ 1).map Prod.snd

def trivialDims (l : List (Sub × Nat)) : List Nat :=
  (l.filter fun p => p.1.2 = 1).map Prod.snd

-- The dimensions in the order of their types.
def sortedDims (l : List (Sub × Nat)) : List Nat :=
  kOrderedTypes.flatMap (typeDims l)

theorem zipIdx_map_fst' (subs : List Sub) (n : Nat) :
    (subs.map Prod.fst).zipIdx n = (subs.zipIdx n).map fun p => (p.1.1, p.2) := by
  rw [List.zipIdx_map]
  rfl

theorem getD_of_mem_zipIdx {p : Sub × Nat} (hp : p ∈ subs.zipIdx data.length) :
    (data ++ subs.map Prod.snd).getD p.2 0 = p.1.2 := by
  obtain ⟨hn, hi⟩ := List.mk_mem_zipIdx_iff_le_and_getElem?_sub.mp hp
  rw [List.getD_eq_getElem?_getD, List.getElem?_append_right hn, List.getElem?_map, hi]
  rfl

section Collect

variable (hl : ∀ p ∈ l, dims.getD p.2 0 = p.1.2)
include hl

theorem foldl_typeToDims (s : Dims) : (l.foldl (fun s p => addDim dims s p.1.1 p.2) s).typeToDims type =
    s.typeToDims type ++ typeDims l type := by
  induction l generalizing s
  case nil => simp [typeDims]
  case cons p l hi =>
    rw [List.foldl_cons, hi fun q hq => hl q (.tail _ hq), addDim, hl p (.head _), typeDims, typeDims, List.filter_cons]
    by_cases h₁ : p.1.2 = 1
    case pos => simp [h₁]
    case neg =>
      obtain rfl | hne := eq_or_ne p.1.1 type
      case inl => simp [h₁]
      case inr => simp [h₁, hne, Function.update_of_ne hne.symm]

theorem foldl_removedDims (s : Dims) : (l.foldl (fun s p => addDim dims s p.1.1 p.2) s).removedDims =
    s.removedDims ++ trivialDims l := by
  induction l generalizing s
  case nil => simp [trivialDims]
  case cons p l hi =>
    rw [List.foldl_cons, hi fun q hq => hl q (.tail _ hq), addDim, hl p (.head _), trivialDims, trivialDims,
      List.filter_cons]
    by_cases h₁ : p.1.2 = 1 <;> simp [h₁]

-- Without merging, each dimension is the first one of its type.
theorem foldl_needsMerging (s : Dims)
    (h : (l.foldl (fun s p => addDim dims s p.1.1 p.2) s).needsMerging = false) :
    s.needsMerging = false ∧ (∀ p ∈ l, p.1.2 ≠ 1) ∧
      (l.foldl (fun s p => addDim dims s p.1.1 p.2) s).subgroupCount = s.subgroupCount + l.length := by
  induction l generalizing s
  case nil => simpa using h
  case cons p l hi =>
    rw [List.foldl_cons] at h ⊢
    obtain ⟨hm, ht, hc⟩ := hi (fun q hq => hl q (.tail _ hq)) _ h
    rw [addDim, hl p (.head _)] at hm hc ⊢
    by_cases h₁ : p.1.2 = 1
    case pos => simp [h₁] at hm
    case neg =>
      rw [if_neg h₁] at hm hc ⊢
      obtain ⟨hs, hd⟩ := Bool.or_eq_false_iff.mp hm
      have hd := of_decide_eq_false hd
      refine ⟨hs, List.forall_mem_cons.mpr ⟨h₁, ht⟩, ?_⟩
      rw [hc, List.length_cons]
      simp only [if_neg hd]
      omega

end Collect

theorem collectDims_eq (subs : List Sub) : collectDims (data ++ subs.map Prod.snd) (subs.map Prod.fst) =
    let s := (subs.zipIdx data.length).foldl (fun s p => addDim (data ++ subs.map Prod.snd) s p.1.1 p.2)
      ⟨fun _ => [], 0, false, []⟩
    { s with needsMerging := s.needsMerging || s.subgroupCount > 1 } := by
  have hd : (data ++ subs.map Prod.snd).length - (subs.map Prod.fst).length = data.length := by simp
  rw [collectDims, hd, zipIdx_map_fst', List.foldl_map]

theorem collectDims_typeToDims : (collectDims (data ++ subs.map Prod.snd) (subs.map Prod.fst)).typeToDims =
    typeDims (subs.zipIdx data.length) := by
  funext type
  rw [collectDims_eq]
  exact foldl_typeToDims (fun _ => getD_of_mem_zipIdx) _

theorem collectDims_removedDims : (collectDims (data ++ subs.map Prod.snd) (subs.map Prod.fst)).removedDims =
    trivialDims (subs.zipIdx data.length) := by
  rw [collectDims_eq]
  exact foldl_removedDims (fun _ => getD_of_mem_zipIdx) _

theorem collectDims_needsMerging
    (h : (collectDims (data ++ subs.map Prod.snd) (subs.map Prod.fst)).needsMerging = false) :
    subs.length ≤ 1 ∧ ∀ p ∈ subs, p.2 ≠ 1 := by
  rw [collectDims_eq] at h
  obtain ⟨hm, hc⟩ := Bool.or_eq_false_iff.mp h
  obtain ⟨_, ht, hn⟩ := foldl_needsMerging (fun _ => getD_of_mem_zipIdx) _ hm
  rw [hn] at hc
  simp only [List.length_zipIdx, decide_eq_false_iff_not] at hc
  refine ⟨by omega, fun p hp => ?_⟩
  obtain ⟨q, hq, rfl⟩ := List.mem_map.mp ((List.zipIdx_map_fst data.length subs).symm ▸ hp)
  exact ht q hq

section Merge

-- The sizes do not depend on the positions.
theorem sizesOf_eq (n : Nat) : sizesOf subs type =
    ((subs.zipIdx n).filter fun p => p.1.1 = type ∧ p.1.2 ≠ 1).map (·.1.2) := by
  have hs : sizesOf subs type = (((subs.zipIdx n).map Prod.fst).filter
      (fun p : Sub => p.1 = type ∧ p.2 ≠ 1)).map Prod.snd := by
    rw [List.zipIdx_map_fst, sizesOf, List.filter_filter]
    simp
  rw [hs, List.filter_map, List.map_map]
  rfl

theorem map_typeDims : (typeDims (subs.zipIdx data.length) type).map ((data ++ subs.map Prod.snd).getD · 0) =
    sizesOf subs type := by
  rw [sizesOf_eq data.length, typeDims, List.map_map]
  apply List.map_congr_left
  intro p hp
  exact getD_of_mem_zipIdx (List.mem_of_mem_filter hp)

theorem typeDims_eq_nil : typeDims (subs.zipIdx data.length) type = [] ↔ sizesOf subs type = [] := by
  rw [← map_typeDims, List.map_eq_nil_iff]

theorem foldl_mergeType (m : Merged) (types : List SubgroupType) :
    types.foldl (mergeType (data ++ subs.map Prod.snd) (typeDims (subs.zipIdx data.length))) m = {
      perm            := m.perm ++ types.flatMap (typeDims (subs.zipIdx data.length))
      mergedShape     := m.mergedShape ++ (types.filter (sizesOf subs · ≠ [])).map fun type => (sizesOf subs type).prod
      transposedShape := m.transposedShape ++ types.flatMap (sizesOf subs)
      mergedTypes     := m.mergedTypes ++ types.filter (sizesOf subs · ≠ [])
    } := by
  induction types generalizing m
  case nil => simp
  case cons type types hi =>
    rw [List.foldl_cons, hi, mergeType]
    simp only [map_typeDims]
    by_cases h : typeDims (subs.zipIdx data.length) type = []
    case pos => simp [h, typeDims_eq_nil.mp h]
    case neg =>
      have h' := mt typeDims_eq_nil.mpr h
      simp [h, h']

theorem merge_eq : merge (data ++ subs.map Prod.snd) data (typeDims (subs.zipIdx data.length)) = {
      perm            := List.range data.length ++ sortedDims (subs.zipIdx data.length)
      mergedShape     := data ++ (mergedSubs subs).map Prod.snd
      transposedShape := data ++ kOrderedTypes.flatMap (sizesOf subs)
      mergedTypes     := mergedTypes subs
    } := by
  simp only [merge, foldl_mergeType, List.nil_append, mergedSubs, List.map_map]
  rfl

end Merge

end Sharding.HloSharding.Subgroups

namespace Sharding.HloSharding.Subgroups

open View
open CanonicalizeIotaDims (prod_filter_ne_one)
open OpSharding (SubgroupType)

variable {data : List Nat} {subs subs' : List Sub} {type : SubgroupType} {a b : Array Int}

theorem flatMap_filter_perm [DecidableEq κ] {f : α → κ} {ks : List κ} (hn : ks.Nodup) (xs : List α) :
    (ks.flatMap fun k => xs.filter (f · = k)).Perm (xs.filter (f · ∈ ks)) := by
  induction ks
  case nil => simp
  case cons k ks hi =>
    rw [List.nodup_cons] at hn
    have hp := List.filter_append_perm (f · = k) (xs.filter (f · ∈ k :: ks))
    rw [List.filter_filter, List.filter_filter] at hp
    refine .trans (.append (.of_eq ?same) ((hi hn.2).trans (.of_eq ?others))) hp
    case same => exact List.filter_congr fun x _ => by simp +contextual
    case others =>
      refine List.filter_congr fun x _ => ?_
      have : f x ∈ ks → f x ≠ k := fun h he => hn.1 (he ▸ h)
      by_cases hm : f x ∈ ks <;> simp_all

theorem mem_kOrderedTypes (type : SubgroupType) : type ∈ kOrderedTypes := by
  cases type <;> decide

theorem kOrderedTypes_nodup : kOrderedTypes.Nodup := by
  decide

section Perm

theorem sortedDims_perm (l : List (Sub × Nat)) :
    (sortedDims l).Perm ((l.filter fun p => p.1.2 ≠ 1).map Prod.snd) := by
  have hp := flatMap_filter_perm (f := fun p : Sub × Nat => p.1.1) kOrderedTypes_nodup (l.filter fun p => p.1.2 ≠ 1)
  simp only [mem_kOrderedTypes, decide_true, List.filter_true] at hp
  have hs : sortedDims l = (kOrderedTypes.flatMap fun type =>
      (l.filter fun p => p.1.2 ≠ 1).filter fun p => p.1.1 = type).map Prod.snd := by
    rw [sortedDims, List.map_flatMap]
    refine List.flatMap_congr fun type _ => ?_
    rw [typeDims, List.filter_filter]
    simp
  rw [hs]
  exact hp.map _

theorem sortedDims_append_perm (subs : List Sub) (n : Nat) :
    (sortedDims (subs.zipIdx n) ++ trivialDims (subs.zipIdx n)).Perm (List.range' n subs.length) := by
  have hp := List.filter_append_perm (fun p : Sub × Nat => p.1.2 ≠ 1) (subs.zipIdx n)
  have hs := ((sortedDims_perm (subs.zipIdx n)).append_right (trivialDims (subs.zipIdx n))).trans
    (.trans (.of_eq ?rest) (hp.map Prod.snd))
  case rest => simp [trivialDims]
  rwa [List.zipIdx_map_snd] at hs

theorem perm_range (data : List Nat) (subs : List Sub) :
    (List.range data.length ++ sortedDims (subs.zipIdx data.length) ++ trivialDims (subs.zipIdx data.length)).Perm
      (List.range (data ++ subs.map Prod.snd).length) := by
  rw [List.append_assoc, List.length_append, List.length_map, List.range_add]
  apply List.Perm.append_left
  rw [← List.range'_eq_map_range]
  exact sortedDims_append_perm ..

end Perm

theorem getD_trivialDims : ∀ d ∈ trivialDims (subs.zipIdx data.length), (data ++ subs.map Prod.snd).getD d 1 = 1 := by
  intro d hd
  obtain ⟨p, hp, rfl⟩ := List.mem_map.mp hd
  obtain ⟨hp, h₁⟩ := List.mem_filter.mp hp
  have hg := getD_of_mem_zipIdx hp
  have h₁ : p.1.2 = 1 := by simpa using h₁
  rw [h₁, List.getD_eq_getElem?_getD] at hg
  rw [List.getD_eq_getElem?_getD]
  cases hv : (data ++ subs.map Prod.snd)[p.2]?
  case none   => rfl
  case some s => simpa [hv] using hg

section Axes

-- The axes of the subgroup dimensions with their types.
def axes : List Sub → List (SubgroupType × Axis)
  | []        => []
  | p :: subs => (p.1, ⟨p.2, (subs.map Prod.snd).prod⟩) :: axes subs

theorem axes_eq_map (data : List Nat) (subs : List Sub) :
    (subs.zipIdx data.length).map (fun p => (p.1.1, axis (data ++ subs.map Prod.snd) p.2)) = axes subs := by
  induction subs generalizing data
  case nil => rfl
  case cons p subs hi =>
    have hd : data ++ (p :: subs).map Prod.snd = (data ++ [p.2]) ++ subs.map Prod.snd := by simp
    have hs := hi (data ++ [p.2])
    rw [List.length_append, List.length_singleton] at hs
    rw [List.zipIdx_cons, List.map_cons, axes, ← hs, ← hd, List.map_cons, axis_append]

theorem axes_filter (subs : List Sub) : axes (subs.filter (·.2 ≠ 1)) = (axes subs).filter (·.2.size ≠ 1) := by
  induction subs
  case nil => rfl
  case cons p subs hi =>
    have hp : ((subs.filter (·.2 ≠ 1)).map Prod.snd).prod = (subs.map Prod.snd).prod := by
      rw [← prod_filter_ne_one (subs.map Prod.snd), List.filter_map]
      rfl
    by_cases h : p.2 = 1
    case pos =>
      rw [List.filter_cons_of_neg (by simpa using h), hi, axes, List.filter_cons_of_neg (by simpa using h)]
    case neg =>
      rw [List.filter_cons_of_pos (by simpa using h), axes, hp, hi, axes, List.filter_cons_of_pos (by simpa using h)]

def typeAxes (subs : List Sub) (type : SubgroupType) : View :=
  ((axes (subs.filter (·.2 ≠ 1))).filter (·.1 = type)).map Prod.snd

theorem permuted_typeDims : permuted (data ++ subs.map Prod.snd) (typeDims (subs.zipIdx data.length) type) =
    typeAxes subs type := by
  have hf : (subs.zipIdx data.length).filter (fun p => p.1.1 = type ∧ p.1.2 ≠ 1) = (subs.zipIdx data.length).filter
      ((fun q : SubgroupType × Axis => q.1 = type ∧ q.2.size ≠ 1) ∘
        fun p => (p.1.1, axis (data ++ subs.map Prod.snd) p.2)) := by
    refine List.filter_congr fun p hp => ?_
    have hs := getD_of_mem_zipIdx hp
    obtain ⟨hn, hi⟩ := List.mk_mem_zipIdx_iff_le_and_getElem?_sub.mp hp
    have hlt : p.2 < (data ++ subs.map Prod.snd).length := by
      have := (List.getElem?_eq_some_iff.mp hi).1
      rw [List.length_append, List.length_map]
      omega
    rw [List.getD_eq_getElem _ _ hlt] at hs
    rw [Function.comp_apply, axis, List.getD_eq_getElem _ _ hlt, hs]
  rw [typeAxes, axes_filter, List.filter_filter, ← axes_eq_map data, List.filter_map, permuted, typeDims, hf, List.map_map,
    List.map_map]
  simp only [Function.comp_def, Bool.decide_and]

-- The axes of the data dimensions only depend on the number of elements of the subgroup dimensions.
def dataAxes (data : List Nat) (n : Nat) : View :=
  (List.range data.length).map fun d => ⟨data.getD d 1, stride data d * n⟩

def mergedView (data : List Nat) (subs : List Sub) : View :=
  dataAxes data (subs.map Prod.snd).prod ++ kOrderedTypes.flatMap (typeAxes subs)

theorem permuted_sortedDims (data : List Nat) (subs : List Sub) : permuted (data ++ subs.map Prod.snd)
    (List.range data.length ++ sortedDims (subs.zipIdx data.length)) = mergedView data subs := by
  rw [permuted, List.map_append, mergedView]
  congr 1
  · exact List.map_congr_left fun d hd => axis_append_left (List.mem_range.mp hd)
  · rw [sortedDims, List.map_flatMap]
    exact List.flatMap_congr fun type _ => permuted_typeDims

theorem same_mergedView (data : List Nat) (subs : List Sub) : Same (permuted (data ++ subs.map Prod.snd)
    (List.range data.length ++ sortedDims (subs.zipIdx data.length) ++ trivialDims (subs.zipIdx data.length)))
    (mergedView data subs) := by
  rw [permuted, List.map_append, ← permuted, permuted_sortedDims]
  have hs : ∀ v : View, (∀ a ∈ v, a.size = 1) → Same (mergedView data subs ++ v) (mergedView data subs) := by
    intro v hv
    have := Same.append (.refl (mergedView data subs)) (same_ones (v := []) hv)
    rwa [List.append_nil, List.append_nil] at this
  apply hs
  intro a ha
  obtain ⟨d, hd, rfl⟩ := List.mem_map.mp ha
  exact getD_trivialDims d hd

end Axes

-- The array whose subgroup dimensions are merged and sorted by their types.
def mergedArray (data : List Nat) (subs : List Sub) (a : Array Int) : Array Int where
  sizes  := data ++ (mergedSubs subs).map Prod.snd
  values := (offsets (mergedView data subs)).map (a.values.getD · 0)

-- Dimensions of size one do not affect the merged array.
theorem sizesOf_congr (h : subs.filter (·.2 ≠ 1) = subs'.filter (·.2 ≠ 1)) : sizesOf subs = sizesOf subs' := by
  funext type
  rw [sizesOf, h, sizesOf]

theorem mergedTypes_congr (h : subs.filter (·.2 ≠ 1) = subs'.filter (·.2 ≠ 1)) : mergedTypes subs = mergedTypes subs' := by
  rw [mergedTypes, sizesOf_congr h, mergedTypes]

theorem mergedSubs_congr (h : subs.filter (·.2 ≠ 1) = subs'.filter (·.2 ≠ 1)) : mergedSubs subs = mergedSubs subs' := by
  rw [mergedSubs, mergedTypes_congr h, sizesOf_congr h, mergedSubs]

theorem prod_filter_subs (subs : List Sub) : (subs.map Prod.snd).prod = ((subs.filter (·.2 ≠ 1)).map Prod.snd).prod := by
  rw [← prod_filter_ne_one (subs.map Prod.snd), List.filter_map]
  rfl

theorem mergedArray_congr (h : subs.filter (·.2 ≠ 1) = subs'.filter (·.2 ≠ 1)) (hv : a.values = b.values) :
    mergedArray data subs a = mergedArray data subs' b := by
  have hp : (subs.map Prod.snd).prod = (subs'.map Prod.snd).prod := by
    rw [prod_filter_subs, h, ← prod_filter_subs]
  have ht : typeAxes subs = typeAxes subs' := by
    funext type
    rw [typeAxes, h, typeAxes]
  rw [mergedArray, mergedArray, mergedSubs_congr h, mergedView, mergedView, hp, ht, hv]

section Sizes

theorem map_size_typeAxes : (typeAxes subs type).map Axis.size = sizesOf subs type := by
  have ha (subs : List Sub) : (axes subs).map (fun q => (q.1, q.2.size)) = subs := by
    induction subs
    case nil             => rfl
    case cons p subs hi => rw [axes, List.map_cons, hi]
  conv_rhs => rw [sizesOf, ← ha (subs.filter _), List.filter_map, List.map_map]
  rw [typeAxes, List.map_map]
  rfl

theorem prod_filter_types (types : List SubgroupType) :
    ((types.filter (sizesOf subs · ≠ [])).map fun type => (sizesOf subs type).prod).prod =
      (types.flatMap (sizesOf subs)).prod := by
  induction types
  case nil => rfl
  case cons type types hi =>
    rw [List.flatMap_cons, List.prod_append, ← hi, List.filter_cons]
    by_cases h : sizesOf subs type = [] <;> simp [h]

theorem numElements_mergedView (data : List Nat) (subs : List Sub) :
    numElements (mergedView data subs) = (data ++ subs.map Prod.snd).prod := by
  rw [← (same_mergedView data subs).numElements, numElements_permuted (perm_range data subs)]

theorem map_size_mergedView (data : List Nat) (subs : List Sub) :
    (mergedView data subs).map Axis.size = data ++ kOrderedTypes.flatMap (sizesOf subs) := by
  have hd : (dataAxes data (subs.map Prod.snd).prod).map Axis.size = data := by
    rw [dataAxes, List.map_map]
    exact map_getD_range data 1
  rw [mergedView, List.map_append, hd, List.map_flatMap]
  simp only [map_size_typeAxes]

theorem prod_mergedSizes (data : List Nat) (subs : List Sub) :
    (data ++ (mergedSubs subs).map Prod.snd).prod = (data ++ subs.map Prod.snd).prod := by
  have hm : ((mergedSubs subs).map Prod.snd).prod = (kOrderedTypes.flatMap (sizesOf subs)).prod := by
    rw [← prod_filter_types, mergedSubs, mergedTypes, List.map_map]
    rfl
  rw [← numElements_mergedView data subs, numElements, map_size_mergedView, List.prod_append, List.prod_append, hm]

theorem mergedArray_valid (data : List Nat) (subs : List Sub) (a : Array Int) : (mergedArray data subs a).Valid where
  length_values := by rw [mergedArray, List.length_map, offsets, List.length_map, List.length_range,
    numElements_mergedView, prod_mergedSizes]

theorem offsets_mergedView_perm (data : List Nat) (subs : List Sub) :
    (offsets (mergedView data subs)).Perm (List.range (data ++ subs.map Prod.snd).prod) := by
  rw [← offsets_congr (same_mergedView data subs)]
  exact offsets_permuted_perm (perm_range data subs)

end Sizes

-- A transposition that moves the trivial dimensions to the end gathers the values of the merged array.
theorem values_of_gathers (hv : a.Valid) (hs : a.sizes = data ++ subs.map Prod.snd)
    (hg : a.Gathers (List.range data.length ++ sortedDims (subs.zipIdx data.length) ++
      trivialDims (subs.zipIdx data.length)) b) :
    b.values = (mergedArray data subs a).values := by
  have hp : (List.range data.length ++ sortedDims (subs.zipIdx data.length) ++
      trivialDims (subs.zipIdx data.length)).Perm (List.range a.sizes.length) := hs ▸ perm_range data subs
  have hn : numElements (mergedView data subs) = a.sizes.prod := hs ▸ numElements_mergedView data subs
  have hl : b.values.length = a.sizes.prod := by
    rw [hg.valid.length_values, hg.sizes, Array.prod_map_dim hp]
  refine List.ext_getElem? fun k => ?_
  by_cases hk : k < a.sizes.prod
  case neg =>
    rw [List.getElem?_eq_none (by omega), List.getElem?_eq_none]
    simp only [mergedArray, offsets, List.length_map, List.length_range]
    omega
  case pos =>
    have hlt := hv.length_values ▸ offset_permuted_lt hp hk
    have ho := (same_mergedView data subs).offset k
    rw [← hs] at ho
    rw [hg.values k hk]
    rw [ho (by rwa [numElements_permuted hp])] at hlt ⊢
    simp [mergedArray, offsets, hn, hk, hlt]

end Sharding.HloSharding.Subgroups
