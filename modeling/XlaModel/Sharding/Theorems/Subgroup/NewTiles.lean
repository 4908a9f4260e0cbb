import XlaModel.Sharding.Theorems.Subgroup.MergedArray
import XlaModel.Sharding.Theorems.Transpose.Collect
import XlaModel.Sharding.Theorems.PartialTile.HloSharding
import XlaModel.Sharding.Theorems.Transpose.TileAssignment
import XlaModel.Sharding.Theorems.ValueAt

namespace Sharding

namespace GetTransposeKind

variable {dims perm : List Nat} {prev : Int} {kind : TransposeKind} {i : Nat}

theorem loop_ne_transpose (hk : kind ≠ .transpose) (hp : (perm.filter (dims.getD · 0 ≠ 1)).Pairwise (· < ·))
    (hl : ∀ d ∈ perm, dims.getD d 0 ≠ 1 → prev < d) : loop dims perm i prev kind ≠ .transpose := by
  induction perm generalizing i prev kind
  case nil => simpa [loop]
  case cons d perm hi =>
    rw [loop]
    by_cases h₁ : dims.getD d 0 = 1
    case pos =>
      rw [if_pos h₁]
      rw [List.filter_cons_of_neg (by simpa using h₁)] at hp
      refine hi ?_ hp fun e he => hl e (.tail _ he)
      split_ifs <;> simp [hk]
    case neg =>
      have := hl d (.head _) h₁
      rw [List.filter_cons_of_pos (by simpa using h₁), List.pairwise_cons] at hp
      rw [if_neg h₁, if_neg (by omega)]
      refine hi hk hp.2 fun e he hn => ?_
      exact Int.ofNat_lt.mpr (hp.1 e (List.mem_filter.mpr ⟨he, by simpa using hn⟩))

end GetTransposeKind

theorem getTransposeKind_eq_transpose {dims perm : List Nat} : getTransposeKind dims perm = .transpose ↔
    ¬(perm.filter (dims.getD · 0 ≠ 1)).Pairwise (· < ·) := by
  constructor
  · intro hk hp
    exact GetTransposeKind.loop_ne_transpose (by decide) hp (fun _ _ _ => by omega) hk
  · intro hp
    by_contra hk
    exact hp (GetTransposeKind.loop_pairwise hk).1

namespace HloSharding.Subgroups

open OpSharding (SubgroupType)

variable {data : List Nat} {subs subs' : List Sub}

-- The types of the dimensions that are not of size one are sorted.
def Sorted (subs : List Sub) : Prop :=
  (subs.filter (·.2 ≠ 1)).Pairwise fun p q => kOrderedTypes.idxOf p.1 ≤ kOrderedTypes.idxOf q.1

instance : Decidable (Sorted subs) :=
  inferInstanceAs (Decidable (List.Pairwise _ _))

theorem pairwise_iff_of_increasing {R : α × Nat → α × Nat → Prop} {l : List (α × Nat)} (hl : l.Pairwise (·.2 < ·.2)) :
    l.Pairwise R ↔ ∀ p ∈ l, ∀ q ∈ l, p.2 < q.2 → R p q := by
  induction l
  case nil => simp
  case cons p l hi =>
    rw [List.pairwise_cons] at hl ⊢
    rw [hi hl.2]
    constructor
    · rintro ⟨hp, hR⟩ q hq r hr hlt
      obtain rfl | hq' := List.mem_cons.mp hq <;> obtain rfl | hr' := List.mem_cons.mp hr
      case inl.inl => exact absurd hlt (Nat.lt_irrefl _)
      case inl.inr => exact hp r hr'
      case inr.inl => exact absurd hlt (hl.1 q hq').asymm
      case inr.inr => exact hR q hq' r hr' hlt
    · intro h
      exact ⟨fun q hq => h p (.head _) q (.tail _ hq) (hl.1 q hq), fun q hq r hr => h q (.tail _ hq) r (.tail _ hr)⟩

theorem zipIdx_increasing (subs : List α) (n : Nat) : (subs.zipIdx n).Pairwise (·.2 < ·.2) := by
  have h : ((subs.zipIdx n).map Prod.snd).Pairwise (· < ·) := by
    rw [List.zipIdx_map_snd]
    exact List.pairwise_lt_range'
  exact List.pairwise_map.mp h

theorem sorted_iff (n : Nat) : Sorted subs ↔ ∀ p ∈ (subs.zipIdx n).filter (·.1.2 ≠ 1),
    ∀ q ∈ (subs.zipIdx n).filter (·.1.2 ≠ 1), p.2 < q.2 → kOrderedTypes.idxOf p.1.1 ≤ kOrderedTypes.idxOf q.1.1 := by
  have hm : ((subs.zipIdx n).filter (·.1.2 ≠ 1)).map Prod.fst = subs.filter (·.2 ≠ 1) := by
    conv_rhs => rw [← List.zipIdx_map_fst n subs, List.filter_map]
    rfl
  rw [Sorted, ← hm, List.pairwise_map, pairwise_iff_of_increasing ((zipIdx_increasing subs n).filter _)]

theorem pairwise_idxOf {ks : List κ} [DecidableEq κ] (hn : ks.Nodup) :
    ks.Pairwise fun k k' => ks.idxOf k < ks.idxOf k' := by
  rw [List.pairwise_iff_getElem]
  intro i j hi hj hij
  rwa [hn.idxOf_getElem i hi, hn.idxOf_getElem j hj]

theorem sortedDims_pairwise (n : Nat) : (sortedDims (subs.zipIdx n)).Pairwise (· < ·) ↔ Sorted subs := by
  rw [sorted_iff n, sortedDims, List.pairwise_flatMap]
  have hmem (p : Sub × Nat) (type : SubgroupType) :
      p ∈ (subs.zipIdx n).filter (fun p => p.1.1 = type ∧ p.1.2 ≠ 1) ↔
        p ∈ (subs.zipIdx n).filter (·.1.2 ≠ 1) ∧ p.1.1 = type := by
    simp only [List.mem_filter, decide_eq_true_eq]
    tauto
  constructor
  · rintro ⟨_, hp⟩ p hp' q hq' hlt
    by_contra hn
    rw [Nat.not_le] at hn
    have hpq := (List.pairwise_iff_getElem.mp hp) (kOrderedTypes.idxOf q.1.1) (kOrderedTypes.idxOf p.1.1)
      (List.idxOf_lt_length_of_mem (mem_kOrderedTypes _)) (List.idxOf_lt_length_of_mem (mem_kOrderedTypes _)) hn
    rw [List.getElem_idxOf, List.getElem_idxOf] at hpq
    have := hpq q.2 (List.mem_map_of_mem ((hmem q _).mpr ⟨hq', rfl⟩)) p.2
      (List.mem_map_of_mem ((hmem p _).mpr ⟨hp', rfl⟩))
    omega
  · intro h
    refine ⟨fun type _ => ?_, (pairwise_idxOf kOrderedTypes_nodup).imp fun {type type'} hlt x hx y hy => ?_⟩
    · exact List.pairwise_map.mpr ((zipIdx_increasing subs n).filter _)
    · obtain ⟨p, hp, rfl⟩ := List.mem_map.mp hx
      obtain ⟨q, hq, rfl⟩ := List.mem_map.mp hy
      obtain ⟨hp', rfl⟩ := (hmem p _).mp hp
      obtain ⟨hq', rfl⟩ := (hmem q _).mp hq
      by_contra hn
      obtain hn | hn := Nat.lt_or_eq_of_le (Nat.not_lt.mp hn)
      case inl => exact absurd (h q hq' p hp' hn) (Nat.not_le.mpr hlt)
      case inr =>
        have hi := (List.mk_mem_zipIdx_iff_le_and_getElem?_sub.mp (List.mem_of_mem_filter hp)).2
        have hi' := (List.mk_mem_zipIdx_iff_le_and_getElem?_sub.mp (List.mem_of_mem_filter hq)).2
        rw [← hn, hi', Option.some_inj] at hi
        exact absurd hlt (by rw [hi]; exact Nat.lt_irrefl _)

-- The dimensions are transposed if and only if their types are not sorted.
theorem getTransposeKind_iff : getTransposeKind (data ++ subs.map Prod.snd)
    (List.range data.length ++ sortedDims (subs.zipIdx data.length) ++ trivialDims (subs.zipIdx data.length)) =
      .transpose ↔ ¬Sorted subs := by
  have hmem : ∀ d ∈ sortedDims (subs.zipIdx data.length),
      data.length ≤ d ∧ (data ++ subs.map Prod.snd).getD d 0 ≠ 1 := by
    intro d hd
    obtain ⟨p, hp, rfl⟩ := List.mem_map.mp ((sortedDims_perm _).mem_iff.mp hd)
    obtain ⟨hp, h₁⟩ := List.mem_filter.mp hp
    rw [getD_of_mem_zipIdx hp]
    exact ⟨(List.mk_mem_zipIdx_iff_le_and_getElem?_sub.mp hp).1, by simpa using h₁⟩
  have hs : (sortedDims (subs.zipIdx data.length)).filter ((data ++ subs.map Prod.snd).getD · 0 ≠ 1) =
      sortedDims (subs.zipIdx data.length) :=
    List.filter_eq_self.mpr fun d hd => decide_eq_true (hmem d hd).2
  have ht : (trivialDims (subs.zipIdx data.length)).filter ((data ++ subs.map Prod.snd).getD · 0 ≠ 1) = [] := by
    refine List.filter_eq_nil_iff.mpr fun d hd => ?_
    obtain ⟨p, hp, rfl⟩ := List.mem_map.mp hd
    obtain ⟨hp, h₁⟩ := List.mem_filter.mp hp
    rw [getD_of_mem_zipIdx hp]
    simpa using h₁
  rw [getTransposeKind_eq_transpose, ← sortedDims_pairwise data.length, not_iff_not, List.filter_append,
    List.filter_append, hs, ht, List.append_nil, List.pairwise_append]
  refine ⟨fun h => h.2.1, fun h => ⟨List.pairwise_lt_range.filter _, h, fun d hd e he => ?_⟩⟩
  have := List.mem_range.mp (List.mem_of_mem_filter hd)
  have := (hmem e he).1
  omega

end HloSharding.Subgroups
end Sharding

namespace Sharding

open Fallible View RowMajor

-- If the iota form can not be transposed, then its elements are looked up.
structure IotaTileAssignment.Rearrangeable (t : IotaTileAssignment) : Prop where
  factors : t.reshapeDims.length = 1 ∨ t.dims.filter (· ≠ 1) = t.transposePerm.map (t.reshapeDims.getD · 0) ∨
    ¬FullyDecanonicalize.Overflows t.reshapeDims
  lookup  : Transpose.Interleaves (t.dims.filter (· ≠ 1)) (t.transposePerm.map (t.reshapeDims.getD · 0)) ∨
    IotaTileAssignment.FitsInt t.view

namespace TileAssignment

variable {t : TileAssignment} {iota : IotaTileAssignment} {a : Array Int} {index : List Nat}

theorem Holds.valueAt (h : t.Holds iota) (hc : iota.Canonical) (hd : iota.dims ≠ [])
    (hf : IotaTileAssignment.FitsInt iota.view) (hb : InBounds iota.dims index) :
    t.valueAt index = (deviceArray iota.dims iota.view).get index := by
  rw [TileAssignment.valueAt]
  cases ha : t.array_
  case some a =>
    obtain rfl := hc.eq_deviceArray (h.cached a ha)
    rfl
  case none =>
    simp only [h.iota_eq, Option.bind_eq_bind, Option.bind_some]
    rw [IotaTileAssignment.valueAt_of_fits hc hd hf hb, IotaTileAssignment.get_deviceArray hb]

end TileAssignment

namespace HloSharding.Subgroups

open OpSharding (SubgroupType)

variable {t : TileAssignment} {data : List Nat} {subs : List Sub} {a : Array Int} {n : Nat}

theorem mapM_congr {f g : α → Option β} {xs : List α} (h : ∀ x ∈ xs, f x = g x) : xs.mapM f = xs.mapM g := by
  induction xs
  case nil          => rfl
  case cons x xs hi => rw [List.mapM_cons, List.mapM_cons, h x (.head _), hi fun y hy => h y (.tail _ hy)]

theorem foldl_set (perm : List Nat) (x : Nat → Nat) (ys : List Nat) :
    (perm.zip (perm.map x)).foldl (fun ys (dim, i) => ys.set dim i) ys =
      (List.range ys.length).map fun d => if d ∈ perm then x d else ys.getD d 0 := by
  induction perm generalizing ys
  case nil => simpa using (map_getD_range ys 0).symm
  case cons d perm hi =>
    rw [List.map_cons, List.zip_cons_cons, List.foldl_cons, hi, List.length_set]
    refine List.map_congr_left fun e he => ?_
    have he := List.mem_range.mp he
    by_cases hp : e ∈ perm
    case pos => simp [hp]
    case neg =>
      obtain rfl | hne := eq_or_ne d e
      case inl => simp [hp, he]
      case inr => simp [hp, hne, hne.symm]

theorem srcIndices_eq {perm : List Nat} {x : Nat → Nat} (h : ∀ d < n, d ∉ perm → x d = 0) :
    srcIndices n perm (perm.map x) = (List.range n).map x := by
  rw [srcIndices, foldl_set, List.length_replicate]
  refine List.map_congr_left fun d hd => ?_
  by_cases hp : d ∈ perm
  case pos => rw [if_pos hp]
  case neg => simp [hp, h d (List.mem_range.mp hd) hp]

-- The digits of a position in the permuted array. The dimensions at the end are of size one.
theorem exists_digits_of_trivial {dims perm trivial : List Nat} {k : Nat}
    (hp : (perm ++ trivial).Perm (List.range dims.length)) (ht : ∀ d ∈ trivial, dims.getD d 1 = 1) (hk : k < dims.prod) :
    ∃ x : Nat → Nat, InBounds dims ((List.range dims.length).map x) ∧ digits (perm.map (dims.getD · 1)) k = perm.map x ∧
      (∀ d < dims.length, dims.getD d 1 = 1 → x d = 0) ∧
      ravel dims ((List.range dims.length).map x) = offset (permuted dims (perm ++ trivial)) k := by
  obtain ⟨x, hx⟩ := exists_digits hp hk
  refine ⟨x, hx.inBounds, ?nontrivial, ?ones, (hx.offset hp).symm⟩
  case nontrivial =>
    have h₁ : (trivial.map (dims.getD · 1)).prod = 1 := by
      rw [List.map_congr_left ht]
      simp
    have hk' : k < (perm.map (dims.getD · 1) ++ trivial.map (dims.getD · 1)).prod := by
      rwa [← List.map_append, (hp.map _).prod_eq, map_getD_range]
    have hd := hx.digits
    rw [List.map_append, List.map_append, digits_append hk', h₁, Nat.div_one] at hd
    exact (List.append_inj hd (by simp)).1
  case ones =>
    intro d hd h₁
    have := hx.lt hd
    omega

-- The index in the source of an element of the transposed array.
theorem srcIndices_digits {dims perm trivial : List Nat} {k : Nat} (hp : (perm ++ trivial).Perm (List.range dims.length))
    (ht : ∀ d ∈ trivial, dims.getD d 1 = 1) (hk : k < dims.prod) :
    srcIndices dims.length perm (digits (perm.map (dims.getD · 1)) k) =
      digits dims (offset (permuted dims (perm ++ trivial)) k) := by
  obtain ⟨x, hb, hd, h₀, hr⟩ := exists_digits_of_trivial hp ht hk
  rw [hd, ← hr, hb.digits_ravel]
  apply srcIndices_eq
  intro d hd hn
  have hmem := List.mem_append.mp (hp.mem_iff.mpr (List.mem_range.mpr hd))
  exact h₀ d hd (ht d (hmem.resolve_left hn))

theorem mergedSizes_eq (data : List Nat) (subs : List Sub) : data ++ kOrderedTypes.flatMap (sizesOf subs) =
    (List.range data.length ++ sortedDims (subs.zipIdx data.length)).map ((data ++ subs.map Prod.snd).getD · 1) := by
  rw [← map_size_mergedView, ← permuted_sortedDims, permuted, List.map_map]
  rfl

-- The values are looked up in the order of the merged array.
theorem newTiles_eq (t : TileAssignment) (data : List Nat) (subs : List Sub) :
    newTiles t (data ++ subs.map Prod.snd).length
        (merge (data ++ subs.map Prod.snd) data (typeDims (subs.zipIdx data.length))) =
      ((offsets (mergedView data subs)).mapM fun j => t.valueAt (digits (data ++ subs.map Prod.snd) j)).map
        fun values => .ofArray ⟨data ++ (mergedSubs subs).map Prod.snd, values⟩ := by
  have hp := perm_range data subs
  have hN : (data ++ kOrderedTypes.flatMap (sizesOf subs)).prod = (data ++ subs.map Prod.snd).prod := by
    rw [← map_size_mergedView]
    exact numElements_mergedView data subs
  have he : (Array.iota (data ++ kOrderedTypes.flatMap (sizesOf subs)) 0).each.map Prod.fst =
      (List.range (data ++ subs.map Prod.snd).prod).map (digits (data ++ kOrderedTypes.flatMap (sizesOf subs))) := by
    rw [(iota_valid _).each_eq]
    refine List.ext_getElem (by simp only [Array.iota, List.length_map, List.length_mapIdx, List.length_range, hN])
      fun k h₁ h₂ => ?_
    simp only [List.getElem_map, List.getElem_mapIdx, List.getElem_range]
    rfl
  have hm : ((List.range (data ++ subs.map Prod.snd).prod).map
      (digits (data ++ kOrderedTypes.flatMap (sizesOf subs)))).mapM (fun indices => t.valueAt
        (srcIndices (data ++ subs.map Prod.snd).length (List.range data.length ++ sortedDims (subs.zipIdx data.length))
          indices)) =
      (offsets (mergedView data subs)).mapM fun j => t.valueAt (digits (data ++ subs.map Prod.snd) j) := by
    rw [offsets, numElements_mergedView, List.mapM_map, List.mapM_map]
    refine mapM_congr fun k hk => ?_
    have hk := List.mem_range.mp hk
    have ho := (same_mergedView data subs).offset k (by rwa [numElements_permuted hp])
    rw [Function.comp_apply, Function.comp_apply, mergedSizes_eq, srcIndices_digits hp getD_trivialDims hk, ho]
  have hr {values : List Int}
      (hv : (offsets (mergedView data subs)).mapM (fun j => t.valueAt (digits (data ++ subs.map Prod.snd) j)) = some values) :
      (⟨data ++ kOrderedTypes.flatMap (sizesOf subs), values⟩ : Array Int).reshape
        (data ++ (mergedSubs subs).map Prod.snd) = some ⟨data ++ (mergedSubs subs).map Prod.snd, values⟩ := by
    have hl := List.Forall₂.length_eq (mapM_eq_some.mp hv)
    rw [offsets, List.length_map, List.length_range, numElements_mergedView, ← prod_mergedSizes] at hl
    exact if_pos hl
  rw [newTiles, merge_eq]
  simp only [he, hm]
  cases hv : (offsets (mergedView data subs)).mapM fun j => t.valueAt (digits (data ++ subs.map Prod.snd) j)
  case none        => rfl
  case some values =>
    simp only [Option.bind_eq_bind, Option.bind_some, hr hv]
    rfl

theorem newTiles_of_valueAt (hA : a.Valid) (hs : a.sizes = data ++ subs.map Prod.snd)
    (hv : ∀ index, InBounds a.sizes index → t.valueAt index = a.get index) :
    newTiles t a.sizes.length (merge (data ++ subs.map Prod.snd) data (typeDims (subs.zipIdx data.length))) =
      some (.ofArray (mergedArray data subs a)) := by
  have hm : (offsets (mergedView data subs)).mapM (fun j => t.valueAt (digits (data ++ subs.map Prod.snd) j)) =
      some (mergedArray data subs a).values := by
    rw [mapM_eq_some, mergedArray, List.forall₂_map_right_iff, List.forall₂_same]
    intro j hj
    have hj := List.mem_range.mp ((offsets_mergedView_perm data subs).mem_iff.mp hj)
    rw [← hs] at hj ⊢
    have hb := digits_inBounds hj
    have hc : a.calculateIndex (digits a.sizes j) = ravel a.sizes (digits a.sizes j) := Array.calculateIndex_eq_ravel hb
    have hl := hA.length_values ▸ hj
    rw [hv _ hb, Array.get, hc, ravel_digits hj, List.getD_eq_getElem _ _ hl, List.getElem?_eq_getElem hl]
  rw [hs, newTiles_eq, hm]
  rfl

section NewTileAssignment

variable {iota transposed : IotaTileAssignment}

theorem denotes_transposed (hs : iota.dims = data ++ subs.map Prod.snd)
    (ht : iota.Transposed (List.range data.length ++ sortedDims (subs.zipIdx data.length) ++
      trivialDims (subs.zipIdx data.length)) transposed) :
    ∃ iota', IotaTileAssignment.create (data ++ (mergedSubs subs).map Prod.snd) transposed.reshapeDims
      transposed.transposePerm = some iota' ∧
      (TileAssignment.ofIota iota').Denotes (mergedArray data subs (deviceArray iota.dims iota.view)) := by
  have hp := hs ▸ perm_range data subs
  have hv := values_of_gathers ⟨by simp [deviceArray]⟩ hs (ht.gathers hp)
  have hpr : (data ++ (mergedSubs subs).map Prod.snd).prod = transposed.dims.prod := by
    rw [prod_mergedSizes, ← hs, ht.dims, IotaTileAssignment.prod_map_getD hp]
  have hC := ht.canonical.describes
  have hd : Describes (data ++ (mergedSubs subs).map Prod.snd) transposed.reshapeDims transposed.transposePerm :=
    ⟨pos_of_prod_pos (hpr ▸ hC.dims_prod_pos), hC.reshape_pos, hC.perm, hC.prod.trans hpr.symm⟩
  obtain ⟨iota', hcr, hdims, hC', hS⟩ := IotaTileAssignment.create_spec hd ht.canonical.ne_nil
  have hn : numElements iota'.view = (data ++ (mergedSubs subs).map Prod.snd).prod :=
    hdims ▸ hC'.describes.numElements_eq
  refine ⟨iota', hcr, .iota (.transform hd hcr) (TileAssignment.holds_ofIota _) ?_⟩
  rw [hC'.toArray_eq, hdims, deviceArray_congr hS hn]
  refine congrArg some (Array.ext rfl (Eq.trans ?_ hv))
  rw [deviceArray, deviceArray, hpr]
  rfl

-- The types are sorted, or the iota form can be rearranged.
def Rearranges (t : TileAssignment) (subs : List Sub) : Prop :=
  Sorted subs ∨ ∀ iota, t.iota = some iota → iota.Rearrangeable

theorem newTileAssignment_spec (h : t.Denotes a) (hs : a.sizes = data ++ subs.map Prod.snd) (hr : Rearranges t subs) :
    ∃ t', newTileAssignment t a.sizes.length (merge (data ++ subs.map Prod.snd) data
      (typeDims (subs.zipIdx data.length))) (trivialDims (subs.zipIdx data.length)) = some t' ∧
      t'.Denotes (mergedArray data subs a) := by
  have hA := h.hasArray.valid
  have hM := TileAssignment.Denotes.explicit (t := .ofArray (mergedArray data subs a)) rfl (mergedArray_valid data subs a)
  cases h
  case explicit ht _ =>
    subst ht
    refine ⟨_, ?_, hM⟩
    exact newTiles_of_valueAt hA hs fun _ _ => rfl
  case iota iota hc ht ha =>
    have hC := hc.canonical
    obtain rfl := hC.eq_deviceArray ha
    have hs : iota.dims = data ++ subs.map Prod.snd := hs
    have hp := hs ▸ perm_range data subs
    have hk : getTransposeKind iota.dims _ = .transpose ↔ ¬Sorted subs := hs ▸ getTransposeKind_iff
    have hR : ¬Sorted subs → iota.Rearrangeable := fun hn => hr.resolve_left hn iota ht.iota_eq
    have ho : ¬iota.DecanonicalizationOverflows (List.range data.length ++ sortedDims (subs.zipIdx data.length) ++
        trivialDims (subs.zipIdx data.length)) := by
      intro ho
      have hf := (hR (hk.mp ho.transpose)).factors
      exact hf.elim ho.not_iota fun hf => hf.elim ho.not_pure fun hf => hf ho.overflows
    obtain ⟨r, htr, hT, hI⟩ := iota.transpose_spec hC hp ho
    rw [newTileAssignment, ht.iota_eq]
    simp only [merge_eq, htr, Option.bind_eq_bind, Option.bind_some]
    cases r
    case some transposed =>
      obtain ⟨iota', hcr, hD⟩ := denotes_transposed hs (hT _ rfl)
      exact ⟨_, by simp only [hcr]; rfl, hD⟩
    case none =>
      simp only [Option.isSome_none, Bool.false_eq_true, false_iff, Classical.not_imp] at hI
      have hl := (hR (hk.mp hI.1)).lookup.resolve_left hI.2
      have hd : iota.dims ≠ [] := by
        intro hn
        rw [hn] at hI
        obtain rfl : subs = [] := by
          rw [hn] at hs
          exact List.map_eq_nil_iff.mp (List.append_eq_nil_iff.mp hs.symm).2
        exact hk.mp (hn ▸ hI.1) .nil
      have hN := newTiles_of_valueAt hA hs fun index hb => ht.valueAt hC hd hl hb
      rw [merge_eq] at hN
      exact ⟨_, hN, hM⟩

end NewTileAssignment

end HloSharding.Subgroups
end Sharding
