import XlaModel.Lib.Fallible
import XlaModel.Shape.Theorems.AlignLayouts.Layout
import XlaModel.Lib.List

namespace Shape

open View

variable {τ : Type} {s input output : Shape τ} {a b ks : List Nat} {bounds : List (Nat × Nat)} {d i j k n : Nat}

section Order

theorem reverse_flatMap_factorBlock {cut : Nat → Nat} (h : Cuts a n cut) (hk : ∀ k ∈ ks, k < n) :
    (ks.flatMap (factorBlock cut)).reverse = ks.reverse.flatMap (block (slices a n cut)) := by
  rw [List.reverse_flatMap]
  refine List.flatMap_congr fun k hk' => ?_
  rw [Function.comp_apply, factorBlock, List.reverse_reverse, h.block (hk k (List.mem_reverse.mp hk'))]

variable (h : IsFactors a b bounds) (hk : ks.Perm (List.range (numFactors bounds)))
include h hk

theorem flatMap_factorBlock_perm : (ks.flatMap (factorBlock (cutB bounds))).Perm (List.range b.length) := by
  have hp : ks.reverse.Perm (List.range (slices b (numFactors bounds) (cutB bounds)).length) := by
    rw [length_slices]
    exact (List.reverse_perm ks).trans hk
  have hr := flatMap_block_perm hp
  rw [h.cutsB.flatten, ← reverse_flatMap_factorBlock h.cutsB fun k hk' => List.mem_range.mp (hk.mem_iff.mp hk')] at hr
  exact (List.reverse_perm _).symm.trans hr

-- Two arrays whose factors are in the same order in the memory have their elements in the same order.
theorem same_of_order (hp : 0 < a.prod) : Same (permuted a (ks.flatMap (factorBlock (cutA bounds))).reverse)
    (permuted b (ks.flatMap (factorBlock (cutB bounds))).reverse) := by
  have hlt (k) (hk' : k ∈ ks) : k < numFactors bounds := List.mem_range.mp (hk.mem_iff.mp hk')
  have hs (xs cut) : ∀ k ∈ ks.reverse, k < (slices xs (numFactors bounds) cut).length := by
    simpa using hlt
  have hA := same_blocks (hs a (cutA bounds))
  have hB := same_blocks (hs b (cutB bounds))
  rw [h.cutsA.flatten, ← reverse_flatMap_factorBlock h.cutsA hlt, h.map_prod_slices hp] at hA
  rw [h.cutsB.flatten, ← reverse_flatMap_factorBlock h.cutsB hlt] at hB
  exact hA.trans hB.symm

omit hk

theorem le_cutB (hk : k ≤ numFactors bounds) : k ≤ cutB bounds k := by
  induction k
  case zero      => exact Nat.zero_le _
  case succ k hi =>
    have := (h.cut_lt (Nat.lt_add_one k) hk).2
    have := hi (Nat.le_of_succ_le hk)
    omega

end Order

section Complete

theorem view_drop (hd : d < s.rank) : s.view.drop d = ⟨s.dimension d, s.getDimensionStride d⟩ :: s.view.drop (d + 1) := by
  have hd : d < s.view.length := by simpa [view] using hd
  rw [List.drop_eq_getElem_cons hd]
  simp [view]

theorem common_of_drop (hp : a.prod = b.prod) (hpos : 0 < a.prod) (hi : i ≤ a.length) (hj : j ≤ b.length)
    (hd : (a.drop i).prod = (b.drop j).prod) : Common a b i j := by
  refine ⟨hi, hj, ?_⟩
  have ha := List.prod_take_mul_prod_drop a i
  have hb := List.prod_take_mul_prod_drop b j
  rw [← hb, ← ha, ← hd] at hp
  rw [← ha] at hpos
  exact (Nat.mul_left_inj (Nat.pos_of_mul_pos_left hpos).ne').mp hp

-- The factors are aligned if any layout of the output has the elements in the same order.
theorem aligned_of_same (hA : ∀ d ∈ input.dimensions, d ≠ 1) (h : IsFactors input.dimensions output.dimensions bounds)
    (hpos : 0 < input.elementsIn) (hs : Same input.view output.view) : Aligned input.minorToMajor bounds := by
  intro k hk d hd hd'
  by_contra hne
  have hn := hs.numElements
  rw [view_numElements, view_numElements] at hn
  have hA := two_le_of_prod_pos hA (elementsIn_eq ▸ hpos)
  have hle : cutA bounds (k + 1) ≤ input.rank := h.cutsA.le_length hk
  have hdr : d + 1 < input.rank := hd'.trans_le hle
  have hsize {e : Nat} (he : e < input.rank) : input.dimension e ≠ 1 := by
    have := hA _ (List.getElem_mem he)
    rw [dimension, List.getD_eq_getElem _ _ he]
    omega
  have hstride : input.getDimensionStride d ≠ input.dimension (d + 1) * input.getDimensionStride (d + 1) :=
    mt (consecutive_of_stride hdr hA) hne
  rw [← List.take_append_drop d input.view, view_drop (Nat.lt_of_succ_lt hdr), view_drop hdr] at hs
  obtain ⟨w₁, w₂, hw, hn₂⟩ := exists_suffix_of_same hs (by rwa [view_numElements, ← hn])
    (hsize (Nat.lt_of_succ_lt hdr)) (hsize hdr) hstride
  have hdrop : (input.dimensions.drop (d + 1)).prod = (output.dimensions.drop w₁.length).prod := by
    rw [← view_numElements_drop, view_drop hdr, ← hn₂, ← view_numElements_drop, hw, List.drop_left]
  have hlen : w₁.length ≤ output.dimensions.length := by
    have := congrArg List.length hw
    simp [view, rank] at this
    omega
  rw [elementsIn_eq, elementsIn_eq] at hn
  have hc := common_of_drop hn (elementsIn_eq ▸ hpos) hdr.le hlen hdrop
  obtain ⟨m, hm, hb⟩ := List.getElem_of_mem ((h.common (elementsIn_eq ▸ hpos) _ _).mpr hc)
  have hcut : cutA bounds m = d + 1 := by rw [cutA, List.getD_eq_getElem _ _ hm, hb]
  have hmf : m ≤ numFactors bounds := Nat.le_sub_one_of_lt hm
  obtain hmk | hmk := Nat.lt_or_ge k m
  case inl =>
    have : cutA bounds (k + 1) ≤ cutA bounds m := h.cutsA.mono hmk hmf
    omega
  case inr =>
    have := h.cutsA.mono hmk hk.le
    omega

end Complete

section Spec

variable [DecidableEq τ] (hn : input.dimensions.prod = output.dimensions.prod)
  (h : IsFactors input.dimensions output.dimensions bounds)
  (hc : commonFactorsInt64 input.dimensions output.dimensions = .ok bounds)
include h hc

theorem alignNonDegenerateLayouts_none (ha : ¬Aligned input.minorToMajor bounds) :
    alignNonDegenerateLayouts input output = .ok none := by
  rw [alignNonDegenerateLayouts, hc]
  obtain ⟨_, -, -, ha', -⟩ | ⟨hf, -⟩ := foldlM_factor_spec h input.perm le_rfl
  case inl => exact absurd ha' ha
  case inr =>
    rw [numFactors] at hf
    simp only [bind, Except.bind, rank, hf]
    rfl

include hn

theorem alignNonDegenerateLayouts_some (ha : Aligned input.minorToMajor bounds) :
    ∃ t : Shape τ, t.elementType = output.elementType ∧ t.dimensions = output.dimensions ∧
      (0 < input.elementsIn → Same input.view t.view) ∧
      alignNonDegenerateLayouts input output =
        if input.elementType = output.elementType then .ok (some t) else .error .check := by
  obtain ⟨itf, hf, hl, -, hg⟩ | ⟨-, k, hk, d, hd, hd', ha'⟩ := foldlM_factor_spec h input.perm le_rfl
  case inr => exact absurd (ha k hk d hd hd') ha'
  case inl =>
    obtain ⟨ks, hks, ho⟩ := ha.exists_order h input.perm
    have hp := flatMap_factorBlock_perm h hks
    have hgi (k) (hk : k < numFactors bounds) (d) (hd : d ∈ factorBlock (cutA bounds) k) : itf[d]? = some k := by
      have hle : cutA bounds (k + 1) ≤ input.dimensions.length := h.cutsA.le_length hk
      have hlt : d < itf.length := by
        rw [hl]
        exact (mem_factorBlock.mp hd).2.trans_le hle
      rw [List.getElem?_eq_getElem hlt, ← List.getD_eq_getElem _ 0 hlt, hg k hk d hd]
    have hfuel : ks.length < output.rank + 1 := by
      rw [hks.length_eq, List.length_range, rank, ← h.cutsB.last]
      exact Nat.lt_succ_of_le (le_cutB h le_rfl)
    have hlayout : AlignLayouts.outputLayout input.minorToMajor bounds itf output.rank (output.rank + 1) 0 [] =
        .ok (ks.flatMap (factorBlock (cutB bounds))) := by
      have hs := outputLayout_spec [] h hgi (fun k hk => List.mem_range.mp (hks.mem_iff.mp hk)) hfuel
      rwa [List.nil_append, ← ho, hp.length_eq, List.length_range] at hs
    have hsame (hpos : 0 < input.elementsIn) : Same input.view (Shape.mk output.elementType output.dimensions _ hp).view := by
      apply view_same_of_physicalView
      rw [physicalView, ho]
      exact same_of_order h hks (elementsIn_eq ▸ hpos)
    have hr : reshapeIsBitcast input ⟨output.elementType, output.dimensions, _, hp⟩ false = true ↔
        input.elementType = output.elementType := by
      rw [reshapeIsBitcast_iff_same, elementsIn_eq, elementsIn_eq]
      exact ⟨And.left, fun ht => ⟨ht, hn, fun hpos => hsame (elementsIn_eq ▸ hpos)⟩⟩
    refine ⟨⟨output.elementType, output.dimensions, _, hp⟩, rfl, rfl, hsame, ?_⟩
    rw [alignNonDegenerateLayouts, hc]
    rw [numFactors] at hf
    rw [rank] at hlayout
    simp only [bind, Except.bind, rank, hf, hlayout]
    rw [makeShapeWithDenseLayout, dif_pos hp]
    simp only [pure, Except.pure, check]
    split_ifs
    case pos => rfl
    case neg ht ht' => exact absurd (hr.mp ht) ht'
    case pos ht ht' => exact absurd (hr.mpr ht') ht
    case neg => rfl

end Spec

end Shape

namespace Shape

open View

variable {τ : Type} {s t input output : Shape τ} {ds : List Nat} {d e i j : Nat}

section DeleteDimension

theorem dimension_deleteDimension (he : e ≠ d) :
    (s.deleteDimension d).dimension (deleteDimension.shift d e) = s.dimension e := by
  rw [dimension, dimension, deleteDimension, deleteDimension.shift, List.getD_eq_getElem?_getD, List.getD_eq_getElem?_getD]
  congr 1
  split_ifs with hd
  case pos =>
    obtain ⟨k, rfl⟩ := Nat.exists_eq_add_of_lt hd
    rw [Nat.add_sub_cancel, List.getElem?_eraseIdx_of_ge (Nat.le_add_right ..)]
  case neg => rw [List.getElem?_eraseIdx_of_lt (Nat.lt_of_le_of_ne (Nat.le_of_not_lt hd) he)]

theorem strideIn_deleteDimension (hd : s.dimension d = 1) (he : e ≠ d) :
    (s.deleteDimension d).strideIn (deleteDimensionOfLayout ds d) (deleteDimension.shift d e) = s.strideIn ds e := by
  induction ds
  case nil => rfl
  case cons c ds hi =>
    obtain rfl | hcd := eq_or_ne c d
    case inl =>
      rw [strideIn_cons_ne he.symm, hd, Nat.one_mul, ← hi]
      simp [deleteDimensionOfLayout]
    case inr =>
      have hc : deleteDimensionOfLayout (c :: ds) d = deleteDimension.shift d c :: deleteDimensionOfLayout ds d := by
        simp [deleteDimensionOfLayout, hcd]
      rw [hc]
      obtain rfl | hce := eq_or_ne c e
      case inl => rw [strideIn_cons_self, strideIn_cons_self]
      case inr =>
        have hs : deleteDimension.shift d c ≠ deleteDimension.shift d e := by
          rw [deleteDimension.shift, deleteDimension.shift]
          split_ifs <;> omega
        rw [strideIn_cons_ne hs, strideIn_cons_ne hce, dimension_deleteDimension hcd, hi]

theorem view_deleteDimension (hd : s.dimension d = 1) : (s.deleteDimension d).view = s.view.eraseIdx d := by
  refine List.ext_getElem ?length fun i hi hi' => ?get
  case length => simp [view, rank, deleteDimension, List.length_eraseIdx]
  case get =>
    have ha {e : Nat} (he : e ≠ d) (hs : deleteDimension.shift d e = i) :
        (s.deleteDimension d).view[i] = ⟨s.dimension e, s.getDimensionStride e⟩ := by
      rw [getDimensionStride_eq, ← strideIn_deleteDimension hd he, ← dimension_deleteDimension he, hs]
      simp [view, getDimensionStride_eq]
      rfl
    rw [List.getElem_eraseIdx]
    split_ifs with hlt
    case pos =>
      rw [ha hlt.ne (if_neg (Nat.not_lt_of_gt hlt))]
      simp [view]
    case neg =>
      rw [ha (by omega : i + 1 ≠ d) (if_pos (by omega))]
      simp [view]

end DeleteDimension

section Drop

theorem foldr_deleteDimension_dimensions :
    (ds.foldr (fun d s => s.deleteDimension d) s).dimensions = ds.foldr (fun d xs => xs.eraseIdx d) s.dimensions := by
  induction ds
  case nil            => rfl
  case cons d ds hi => rw [List.foldr_cons, List.foldr_cons, ← hi]; rfl

theorem foldr_deleteDimension_dimension (h : ∀ d ∈ ds, e < d) :
    (ds.foldr (fun d s => s.deleteDimension d) s).dimension e = s.dimension e := by
  induction ds
  case nil => rfl
  case cons d ds hi =>
    have hd := h d (.head _)
    have hs := dimension_deleteDimension (s := ds.foldr (fun d s => s.deleteDimension d) s) hd.ne
    rw [deleteDimension.shift, if_neg (Nat.not_lt_of_gt hd)] at hs
    rw [List.foldr_cons, hs, hi fun c hc => h c (.tail _ hc)]

-- The strides of the other dimensions are kept.
theorem foldr_deleteDimension_view (hs : ds.Pairwise (· < ·)) (h : ∀ d ∈ ds, s.dimension d = 1) :
    (ds.foldr (fun d s => s.deleteDimension d) s).view = ds.foldr (fun d xs => xs.eraseIdx d) s.view := by
  induction ds
  case nil => rfl
  case cons d ds hi =>
    obtain ⟨hd, hs⟩ := List.pairwise_cons.mp hs
    have hone : (ds.foldr (fun d s => s.deleteDimension d) s).dimension d = 1 := by
      rw [foldr_deleteDimension_dimension hd, h d (.head _)]
    rw [List.foldr_cons, List.foldr_cons, view_deleteDimension hone, hi hs fun c hc => h c (.tail _ hc)]

theorem dropDegenerateDimensions_elementType : s.dropDegenerateDimensions.elementType = s.elementType := by
  rw [dropDegenerateDimensions]
  generalize (List.range s.rank).filter (s.dimension · = 1) = ds
  induction ds
  case nil          => rfl
  case cons d ds hi => exact hi

theorem dropDegenerateDimensions_dimensions : s.dropDegenerateDimensions.dimensions = s.dimensions.filter (· ≠ 1) := by
  have h := List.foldr_eraseIdx_filter (p := fun d => s.dimension d = 1) (q := (· ≠ 1)) (l := s.dimensions) []
    fun i hi => by simp [dimension, hi]
  rw [List.append_nil, List.append_nil] at h
  rw [dropDegenerateDimensions, foldr_deleteDimension_dimensions]
  exact h

theorem dropDegenerateDimensions_view : s.dropDegenerateDimensions.view = s.view.filter (·.size ≠ 1) := by
  have h := List.foldr_eraseIdx_filter (p := fun d => s.dimension d = 1) (q := (·.size ≠ 1)) (l := s.view) []
    fun i hi => by simp [view]
  have hl : s.view.length = s.rank := by simp [view]
  rw [List.append_nil, List.append_nil, hl] at h
  rw [dropDegenerateDimensions, foldr_deleteDimension_view]
  case hs => exact List.pairwise_lt_range.filter _
  case h  => exact fun d hd => by simpa using (List.mem_filter.mp hd).2
  exact h

theorem dropDegenerateDimensions_ne_one : ∀ d ∈ s.dropDegenerateDimensions.dimensions, d ≠ 1 := by
  rw [dropDegenerateDimensions_dimensions]
  exact fun d hd => by simpa using (List.mem_filter.mp hd).2

theorem dropDegenerateDimensions_same : Same s.dropDegenerateDimensions.view s.view := by
  rw [dropDegenerateDimensions_view]
  exact same_filter _

theorem dropDegenerateDimensions_elementsIn : s.dropDegenerateDimensions.elementsIn = s.elementsIn := by
  rw [← view_numElements, ← view_numElements, dropDegenerateDimensions_same.numElements]

theorem dropDegenerateDimensions_eq (h : hasDegenerateDimensions s = false) : s.dropDegenerateDimensions = s := by
  have hf : (List.range s.rank).filter (s.dimension · = 1) = [] := by
    rw [List.filter_eq_nil_iff]
    intro d hd
    have hd : d < s.dimensions.length := List.mem_range.mp hd
    have hne : s.dimensions[d] ≠ 1 := fun he => by
      have : 1 ∈ s.dimensions := he ▸ List.getElem_mem hd
      simp [hasDegenerateDimensions, this] at h
    simpa [dimension, hd] using hne
  rw [dropDegenerateDimensions, hf]
  rfl

end Drop

section Restore

-- The positions of the dimensions that are not degenerate.
def dimMap (s : Shape τ) : List Nat :=
  (List.range s.rank).filter (s.dimension · ≠ 1)

def onesLayout (s : Shape τ) : List Nat :=
  ((List.range s.rank).filter (s.dimension · = 1)).reverse

theorem dimMap_nodup : s.dimMap.Nodup :=
  List.nodup_range.filter _

theorem map_dimMap : s.dimMap.map s.dimension = s.dimensions.filter (· ≠ 1) := by
  conv_rhs => rw [← map_getD_range s.dimensions 1, List.filter_map]
  rfl

theorem restore_perm (ht : t.dimensions = s.dimensions.filter (· ≠ 1)) :
    (t.minorToMajor.map (s.dimMap.getD · 0) ++ s.onesLayout).Perm (List.range s.dimensions.length) := by
  have hl : t.dimensions.length = s.dimMap.length := by rw [ht, ← map_dimMap, List.length_map]
  have hm := t.perm.map (s.dimMap.getD · 0)
  rw [hl, map_getD_range] at hm
  have hf := List.filter_append_perm (fun d => decide (s.dimension d ≠ 1)) (List.range s.rank)
  simp only [ne_eq, decide_not, Bool.not_not] at hf
  refine (hm.append (List.reverse_perm _)).trans (.trans (.of_eq ?_) hf)
  simp [dimMap]

-- The array with the degenerate dimensions added to the layout.
def restore (s t : Shape τ) (ht : t.dimensions = s.dimensions.filter (· ≠ 1)) : Shape τ where
  elementType  := s.elementType
  dimensions   := s.dimensions
  minorToMajor := t.minorToMajor.map (s.dimMap.getD · 0) ++ s.onesLayout
  perm         := restore_perm ht

theorem dimension_dimMap (ht : t.dimensions = s.dimensions.filter (· ≠ 1)) (hd : d < t.rank) :
    s.dimension (s.dimMap.getD d 0) = t.dimension d := by
  have hl : d < s.dimMap.length := by rwa [← List.length_map s.dimension, map_dimMap, ← ht]
  have hl' : d < (s.dimMap.map s.dimension).length := by rwa [List.length_map]
  rw [dimension.eq_def t, ht, ← map_dimMap, List.getD_eq_getElem _ _ hl, List.getD_eq_getElem _ _ hl', List.getElem_map]

theorem restore_strideIn {ones : List Nat} (ht : t.dimensions = s.dimensions.filter (· ≠ 1)) (hs : ∀ d ∈ ds, d < t.rank)
    (he : e ∈ ds) : s.strideIn (ds.map (s.dimMap.getD · 0) ++ ones) (s.dimMap.getD e 0) = t.strideIn ds e := by
  induction ds
  case nil => cases he
  case cons d ds hi =>
    rw [List.map_cons, List.cons_append]
    obtain rfl | hde := eq_or_ne d e
    case inl => rw [strideIn_cons_self, strideIn_cons_self]
    case inr =>
      have hl {d : Nat} (hd : d < t.rank) : d < s.dimMap.length := by rwa [← List.length_map s.dimension, map_dimMap, ← ht]
      have hd := hs d (.head _)
      have hne : s.dimMap.getD d 0 ≠ s.dimMap.getD e 0 := by
        rw [List.getD_eq_getElem _ _ (hl hd), List.getD_eq_getElem _ _ (hl (hs e he))]
        exact fun h => hde (dimMap_nodup.getElem_inj_iff.mp h)
      have he : e ∈ ds := (List.mem_cons.mp he).resolve_left hde.symm
      rw [strideIn_cons_ne hne, strideIn_cons_ne hde, dimension_dimMap ht hd, hi (fun d hd => hs d (.tail _ hd)) he]

theorem restore_same (ht : t.dimensions = s.dimensions.filter (· ≠ 1)) : Same (restore s t ht).view t.view := by
  have hl : t.rank = s.dimMap.length := by rw [← List.length_map s.dimension, map_dimMap, ← ht]; rfl
  have hf : (restore s t ht).view.filter (·.size ≠ 1) = t.view := by
    rw [view, List.filter_map]
    have hm : (List.range (restore s t ht).rank).filter ((fun a : Axis => decide (a.size ≠ 1)) ∘ fun d =>
        ⟨(restore s t ht).dimension d, (restore s t ht).getDimensionStride d⟩) = s.dimMap := rfl
    rw [hm]
    conv_lhs => rw [← map_getD_range s.dimMap 0]
    rw [← hl, List.map_map, view]
    refine List.map_congr_left fun d hd => ?_
    have hd := List.mem_range.mp hd
    have hs : (restore s t ht).getDimensionStride (s.dimMap.getD d 0) = t.getDimensionStride d := by
      rw [getDimensionStride_eq, getDimensionStride_eq]
      exact restore_strideIn ht (fun d => mem_minorToMajor.mp) (mem_minorToMajor.mpr hd)
    exact Axis.ext (dimension_dimMap ht hd) hs
  rw [← hf]
  exact (same_filter _).symm

theorem mapM_required {f : List Nat} (h : ∀ d ∈ ds, d < f.length) :
    ds.mapM (fun d => required f[d]?) = .ok (ds.map (f.getD · 0)) := by
  induction ds
  case nil => rfl
  case cons d ds hi =>
    have hd := h d (.head _)
    rw [List.mapM_cons, List.getElem?_eq_getElem hd, hi fun c hc => h c (.tail _ hc), List.map_cons,
      List.getD_eq_getElem _ _ hd]
    rfl

end Restore

section AlignLayouts

-- The factors of the shapes without degenerate dimensions are consecutive in the memory.
def AreFactorsConsecutive (input output : Shape τ) : Prop :=
  ∀ bounds, commonFactors input.dropDegenerateDimensions.dimensions output.dropDegenerateDimensions.dimensions = .ok bounds →
    Aligned input.dropDegenerateDimensions.minorToMajor bounds

theorem prod_dropDegenerateDimensions (hn : input.elementsIn = output.elementsIn) :
    input.dropDegenerateDimensions.dimensions.prod = output.dropDegenerateDimensions.dimensions.prod := by
  rw [← elementsIn_eq, ← elementsIn_eq, dropDegenerateDimensions_elementsIn, dropDegenerateDimensions_elementsIn, hn]

theorem areFactorsConsecutive_of_same (hpos : 0 < input.elementsIn) (ht : t.dimensions = output.dimensions)
    (hs : Same input.view t.view) : AreFactorsConsecutive input output := by
  intro bounds hc
  have hn : input.elementsIn = t.elementsIn := by rw [← view_numElements, ← view_numElements, hs.numElements]
  have hd : output.dropDegenerateDimensions.dimensions = t.dropDegenerateDimensions.dimensions := by
    rw [dropDegenerateDimensions_dimensions, dropDegenerateDimensions_dimensions, ht]
  obtain ⟨bounds', hc', hb⟩ := commonFactors_spec dropDegenerateDimensions_ne_one dropDegenerateDimensions_ne_one
    (prod_dropDegenerateDimensions hn)
  rw [hd] at hc
  rw [Except.ok.inj (hc.symm.trans hc')]
  refine aligned_of_same dropDegenerateDimensions_ne_one hb ?elements ?same
  case elements => rwa [dropDegenerateDimensions_elementsIn]
  case same => exact (dropDegenerateDimensions_same.trans hs).trans dropDegenerateDimensions_same.symm

-- The products of the sizes that are not one do not overflow.
def SizesFit (input output : Shape τ) : Prop :=
  CommonFactors.ProductsFit input.dropDegenerateDimensions.dimensions output.dropDegenerateDimensions.dimensions

variable [DecidableEq τ]

theorem alignLayouts_overflow (hf : ¬SizesFit input output) : alignLayouts input output = .error .overflow := by
  have he : alignNonDegenerateLayouts input.dropDegenerateDimensions output.dropDegenerateDimensions =
      .error .overflow := by
    rw [alignNonDegenerateLayouts, commonFactorsInt64_of_not_fits hf]
    rfl
  rw [alignLayouts]
  split_ifs with hd
  case pos => rw [he]; rfl
  case neg =>
    simp only [Bool.or_eq_true, not_or, Bool.not_eq_true] at hd
    rwa [dropDegenerateDimensions_eq hd.1, dropDegenerateDimensions_eq hd.2] at he

theorem alignLayouts_none (hf : SizesFit input output) (hn : input.elementsIn = output.elementsIn)
    (h : ¬AreFactorsConsecutive input output) : alignLayouts input output = .ok none := by
  obtain ⟨bounds, hc, hb⟩ := commonFactors_spec dropDegenerateDimensions_ne_one dropDegenerateDimensions_ne_one
    (prod_dropDegenerateDimensions hn)
  have ha : ¬Aligned input.dropDegenerateDimensions.minorToMajor bounds := fun ha => h fun _ hc' => by
    rwa [← Except.ok.inj (hc.symm.trans hc')]
  have hnone := alignNonDegenerateLayouts_none hb ((commonFactorsInt64_of_fits hf).trans hc) ha
  rw [alignLayouts]
  split_ifs with hd
  case pos => rw [hnone]; rfl
  case neg =>
    simp only [Bool.or_eq_true, not_or, Bool.not_eq_true] at hd
    rwa [dropDegenerateDimensions_eq hd.1, dropDegenerateDimensions_eq hd.2] at hnone

theorem alignLayouts_some (hf : SizesFit input output) (hn : input.elementsIn = output.elementsIn)
    (h : AreFactorsConsecutive input output) :
    ∃ t : Shape τ, t.elementType = output.elementType ∧ t.dimensions = output.dimensions ∧
      (0 < input.elementsIn → Same input.view t.view) ∧
      alignLayouts input output = if input.elementType = output.elementType then .ok (some t) else .error .check := by
  have hp := prod_dropDegenerateDimensions hn
  obtain ⟨bounds, hc, hb⟩ := commonFactors_spec dropDegenerateDimensions_ne_one dropDegenerateDimensions_ne_one hp
  obtain ⟨t, ht, htd, hs, ha⟩ :=
    alignNonDegenerateLayouts_some hp hb ((commonFactorsInt64_of_fits hf).trans hc) (h bounds hc)
  rw [dropDegenerateDimensions_elementsIn] at hs
  rw [dropDegenerateDimensions_elementType] at ht ha
  rw [dropDegenerateDimensions_elementType] at ha
  by_cases hd : (hasDegenerateDimensions input || hasDegenerateDimensions output) = true
  case neg =>
    rw [alignLayouts, if_neg hd]
    simp only [Bool.or_eq_true, not_or, Bool.not_eq_true] at hd
    rw [dropDegenerateDimensions_eq hd.1, dropDegenerateDimensions_eq hd.2] at ha
    rw [dropDegenerateDimensions_eq hd.1] at hs
    rw [dropDegenerateDimensions_eq hd.2] at htd
    exact ⟨t, ht, htd, hs, ha⟩
  case pos =>
    rw [dropDegenerateDimensions_dimensions] at htd
    refine ⟨restore output t htd, rfl, rfl, fun hpos => ?same, ?layout⟩
    case same => exact (dropDegenerateDimensions_same.symm.trans (hs hpos)).trans (restore_same htd).symm
    case layout =>
      have hm : t.minorToMajor.mapM (fun d => required output.dimMap[d]?) =
          .ok (t.minorToMajor.map (output.dimMap.getD · 0)) := by
        apply mapM_required
        intro d hd
        rw [← List.length_map output.dimension, map_dimMap, ← htd]
        exact mem_minorToMajor.mp hd
      have hperm := restore_perm htd
      rw [dimMap] at hm hperm
      rw [onesLayout] at hperm
      rw [alignLayouts, if_pos hd, ha]
      split_ifs
      case neg => rfl
      case pos =>
        simp only [bind, Except.bind, hm]
        rw [makeShapeWithDenseLayout, dif_pos hperm]
        rfl

-- The layout that is returned makes the reshape a bitcast. If none is returned then there is no such layout.
def IsAlignment (input output : Shape τ) : Option (Shape τ) → Prop
  | some t => t.elementType = output.elementType ∧ t.dimensions = output.dimensions ∧ reshapeIsBitcast input t false = true
  | none   => ∀ t : Shape τ, t.elementType = output.elementType → t.dimensions = output.dimensions →
    reshapeIsBitcast input t false = false

theorem alignLayouts_iff (hn : input.elementsIn = output.elementsIn) :
    (∃ r, alignLayouts input output = .ok r ∧ IsAlignment input output r) ↔
      SizesFit input output ∧
        if input.elementType = output.elementType then 0 < input.elementsIn ∨ AreFactorsConsecutive input output
        else ¬AreFactorsConsecutive input output := by
  by_cases hs : SizesFit input output
  case neg =>
    rw [alignLayouts_overflow hs]
    exact iff_of_false (by simp) fun h => hs h.1
  rw [and_iff_right hs]
  by_cases hf : AreFactorsConsecutive input output
  case pos =>
    obtain ⟨t, ht, htd, hsame, ha⟩ := alignLayouts_some hs hn hf
    rw [ha]
    split_ifs with htypes
    case pos =>
      have hb : reshapeIsBitcast input t false = true := by
        refine reshapeIsBitcast_iff_same.mpr ⟨htypes.trans ht.symm, ?_, hsame⟩
        rw [hn, elementsIn_eq, elementsIn_eq, htd]
      exact iff_of_true ⟨_, rfl, ht, htd, hb⟩ (.inr hf)
    case neg => exact iff_of_false (by simp) (not_not.mpr hf)
  case neg =>
    rw [alignLayouts_none hs hn hf]
    split_ifs with htypes
    case neg =>
      refine iff_of_true ⟨none, rfl, fun t ht _ => ?_⟩ hf
      apply Bool.eq_false_of_not_eq_true
      exact fun hb => htypes ((reshapeIsBitcast_iff_same.mp hb).1.trans ht)
    case pos =>
      rw [or_iff_left hf]
      constructor
      case mp =>
        rintro ⟨_, ⟨⟩, h⟩
        by_contra hz
        have hb := h output rfl rfl
        rw [Bool.eq_false_iff] at hb
        exact hb (reshapeIsBitcast_iff_same.mpr ⟨htypes, hn, fun hpos => absurd hpos hz⟩)
      case mpr =>
        intro hpos
        refine ⟨none, rfl, fun t _ htd => ?_⟩
        apply Bool.eq_false_of_not_eq_true
        exact fun hb => hf (areFactorsConsecutive_of_same hpos htd ((reshapeIsBitcast_iff_same.mp hb).2.2 hpos))

theorem alignLayouts_iff_ones : ∃ r,
    alignLayouts ⟨(), [2, 1, 3], [0, 2, 1], by decide⟩ ⟨(), [6, 1], [0, 1], by decide⟩ = .ok r ∧
      IsAlignment ⟨(), [2, 1, 3], [0, 2, 1], by decide⟩ ⟨(), [6, 1], [0, 1], by decide⟩ r :=
  (@alignLayouts_iff _ ⟨(), [2, 1, 3], [0, 2, 1], by decide⟩ ⟨(), [6, 1], [0, 1], by decide⟩ _ rfl).mpr
    ⟨by unfold SizesFit; decide, .inl (by decide)⟩

-- No layout is found for an array without elements although every layout makes the reshape a bitcast.
theorem alignLayouts_empty : ¬∃ r,
    alignLayouts ⟨(), [0, 2, 3], [1, 2, 0], by decide⟩ ⟨(), [0, 6], [0, 1], by decide⟩ = .ok r ∧
      IsAlignment ⟨(), [0, 2, 3], [1, 2, 0], by decide⟩ ⟨(), [0, 6], [0, 1], by decide⟩ r := by
  rintro ⟨r, hr, h⟩
  have hn : alignLayouts ⟨(), [0, 2, 3], [1, 2, 0], by decide⟩ ⟨(), [0, 6], [0, 1], by decide⟩ = .ok none := rfl
  have hb : reshapeIsBitcast ⟨(), [0, 2, 3], [1, 2, 0], by decide⟩ ⟨(), [0, 6], [0, 1], by decide⟩ false = true := by decide
  obtain rfl := Except.ok.inj (hn.symm.trans hr)
  have hf := h ⟨(), [0, 6], [0, 1], by decide⟩ rfl rfl
  rw [hb] at hf
  cases hf

end AlignLayouts

end Shape
