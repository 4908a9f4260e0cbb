import XlaModel.Shape.Theorems.AlignLayouts.CommonFactors
import XlaModel.Shape.Theorems.DecomposeBitcast
import XlaModel.Lib.BlockView
import XlaModel.Lib.List

namespace Shape

open RowMajor View

variable {τ : Type} {s input output : Shape τ} {ds xs : List Nat} {d k p : Nat}

section Stride

theorem strideIn_eq_prod : s.strideIn ds d = ((ds.map s.dimension).take (ds.idxOf d)).prod := by
  induction ds
  case nil => rfl
  case cons e ds hi =>
    obtain rfl | hde := eq_or_ne e d
    case inl => rw [strideIn_cons_self, List.idxOf_cons_self, List.take_zero, List.prod_nil]
    case inr =>
      rw [strideIn_cons_ne hde, List.idxOf_cons_ne _ hde, List.map_cons, List.take_succ_cons, List.prod_cons, hi]

-- The dimension is directly followed by the next one in the memory.
def Consecutive (minorToMajor : List Nat) (d : Nat) : Prop :=
  minorToMajor.idxOf d = minorToMajor.idxOf (d + 1) + 1

theorem prod_take_idxOf (hd : d < s.rank) :
    ((s.minorToMajor.map s.dimension).take (s.minorToMajor.idxOf d + 1)).prod = s.dimension d * s.getDimensionStride d := by
  have hi : s.minorToMajor.idxOf d < s.minorToMajor.length := List.idxOf_lt_length_of_mem (mem_minorToMajor.mpr hd)
  rw [prod_take_succ (by rwa [List.length_map]), List.getElem_map, List.getElem_idxOf, getDimensionStride_eq,
    strideIn_eq_prod, Nat.mul_comm]

-- Neighbouring dimensions are one dimension only if they are consecutive.
theorem consecutive_of_stride (hd : d + 1 < s.rank) (h : ∀ n ∈ s.dimensions, 2 ≤ n)
    (hs : s.getDimensionStride d = s.dimension (d + 1) * s.getDimensionStride (d + 1)) : Consecutive s.minorToMajor d := by
  have hm : ∀ n ∈ s.minorToMajor.map s.dimension, 2 ≤ n := by
    intro n hn
    obtain ⟨e, he, rfl⟩ := List.mem_map.mp hn
    have he := mem_minorToMajor.mp he
    rw [dimension, List.getD_eq_getElem _ _ he]
    exact h _ (List.getElem_mem _)
  have hi {e : Nat} (he : e < s.rank) : s.minorToMajor.idxOf e < s.minorToMajor.length :=
    List.idxOf_lt_length_of_mem (mem_minorToMajor.mpr he)
  rw [← prod_take_idxOf hd, getDimensionStride_eq, strideIn_eq_prod] at hs
  have hle : s.minorToMajor.idxOf d ≤ (s.minorToMajor.map s.dimension).length := by
    rw [List.length_map]
    exact (hi (Nat.lt_of_succ_lt hd)).le
  have hle' : s.minorToMajor.idxOf (d + 1) + 1 ≤ (s.minorToMajor.map s.dimension).length := by
    rw [List.length_map]
    exact hi hd
  exact prod_take_inj hm hle hle' hs

end Stride

section PhysicalIndex

-- The view of the array that lists its elements in the order of the memory.
def physicalView (s : Shape τ) : View :=
  permuted s.dimensions s.minorToMajor.reverse

theorem physicalView_numElements : s.physicalView.numElements = s.elementsIn := by
  rw [physicalView, numElements_permuted s.reverse_perm, elementsIn_eq]

theorem mem_reverse_lt (hd : d ∈ s.minorToMajor.reverse) : d < s.dimensions.length :=
  List.mem_range.mp (s.reverse_perm.mem_iff.mp hd)

theorem physicalIndex_offset (hp : p < s.elementsIn) : s.physicalIndex (s.physicalView.offset p) = p := by
  obtain ⟨x, hx⟩ := exists_digits s.reverse_perm (elementsIn_eq ▸ hp)
  have hd : digits s.physicalDimensions p = s.minorToMajor.reverse.map x := hx.digits
  rw [physicalView, hx.offset s.reverse_perm, physicalIndex, hx.inBounds.digits_ravel,
    multidimensionalIndexToLinearIndex_eq_ravel, map_getD_map_range (fun d => mem_reverse_lt), ← hd,
    ravel_digits (prod_physicalDimensions ▸ hp)]

theorem exists_offset (hk : k < s.elementsIn) : ∃ p < s.elementsIn, s.physicalView.offset p = k := by
  rw [elementsIn_eq] at hk ⊢
  refine ⟨_, ?_, offset_inverse s.reverse_perm hk⟩
  have hi : (inverse s.minorToMajor.reverse).Perm (List.range (s.minorToMajor.reverse.map (s.dimensions.getD · 1)).length) := by
    rw [List.length_map, length_eq_of_perm s.reverse_perm]
    exact inverse_perm s.reverse_perm
  have hp : (s.minorToMajor.reverse.map (s.dimensions.getD · 1)).prod = s.dimensions.prod := by
    rw [(s.reverse_perm.map _).prod_eq, map_getD_range]
  have hlt := offset_permuted_lt hi (hp.symm ▸ hk)
  rwa [hp] at hlt

theorem view_same_of_physicalView (h : Same input.physicalView output.physicalView) : Same input.view output.view where
  numElements := by
    have := h.numElements
    rwa [physicalView_numElements, physicalView_numElements, ← view_numElements, ← view_numElements] at this
  offset k hk := by
    have hn := h.numElements
    rw [physicalView_numElements, physicalView_numElements] at hn
    rw [view_numElements] at hk
    obtain ⟨p, hp, rfl⟩ := exists_offset hk
    have ho := h.offset p (physicalView_numElements.symm ▸ hp)
    rw [view_offset, view_offset, physicalIndex_offset hp, ho, physicalIndex_offset (hn ▸ hp)]

variable [DecidableEq τ]

theorem reshapeIsBitcast_iff_same : reshapeIsBitcast input output false = true ↔
    input.elementType = output.elementType ∧ input.elementsIn = output.elementsIn ∧
      (0 < input.elementsIn → Same input.view output.view) := by
  rw [reshapeIsBitcast_iff]
  simp only [Bool.false_eq_true, false_or]
  refine and_congr_right fun _ => and_congr_right fun hn => ?_
  constructor
  case mp =>
    intro h _
    refine ⟨by rw [view_numElements, view_numElements, hn], fun k hk => ?_⟩
    rw [view_offset, view_offset]
    exact h k (view_numElements ▸ hk)
  case mpr =>
    intro h k hk
    have := (h (Nat.zero_lt_of_lt hk)).offset k (view_numElements.symm ▸ hk)
    rwa [view_offset, view_offset] at this

end PhysicalIndex

end Shape

namespace Shape

open View

variable {minorToMajor a b itf ks rs : List Nat} {bounds : List (Nat × Nat)} {c d j k n : Nat}

section Blocks

def numFactors (bounds : List (Nat × Nat)) : Nat :=
  bounds.length - 1

def cutA (bounds : List (Nat × Nat)) (k : Nat) : Nat :=
  (bounds.getD k (0, 0)).1

def cutB (bounds : List (Nat × Nat)) (k : Nat) : Nat :=
  (bounds.getD k (0, 0)).2

namespace IsFactors

variable (h : IsFactors a b bounds)
include h

theorem getElem_zero : bounds[0]? = some (0, 0) := by
  rw [← List.head?_eq_getElem?, h.first]

theorem getElem_last : bounds[numFactors bounds]? = some (a.length, b.length) := by
  rw [numFactors, ← List.getLast?_eq_getElem?, h.last]

theorem lt_length (hk : k ≤ numFactors bounds) : k < bounds.length := by
  obtain ⟨hl, -⟩ := List.getElem?_eq_some_iff.mp h.getElem_last
  exact Nat.lt_of_le_of_lt hk hl

theorem cut_lt (hj : j < k) (hk : k ≤ numFactors bounds) : cutA bounds j < cutA bounds k ∧ cutB bounds j < cutB bounds k := by
  have hk := h.lt_length hk
  have hj' := hj.trans hk
  have := List.pairwise_iff_getElem.mp h.sorted j k hj' hk hj
  rwa [cutA, cutB, cutA, cutB, List.getD_eq_getElem _ _ hj', List.getD_eq_getElem _ _ hk]

theorem cutsA : Cuts a (numFactors bounds) (cutA bounds) where
  zero      := by rw [cutA, List.getD_eq_getElem?_getD, h.getElem_zero]; rfl
  step _ hk := (h.cut_lt (Nat.lt_succ_self _) hk).1.le
  last      := by rw [cutA, List.getD_eq_getElem?_getD, h.getElem_last]; rfl

theorem cutsB : Cuts b (numFactors bounds) (cutB bounds) where
  zero      := by rw [cutB, List.getD_eq_getElem?_getD, h.getElem_zero]; rfl
  step _ hk := (h.cut_lt (Nat.lt_succ_self _) hk).2.le
  last      := by rw [cutB, List.getD_eq_getElem?_getD, h.getElem_last]; rfl

theorem common_cut (hp : 0 < a.prod) (hk : k ≤ numFactors bounds) : Common a b (cutA bounds k) (cutB bounds k) := by
  have hk := h.lt_length hk
  refine (h.common hp _ _).mp ?_
  rw [cutA, cutB, List.getD_eq_getElem _ _ hk]
  exact List.getElem_mem hk

-- The factors have the same numbers of elements.
theorem map_prod_slices (hp : 0 < a.prod) :
    (slices a (numFactors bounds) (cutA bounds)).map List.prod = (slices b (numFactors bounds) (cutB bounds)).map List.prod := by
  refine List.ext_getElem (by simp) fun k hk hk' => ?_
  have hk'' : k < numFactors bounds := by simpa using hk
  have hA := h.cutsA.prod_take hk''
  have hB := h.cutsB.prod_take hk''
  rw [← (h.common_cut hp hk'').prod, ← (h.common_cut hp hk''.le).prod, hA] at hB
  rw [List.getD_eq_getElem _ _ hk, List.getD_eq_getElem _ _ hk'] at hB
  refine (Nat.mul_right_inj ?_).mp hB
  rw [← List.prod_take_mul_prod_drop a (cutA bounds k)] at hp
  exact (Nat.pos_of_mul_pos_right hp).ne'

end IsFactors

-- The dimensions of a factor from minor to major.
def factorBlock (cut : Nat → Nat) (k : Nat) : List Nat :=
  (List.range' (cut k) (cut (k + 1) - cut k)).reverse

theorem mem_factorBlock {cut : Nat → Nat} : d ∈ factorBlock cut k ↔ cut k ≤ d ∧ d < cut (k + 1) := by
  rw [factorBlock, List.mem_reverse, List.mem_range'_1]
  omega

theorem Consecutive.infix (hn : minorToMajor.Nodup) (hm : ∀ d, c ≤ d → d < c + n → d ∈ minorToMajor)
    (h : ∀ d, c ≤ d → d + 1 < c + n → Consecutive minorToMajor d) : (List.range' c n).reverse <:+: minorToMajor := by
  induction n
  case zero => exact List.nil_infix
  case succ n hi =>
    obtain ⟨us, vs, hs⟩ := hi (fun d hc hd => hm d hc (Nat.lt_succ_of_lt hd)) fun d hc hd => h d hc (Nat.lt_succ_of_lt hd)
    have hmem := hm (c + n) (Nat.le_add_right ..) (Nat.lt_succ_self _)
    rw [List.range'_1_concat, List.reverse_append, List.reverse_singleton, List.singleton_append]
    cases n
    case zero =>
      obtain ⟨us, vs, hs⟩ := List.append_of_mem hmem
      exact ⟨us, vs, by simpa using hs.symm⟩
    case succ n =>
      have hc := h (c + n) (Nat.le_add_right ..) (by omega)
      rw [List.range'_1_concat, List.reverse_append, List.reverse_singleton, List.singleton_append] at hs ⊢
      have hl : us.length < minorToMajor.length := by simp [← hs]
      have hu : minorToMajor.idxOf (c + n) = us.length := by
        rw [← hn.idxOf_getElem us.length hl]
        simp [← hs]
      -- The dimension before the ones of the block is the next one.
      rw [Consecutive, hu] at hc
      obtain rfl | ⟨us, y, rfl⟩ := List.eq_nil_or_concat' us
      case inl => cases hc
      case inr =>
        have hy : minorToMajor.idxOf (c + n + 1) = us.length := by simpa using hc.symm
        obtain rfl : y = c + n + 1 := by
          have hg := List.getElem_idxOf (List.idxOf_lt_length_of_mem hmem)
          simp only [← Nat.add_assoc, hy] at hg
          rw [← hg]
          simp [← hs]
        exact ⟨us, vs, by simpa [Nat.add_assoc] using hs⟩

theorem exists_cut {cut : Nat → Nat} (h : cut 0 = 0) (hd : d < cut n) : ∃ k < n, cut k ≤ d ∧ d < cut (k + 1) := by
  induction n
  case zero => omega
  case succ n hi =>
    obtain hlt | hle := Nat.lt_or_ge d (cut n)
    case inl =>
      obtain ⟨k, hk, hd⟩ := hi hlt
      exact ⟨k, Nat.lt_succ_of_lt hk, hd⟩
    case inr => exact ⟨n, Nat.lt_succ_self n, hle, hd⟩

theorem factorBlock_disjoint {cut : Nat → Nat} (h : Cuts a n cut) (hj : j < n) (hk : k < n) (hjk : j ≠ k) :
    (factorBlock cut j).Disjoint (factorBlock cut k) := by
  intro d hdj hdk
  rw [mem_factorBlock] at hdj hdk
  obtain hlt | hlt := Nat.lt_or_gt_of_ne hjk
  case inl =>
    have : cut (j + 1) ≤ cut k := h.mono hlt hk.le
    omega
  case inr =>
    have : cut (k + 1) ≤ cut j := h.mono hlt hj.le
    omega

-- The dimensions of every factor are consecutive.
def Aligned (minorToMajor : List Nat) (bounds : List (Nat × Nat)) : Prop :=
  ∀ k < numFactors bounds, ∀ d, cutA bounds k ≤ d → d + 1 < cutA bounds (k + 1) → Consecutive minorToMajor d

-- Aligned factors are in some order in the memory.
theorem Aligned.exists_order (h : IsFactors a b bounds) (hp : minorToMajor.Perm (List.range a.length))
    (ha : Aligned minorToMajor bounds) : ∃ ks : List Nat, ks.Perm (List.range (numFactors bounds)) ∧
      minorToMajor = ks.flatMap (factorBlock (cutA bounds)) := by
  have hc := h.cutsA
  have hn : minorToMajor.Nodup := hp.nodup_iff.mpr List.nodup_range
  have hm {d : Nat} : d ∈ minorToMajor ↔ d < a.length := hp.mem_iff.trans List.mem_range
  have hcover (d) (hd : d ∈ minorToMajor) : ∃ k ∈ List.range (numFactors bounds), d ∈ factorBlock (cutA bounds) k ∧
      factorBlock (cutA bounds) k <:+: minorToMajor := by
    obtain ⟨k, hk, hd⟩ := exists_cut hc.zero (hc.last.symm ▸ hm.mp hd)
    have hle : cutA bounds (k + 1) ≤ a.length := hc.le_length hk
    have hs := hc.step k hk
    refine ⟨k, List.mem_range.mpr hk, mem_factorBlock.mpr hd,
      Consecutive.infix hn (fun e _ he => ?inside) fun e he he' => ?outside⟩
    case inside => exact hm.mpr (by omega)
    case outside => exact ha k hk e he (by omega)
  obtain ⟨ks, hks, hlt, hf⟩ := List.exists_flatMap_of_infix hn hcover fun j hj k hk =>
    factorBlock_disjoint hc (List.mem_range.mp hj) (List.mem_range.mp hk)
  refine ⟨ks, (List.perm_ext_iff_of_nodup hks List.nodup_range).mpr fun k => ⟨hlt k, fun hk => ?_⟩, hf⟩
  -- A factor is not empty.
  have hk := List.mem_range.mp hk
  have hlen := hc.le_length (Nat.succ_le_of_lt hk)
  have hcut := (h.cut_lt (Nat.lt_succ_self k) (Nat.succ_le_of_lt hk)).1
  have hd : cutA bounds k ∈ factorBlock (cutA bounds) k := mem_factorBlock.mpr ⟨le_rfl, hcut⟩
  have hd' := hm.mpr (hcut.trans_le hlen)
  rw [hf] at hd'
  obtain ⟨j, hj, hd'⟩ := List.mem_flatMap.mp hd'
  by_contra hne
  have hjk : j ≠ k := fun hjk => hne (hjk ▸ hj)
  exact factorBlock_disjoint hc (List.mem_range.mp (hlt j hj)) hk hjk hd' hd

end Blocks

section Factor

open AlignLayouts

variable {pos i fuel : Nat}

theorem not_consecutive_iff (hn : minorToMajor.Nodup) : ¬Consecutive minorToMajor i ↔
    minorToMajor.idxOf i = 0 ∨ minorToMajor[minorToMajor.idxOf i - 1]? ≠ some (i + 1) := by
  rw [← not_iff_not, not_not, not_or, not_not, Consecutive]
  constructor
  case mp =>
    intro h
    have hle : minorToMajor.idxOf (i + 1) < minorToMajor.length := by
      have : minorToMajor.idxOf i ≤ minorToMajor.length := List.idxOf_le_length
      omega
    refine ⟨by omega, ?_⟩
    rw [h, Nat.add_sub_cancel, List.getElem?_eq_getElem hle, List.getElem_idxOf]
  case mpr =>
    rintro ⟨h₀, h⟩
    obtain ⟨hl, hi⟩ := List.getElem?_eq_some_iff.mp h
    have := hn.idxOf_getElem _ hl
    rw [hi] at this
    omega

theorem consecutive_spec (hn : minorToMajor.Nodup) {i : Nat} :
    (∃ itf', consecutive minorToMajor pos n (i + 1) (minorToMajor.idxOf i) itf = some itf' ∧
      itf'.length = itf.length ∧ (∀ d, i ≤ d → d + 1 < i + 1 + n → Consecutive minorToMajor d) ∧
      ∀ d < itf.length, itf'.getD d 0 = if i < d ∧ d < i + 1 + n then pos else itf.getD d 0) ∨
    consecutive minorToMajor pos n (i + 1) (minorToMajor.idxOf i) itf = none ∧
      ∃ d, i ≤ d ∧ d + 1 < i + 1 + n ∧ ¬Consecutive minorToMajor d := by
  induction n generalizing i itf
  case zero =>
    refine .inl ⟨itf, rfl, rfl, fun d _ _ => by omega, fun d _ => ?_⟩
    rw [if_neg (by omega)]
  case succ n hi =>
    by_cases hci : Consecutive minorToMajor i
    case neg =>
      rw [consecutive, if_pos ((not_consecutive_iff hn).mp hci)]
      exact .inr ⟨rfl, i, le_rfl, by omega, hci⟩
    case pos =>
      rw [consecutive, if_neg (mt (not_consecutive_iff hn).mpr (not_not.mpr hci))]
      rw [Consecutive] at hci
      have hp : minorToMajor.idxOf i - 1 = minorToMajor.idxOf (i + 1) := by omega
      rw [hp]
      obtain ⟨itf', hs, hl, ha, hg⟩ | ⟨hs, d, hd, hd', ha⟩ := @hi (itf.set (i + 1) pos) (i + 1)
      case inr => exact .inr ⟨hs, d, by omega, by omega, ha⟩
      case inl =>
        rw [List.length_set] at hl hg
        refine .inl ⟨itf', hs, hl, fun d hd hd' => ?placed, fun d hd => ?unplaced⟩
        case placed =>
          obtain rfl | hne := eq_or_ne d i
          case inl => exact hci
          case inr => exact ha d (by omega) (by omega)
        case unplaced =>
          rw [hg d hd]
          obtain rfl | hne := eq_or_ne d (i + 1)
          case inl => simp [hd]
          case inr =>
            have hset : (itf.set (i + 1) pos).getD d 0 = itf.getD d 0 := by simp [hne.symm]
            have hiff : (i + 1 < d ∧ d < i + 1 + 1 + n) ↔ (i < d ∧ d < i + 1 + (n + 1)) := by omega
            rw [hset, if_congr hiff rfl rfl]

variable (h : IsFactors a b bounds) (hp : minorToMajor.Perm (List.range a.length))
include h hp

theorem factor_spec (hk : k < numFactors bounds) (hl : itf.length = a.length) :
    (∃ itf', factor minorToMajor bounds itf k = some itf' ∧ itf'.length = a.length ∧
      (∀ d, cutA bounds k ≤ d → d + 1 < cutA bounds (k + 1) → Consecutive minorToMajor d) ∧
      ∀ d < a.length, itf'.getD d 0 = if d ∈ factorBlock (cutA bounds) k then k else itf.getD d 0) ∨
    factor minorToMajor bounds itf k = none ∧
      ∃ d, cutA bounds k ≤ d ∧ d + 1 < cutA bounds (k + 1) ∧ ¬Consecutive minorToMajor d := by
  have hn : minorToMajor.Nodup := hp.nodup_iff.mpr List.nodup_range
  have hc : cutA bounds k < cutA bounds (k + 1) := (h.cut_lt (Nat.lt_succ_self k) hk).1
  have he : cutA bounds k + 1 + (cutA bounds (k + 1) - (cutA bounds k + 1)) = cutA bounds (k + 1) := by omega
  have hf : factor minorToMajor bounds itf k = consecutive minorToMajor k (cutA bounds (k + 1) - (cutA bounds k + 1))
      (cutA bounds k + 1) (minorToMajor.idxOf (cutA bounds k)) (itf.set (cutA bounds k) k) := rfl
  rw [hf]
  obtain ⟨itf', hs, hl', ha, hg⟩ | ⟨hs, ha⟩ := consecutive_spec hn
  case inr => exact .inr ⟨hs, by rwa [he] at ha⟩
  case inl =>
    rw [List.length_set] at hl' hg
    rw [he] at ha hg
    refine .inl ⟨itf', hs, hl'.trans hl, ha, fun d hd => ?_⟩
    rw [hg d (hl ▸ hd)]
    obtain rfl | hne := eq_or_ne d (cutA bounds k)
    case inl => simp [hl, hd, mem_factorBlock, hc]
    case inr =>
      have hset : (itf.set (cutA bounds k) k).getD d 0 = itf.getD d 0 := by simp [hne.symm]
      have hiff : (cutA bounds k < d ∧ d < cutA bounds (k + 1)) ↔ d ∈ factorBlock (cutA bounds) k := by
        rw [mem_factorBlock]
        omega
      rw [hset, if_congr hiff rfl rfl]

theorem foldlM_factor_spec (hn : n ≤ numFactors bounds) :
    (∃ itf, (List.range n).foldlM (factor minorToMajor bounds) (List.replicate a.length 0) = some itf ∧
      itf.length = a.length ∧
      (∀ k < n, ∀ d, cutA bounds k ≤ d → d + 1 < cutA bounds (k + 1) → Consecutive minorToMajor d) ∧
      ∀ k < n, ∀ d ∈ factorBlock (cutA bounds) k, itf.getD d 0 = k) ∨
    (List.range n).foldlM (factor minorToMajor bounds) (List.replicate a.length 0) = none ∧
      ∃ k < n, ∃ d, cutA bounds k ≤ d ∧ d + 1 < cutA bounds (k + 1) ∧ ¬Consecutive minorToMajor d := by
  induction n
  case zero => exact .inl ⟨_, rfl, List.length_replicate, by simp, by simp⟩
  case succ n hi =>
    rw [List.range_succ, List.foldlM_append]
    obtain ⟨itf, hs, hl, ha, hg⟩ | ⟨hs, k, hk, ha⟩ := hi (Nat.le_of_succ_le hn)
    case inr => exact .inr ⟨by rw [hs]; rfl, k, Nat.lt_succ_of_lt hk, ha⟩
    case inl =>
      have hfold : ((List.range n).foldlM (factor minorToMajor bounds) (List.replicate a.length 0) >>= fun itf =>
          [n].foldlM (factor minorToMajor bounds) itf) = factor minorToMajor bounds itf n := by
        rw [hs]
        simp
      rw [hfold]
      obtain ⟨itf', hs, hl, ha', hg'⟩ | ⟨hs, ha'⟩ := factor_spec h hp hn hl
      case inr => exact .inr ⟨hs, n, Nat.lt_succ_self n, ha'⟩
      case inl =>
        refine .inl ⟨itf', hs, hl, fun k hk => ?covered, fun k hk d hd => ?placed⟩
        case covered =>
          obtain hk | rfl := Nat.lt_succ_iff_lt_or_eq.mp hk
          case inl => exact ha k hk
          case inr => exact ha'
        case placed =>
          have hlt : cutA bounds (k + 1) ≤ a.length := h.cutsA.le_length (Nat.le_trans hk hn)
          rw [hg' d ((mem_factorBlock.mp hd).2.trans_le hlt)]
          obtain hk | rfl := Nat.lt_succ_iff_lt_or_eq.mp hk
          case inr => exact if_pos hd
          case inl =>
            have hdis := factorBlock_disjoint h.cutsA (hk.trans hn) hn hk.ne
            rw [if_neg (hdis hd), hg k hk d hd]

end Factor

section OutputLayout

open AlignLayouts

variable {fuel : Nat}

theorem length_factorBlock {cut : Nat → Nat} : (factorBlock cut k).length = cut (k + 1) - cut k := by
  rw [factorBlock, List.length_reverse, List.length_range']

theorem factorBlock_eq_cons {cut : Nat → Nat} (h : cut k < cut (k + 1)) :
    ∃ ds, factorBlock cut k = (cut (k + 1) - 1) :: ds := by
  obtain ⟨n, hn⟩ := Nat.exists_eq_add_of_lt h
  have hs : cut (k + 1) - cut k = n + 1 := by omega
  have hl : cut (k + 1) - 1 = cut k + n := by omega
  rw [factorBlock, hs, hl, List.range'_1_concat, List.reverse_append, List.reverse_singleton]
  exact ⟨_, rfl⟩

-- The factors `ks` are in the layout of the output already, the factors `rs` follow.
theorem outputLayout_spec (ks : List Nat) (h : IsFactors a b bounds)
    (hf : ∀ k < numFactors bounds, ∀ d ∈ factorBlock (cutA bounds) k, itf[d]? = some k)
    (hr : ∀ k ∈ rs, k < numFactors bounds) (hfuel : rs.length < fuel) :
    outputLayout ((ks ++ rs).flatMap (factorBlock (cutA bounds))) bounds itf ((ks ++ rs).flatMap (factorBlock (cutB bounds))).length fuel
        (ks.flatMap (factorBlock (cutA bounds))).length (ks.flatMap (factorBlock (cutB bounds))) =
      .ok ((ks ++ rs).flatMap (factorBlock (cutB bounds))) := by
  induction rs generalizing ks fuel
  case nil =>
    obtain ⟨fuel, rfl⟩ := Nat.exists_eq_add_of_lt hfuel
    rw [List.append_nil, outputLayout, if_neg (Nat.lt_irrefl _)]
    rfl
  case cons k rs hi =>
    obtain ⟨fuel, rfl⟩ := Nat.exists_eq_succ_of_ne_zero (Nat.ne_zero_of_lt hfuel)
    have hk := hr k (.head _)
    obtain ⟨hcA, hcB⟩ := h.cut_lt (Nat.lt_add_one k) hk
    have hlt : (ks.flatMap (factorBlock (cutB bounds))).length < ((ks ++ k :: rs).flatMap (factorBlock (cutB bounds))).length := by
      simp only [List.flatMap_append, List.flatMap_cons, List.length_append, length_factorBlock]
      omega
    have hd : ((ks ++ k :: rs).flatMap (factorBlock (cutA bounds)))[(ks.flatMap (factorBlock (cutA bounds))).length]? =
        some (cutA bounds (k + 1) - 1) := by
      obtain ⟨ds, hds⟩ := factorBlock_eq_cons hcA
      simp [List.flatMap_append, hds]
    have hm : cutA bounds (k + 1) - 1 ∈ factorBlock (cutA bounds) k := mem_factorBlock.mpr (by omega)
    have hb {j : Nat} (hj : j ≤ numFactors bounds) : bounds[j]? = some (cutA bounds j, cutB bounds j) := by
      have hj := h.lt_length hj
      rw [cutA, cutB, List.getD_eq_getElem _ _ hj, List.getElem?_eq_getElem hj]
    rw [outputLayout, if_pos hlt, hd]
    simp only [required, pure_bind, hf k hk _ hm, hb hk.le, hb hk]
    have happ (xs : List Nat) : ks ++ k :: xs = (ks ++ [k]) ++ xs := by simp
    have hi := @hi fuel (ks ++ [k]) (fun j hj => hr j (.tail _ hj)) (Nat.lt_of_succ_lt_succ hfuel)
    rw [← happ] at hi
    simpa [length_factorBlock, factorBlock] using hi

end OutputLayout

end Shape
