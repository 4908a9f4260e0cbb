import Mathlib.Data.List.GetD
import XlaModel.Sharding.Theorems.Transpose.Decanonicalize
import XlaModel.Lib.PermutedView
import XlaModel.Sharding.Transpose

namespace Sharding.IotaTileAssignment.Transpose

open View FullyDecanonicalize

variable {es : List (Nat × Nat)} {blocks blocks' blocks'' : List (List Nat)} {info info' info'' : Info}
  {transposePerm : List Nat} {i j k target : Nat}

section Swap

variable {xs ys zs : List Nat}

theorem swap_perm (hi : i < xs.length) (hj : j < xs.length) : (swap xs i j).Perm xs := by
  rw [swap, List.getD_eq_getElem _ _ hi, List.getD_eq_getElem _ _ hj]
  exact List.set_set_perm hi hj

@[simp]
theorem length_swap : (swap xs i j).length = xs.length := by
  simp [swap]

theorem getD_swap (hi : i < xs.length) (hj : j < xs.length) :
    (swap xs i j).getD k 0 = if k = j then xs.getD i 0 else if k = i then xs.getD j 0 else xs.getD k 0 := by
  by_cases hkj : k = j
  case pos => simp [swap, hkj, hj]
  case neg =>
    rw [if_neg hkj, swap, List.getD_eq_getElem?_getD, List.getElem?_set_ne (Ne.symm hkj)]
    by_cases hki : k = i
    case pos => simp [hki, hi]
    case neg => simp [hki, List.getElem?_set_ne (Ne.symm hki)]

theorem swap_append (hi : i < ys.length) (hj : j < ys.length) :
    swap (xs ++ ys ++ zs) (xs.length + i) (xs.length + j) = xs ++ swap ys i j ++ zs := by
  have hg (k : Nat) (hk : k < ys.length) : (xs ++ ys ++ zs).getD (xs.length + k) 0 = ys.getD k 0 := by
    simp [List.getElem?_append_right, List.getElem?_append_left, hk]
  rw [swap, hg i hi, hg j hj, swap, List.append_assoc, List.set_append_right _ _ (by omega),
    List.set_append_right _ _ (by omega), Nat.add_sub_cancel_left, Nat.add_sub_cancel_left,
    List.set_append_left _ _ hi, List.set_append_left _ _ (by simpa using hj), List.append_assoc]

-- Swapping two dimensions of a block permutes the block.
theorem swap_flatten {d : Nat} (hd : d < blocks.length) (hi : i ∈ block blocks d) (hj : j ∈ block blocks d) :
    ∃ blocks', List.Forall₂ List.Perm blocks blocks' ∧ swap blocks.flatten i j = blocks'.flatten := by
  rw [block, List.getD_eq_getElem _ _ hd, List.mem_range'_1] at hi hj
  obtain ⟨i, rfl⟩ := Nat.exists_eq_add_of_le hi.1
  obtain ⟨j, rfl⟩ := Nat.exists_eq_add_of_le hj.1
  have hi : i < blocks[d].length := by omega
  have hj : j < blocks[d].length := by omega
  refine ⟨blocks.take d ++ swap blocks[d] i j :: blocks.drop (d + 1), ?_, ?_⟩
  · conv => arg 2; rw [← List.take_append_drop d blocks, List.drop_eq_getElem_cons hd]
    refine List.rel_append ?_ (.cons (swap_perm hi hj).symm ?_)
    all_goals exact List.forall₂_same.mpr fun _ _ => .refl _
  · rw [flatten_eq_append hd, first, swap_append hi hj]
    simp

end Swap

-- The split dimensions in the order in which they are grouped.
structure Arranged (es : List (Nat × Nat)) (blocks : List (List Nat)) (info : Info) : Prop where
  dims     : info.newReshapeDims = blocks.flatten
  appended : Appended blocks.length es info
  lt       : ∀ e ∈ es, e.2 < blocks.length
  mem      : ∀ e ∈ es, e.1 ∈ block blocks e.2
  perm     : (es.map Prod.fst).Perm (List.range blocks.flatten.length)

theorem map_fst_entries : (entries transposePerm blocks).map Prod.fst = transposePerm.flatMap (block blocks) := by
  induction transposePerm <;> simp_all [entries, Function.comp_def]

theorem Arranged.of_splits (hp : transposePerm.Perm (List.range blocks.length)) (h : Splits transposePerm blocks info) :
    Arranged (entries transposePerm blocks) blocks info where
  dims     := h.dims
  appended := h.appended
  lt e he  := by
    simp only [entries, List.mem_flatMap, List.mem_map] at he
    obtain ⟨d, hd, x, _, rfl⟩ := he
    exact List.mem_range.mp (hp.mem_iff.mp hd)
  mem e he := by
    simp only [entries, List.mem_flatMap, List.mem_map] at he
    obtain ⟨d, _, x, hx, rfl⟩ := he
    exact hx
  perm     := by
    rw [map_fst_entries]
    exact flatMap_block_perm hp

theorem map_length_eq (h : List.Forall₂ List.Perm blocks blocks') : blocks.map List.length = blocks'.map List.length := by
  induction h
  case nil           => rfl
  case cons hp _ hi  => simp [hp.length_eq, hi]

theorem map_prod_eq (h : List.Forall₂ List.Perm blocks blocks') : blocks.map List.prod = blocks'.map List.prod := by
  induction h
  case nil          => rfl
  case cons hp _ hi => simp [hp.prod_eq, hi]

theorem forall₂_perm_trans (h : List.Forall₂ List.Perm blocks blocks') (h' : List.Forall₂ List.Perm blocks' blocks'') :
    List.Forall₂ List.Perm blocks blocks'' := by
  induction h generalizing blocks''
  case nil => exact h'
  case cons hp _ hi =>
    cases h'
    case cons hp' h' => exact .cons (hp.trans hp') (hi h')

def factor (info : Info) (k : Nat) : Nat :=
  info.newReshapeDims.getD (info.newTransposePerm.getD k 0) 0

namespace Arranged

variable (h : Arranged es blocks info)
include h

theorem length_flatten : blocks.flatten.length = es.length := by
  simpa using h.perm.length_eq.symm

theorem congr (hb : List.Forall₂ List.Perm blocks blocks') (hd : info'.newReshapeDims = blocks'.flatten)
    (ha : Appended blocks.length es info') : Arranged es blocks' info' := by
  have hl := map_length_eq hb
  have hl' : blocks.length = blocks'.length := List.Forall₂.length_eq hb
  refine ⟨hd, hl' ▸ ha, fun e he => hl' ▸ h.lt e he, fun e he => block_congr hl ▸ h.mem e he, ?_⟩
  have hp := h.perm
  rwa [List.length_flatten, hl, ← List.length_flatten] at hp

theorem perm_getD (hk : k < es.length) : info.newTransposePerm.getD k 0 = es[k].1 := by
  rw [h.appended.perm, List.getD_eq_getElem _ _ (by simpa), List.getElem_map]

theorem original_getD (hk : k < es.length) : info.newTransposePermIdxToOriginalReshapeDim.getD k 0 = es[k].2 := by
  rw [h.appended.original, List.getD_eq_getElem _ _ (by simpa), List.getElem_map]

theorem getElem_lt (hk : k < es.length) : es[k].1 < info.newReshapeDims.length := by
  rw [h.dims]
  exact List.mem_range.mp (h.perm.mem_iff.mp (List.mem_map_of_mem (List.getElem_mem hk)))

theorem getElem_inj (hj : j < es.length) (hk : k < es.length) : es[j].1 = es[k].1 ↔ j = k := by
  have hn : (es.map Prod.fst).Nodup := h.perm.nodup_iff.mpr List.nodup_range
  have hj' : j < (es.map Prod.fst).length := by simpa
  have hk' : k < (es.map Prod.fst).length := by simpa
  have : (es.map Prod.fst)[j] = (es.map Prod.fst)[k] ↔ j = k := hn.getElem_inj_iff
  simpa using this

theorem factor_eq (hk : k < es.length) : factor info k = info.newReshapeDims.getD es[k].1 0 := by
  rw [factor, h.perm_getD hk]

theorem factor_mem (hk : k < es.length) : ∃ ps ∈ blocks, factor info k ∈ ps := by
  have hm : factor info k ∈ blocks.flatten := by
    rw [h.factor_eq hk, List.getD_eq_getElem _ _ (h.getElem_lt hk), ← h.dims]
    exact List.getElem_mem _
  exact List.mem_flatten.mp hm

end Arranged

-- The dimensions from the `k`-th entry on are rearranged.
structure Advances (es : List (Nat × Nat)) (k : Nat) (blocks blocks' : List (List Nat)) (info info' : Info) : Prop where
  perm     : List.Forall₂ List.Perm blocks blocks'
  arranged : Arranged es blocks' info'
  before   : ∀ j < k, factor info' j = factor info j

namespace Advances

theorem refl (h : Arranged es blocks info) (k : Nat) : Advances es k blocks blocks info info where
  perm          := List.forall₂_same.mpr fun _ _ => .refl _
  arranged      := h
  before _ _    := rfl

theorem trans (h : Advances es k blocks blocks' info info') (h' : Advances es k' blocks' blocks'' info' info'')
    (hk : k ≤ k') : Advances es k blocks blocks'' info info'' where
  perm        := forall₂_perm_trans h.perm h'.perm
  arranged    := h'.arranged
  before j hj := (h'.before j (by omega)).trans (h.before j hj)

end Advances

-- No dimension from the `k`-th entry on that belongs to the same original dimension divides the target.
def Stuck (es : List (Nat × Nat)) (info : Info) (target k : Nat) : Prop :=
  ∀ c, k ≤ c → ∀ (hc : c < es.length) (hk : k < es.length), es[c].2 = es[k].2 → ¬factor info c ∣ target

namespace Arranged

variable (h : Arranged es blocks info) (hk : k < es.length)
include h hk

theorem stuck_of_none (hg : generateCandidate info target k = none) : Stuck es info target k := by
  intro c hkc hc _ ho hd
  have hd := Nat.mod_eq_zero_of_dvd hd
  rw [factor] at hd
  rw [generateCandidate] at hg
  split_ifs at hg with hn
  simp only [Option.bind_eq_bind, Option.pure_def, Option.bind_eq_none_iff, reduceCtorEq, imp_false] at hg
  have hne : k ≠ c := fun he => hn (he ▸ hd)
  have hm : c ∈ info.originalReshapeDimToNewTransposePermIndices.getD es[k].2 [] := by
    rw [h.appended.indices]
    simp [hc, ho]
  cases hf : List.find? _ _
  case some c' => exact hg c' hf
  case none =>
    rw [List.find?_eq_none, h.original_getD hk] at hf
    have := hf c hm
    simp only [decide_eq_true_eq, not_and] at this
    exact this (by omega) hd

theorem advances_swap {c : Nat} (hkc : k < c) (hc : c < es.length) (ho : es[c].2 = es[k].2) :
    ∃ blocks', Advances es k blocks blocks' info
        { info with newReshapeDims := swap info.newReshapeDims es[k].1 es[c].1 } ∧
      factor { info with newReshapeDims := swap info.newReshapeDims es[k].1 es[c].1 } k = factor info c := by
  have hm : es[c].1 ∈ block blocks es[k].2 := ho ▸ h.mem _ (List.getElem_mem hc)
  obtain ⟨blocks', hp, hf⟩ := swap_flatten (h.lt _ (List.getElem_mem hk)) (h.mem _ (List.getElem_mem hk)) hm
  have ha : Arranged es blocks' { info with newReshapeDims := swap info.newReshapeDims es[k].1 es[c].1 } :=
    h.congr hp (h.dims ▸ hf) ⟨h.appended.perm, h.appended.original, h.appended.length, h.appended.indices⟩
  have hs (j : Nat) (hj : j < es.length) :
      factor { info with newReshapeDims := swap info.newReshapeDims es[k].1 es[c].1 } j =
        if j = c then factor info k else if j = k then factor info c else factor info j := by
    rw [ha.factor_eq hj, getD_swap (h.getElem_lt hk) (h.getElem_lt hc), h.factor_eq hk, h.factor_eq hc, h.factor_eq hj]
    simp only [h.getElem_inj hj hc, h.getElem_inj hj hk]
  refine ⟨blocks', ⟨hp, ha, fun j hj => ?_⟩, ?_⟩
  · rw [hs j (by omega), if_neg (by omega), if_neg (by omega)]
  · rw [hs k hk, if_neg (by omega), if_pos rfl]

theorem advances_of_some {r : Nat} (hg : generateCandidate info target k = some (r, info')) :
    r = es[k].1 ∧ ∃ blocks', Advances es k blocks blocks' info info' ∧ factor info' k ∣ target := by
  rw [generateCandidate] at hg
  split_ifs at hg with hd
  case pos =>
    obtain ⟨rfl, rfl⟩ := Prod.mk.inj (Option.some.inj hg)
    exact ⟨h.perm_getD hk, blocks, .refl h k, Nat.dvd_of_mod_eq_zero hd⟩
  case neg =>
    simp only [Option.bind_eq_bind, Option.pure_def, Option.bind_eq_some_iff, Option.some.injEq, Prod.mk.injEq] at hg
    obtain ⟨c, hf, rfl, rfl⟩ := hg
    have hm := List.mem_of_find?_eq_some hf
    have hc := List.find?_some hf
    rw [h.original_getD hk, h.appended.indices, List.getElem?_map, Option.map_eq_some_iff] at hm
    obtain ⟨e, he, ho⟩ := hm
    obtain ⟨hlt, rfl⟩ := List.getElem?_eq_some_iff.mp he
    simp only [decide_eq_true_eq] at hc
    obtain ⟨blocks', ha, hs⟩ := h.advances_swap hk hc.1 hlt ho
    rw [h.perm_getD hk, h.perm_getD hlt]
    refine ⟨rfl, blocks', ha, hs ▸ Nat.dvd_of_mod_eq_zero hc.2⟩

end Arranged

section Collect

variable {s s' : GroupState} {group : List Nat} {target' : Nat}

-- The product of the dimensions of a group.
def groupSize (info : Info) (group : List Nat) : Nat :=
  (group.map (info.newReshapeDims.getD · 0)).prod

theorem Advances.groupSize_eq (h : Advances es k blocks blocks' info info') (ha : Arranged es blocks info)
    {js : List Nat} (hj : ∀ j ∈ js, j < k ∧ j < es.length) :
    groupSize info' (js.map fun j => (es.getD j default).1) = groupSize info (js.map fun j => (es.getD j default).1) := by
  rw [groupSize, groupSize, List.map_map, List.map_map]
  congr 1
  refine List.map_congr_left fun j hj' => ?_
  obtain ⟨hjk, hlt⟩ := hj j hj'
  have := h.before j hjk
  rw [ha.factor_eq hlt, h.arranged.factor_eq hlt] at this
  simpa [hlt] using this

-- The next entries form a group, and the rest of the target is not divided by any entry that may come next.
structure Collected (es : List (Nat × Nat)) (blocks : List (List Nat)) (s : GroupState) (target : Nat)
    (blocks' : List (List Nat)) (group : List Nat) (target' : Nat) (s' : GroupState) : Prop where
  advances : Advances es s.transposePermIdx blocks blocks' s.info s'.info
  le       : s.transposePermIdx ≤ s'.transposePermIdx
  le'      : s'.transposePermIdx ≤ es.length
  eq       : group = (List.range' s.transposePermIdx (s'.transposePermIdx - s.transposePermIdx)).map
    fun j => (es.getD j default).1
  size     : groupSize s'.info group * target' = target
  stuck    : s'.transposePermIdx < es.length → Stuck es s'.info target' s'.transposePermIdx

theorem collect_spec {fuel : Nat} (h : Arranged es blocks s.info) (hf : s.transposePermIdx + fuel = es.length)
    (hc : collect fuel s target = (group, target', s')) :
    ∃ blocks', Collected es blocks s target blocks' group target' s' := by
  induction fuel generalizing s blocks target group
  case zero =>
    obtain ⟨rfl, rfl, rfl⟩ := by simpa [collect] using hc
    exact ⟨blocks, .refl h _, le_rfl, by omega, by simp, by simp [groupSize], by omega⟩
  case succ fuel hi =>
    have hk : s.transposePermIdx < es.length := by omega
    rw [collect] at hc
    cases hg : generateCandidate s.info target s.transposePermIdx
    case none =>
      simp only [hg, Prod.mk.injEq] at hc
      obtain ⟨rfl, rfl, rfl⟩ := hc
      exact ⟨blocks, .refl h _, le_rfl, hk.le, by simp, by simp [groupSize], fun _ => h.stuck_of_none hk hg⟩
    case some r =>
      obtain ⟨r, info⟩ := r
      obtain ⟨rfl, blocks₁, ha, hd⟩ := h.advances_of_some hk hg
      simp only [hg] at hc
      rw [← ha.arranged.factor_eq hk] at hc
      cases hr : collect fuel ⟨info, s.transposePermIdx + 1⟩ (target / factor info s.transposePermIdx)
      case mk rest r =>
      obtain ⟨target₁, s₁⟩ := r
      simp only [hr, Prod.mk.injEq] at hc
      obtain ⟨rfl, rfl, rfl⟩ := hc
      obtain ⟨blocks', hC⟩ := hi (s := ⟨info, s.transposePermIdx + 1⟩) ha.arranged (by simp; omega) hr
      have hle := hC.le
      simp only at hle
      have hx : s₁.info.newReshapeDims.getD es[s.transposePermIdx].1 0 = factor info s.transposePermIdx := by
        have := hC.advances.before s.transposePermIdx (Nat.lt_succ_self _)
        rwa [hC.advances.arranged.factor_eq hk] at this
      refine ⟨blocks', ha.trans hC.advances (Nat.le_succ _), by omega, hC.le', ?_, ?_, hC.stuck⟩
      · have hn : s₁.transposePermIdx - s.transposePermIdx = s₁.transposePermIdx - (s.transposePermIdx + 1) + 1 := by omega
        rw [hC.eq, hn, List.range'_succ, List.map_cons]
        simp [hk]
      · have hz := hC.size
        rw [groupSize] at hz
        rw [groupSize, List.map_cons, List.prod_cons, hx, Nat.mul_assoc, hz, Nat.mul_div_cancel' hd]

end Collect

end Sharding.IotaTileAssignment.Transpose

namespace Sharding.GetTransposeKind

open View

variable {dims perm : List Nat} {prev : Int} {kind : TransposeKind} {i k n : Nat}

section Loop

-- The dimensions that are not of size one are visited in increasing order.
theorem loop_pairwise (h : loop dims perm i prev kind ≠ .transpose) :
    (perm.filter (dims.getD · 0 ≠ 1)).Pairwise (· < ·) ∧ ∀ d ∈ perm, dims.getD d 0 ≠ 1 → prev < d := by
  induction perm generalizing i prev kind
  case nil => simp
  case cons d perm hi =>
    rw [loop] at h
    simp only [List.mem_cons, forall_eq_or_imp]
    by_cases h₁ : dims.getD d 0 = 1
    case pos =>
      rw [if_pos h₁] at h
      obtain ⟨hp, hl⟩ := hi h
      exact ⟨by rwa [List.filter_cons_of_neg (by simpa using h₁)], fun hn => absurd h₁ hn, hl⟩
    case neg =>
      rw [if_neg h₁] at h
      split_ifs at h
      case pos => exact absurd rfl h
      case neg =>
        obtain ⟨hp, hl⟩ := hi h
        refine ⟨?_, fun _ => by omega, fun e he hn => ?_⟩
        · rw [List.filter_cons_of_pos (by simpa using h₁), List.pairwise_cons]
          refine ⟨fun e he => ?_, hp⟩
          rw [List.mem_filter] at he
          exact Int.ofNat_lt.mp (hl e he.1 (by simpa using he.2))
        · have := hl e he hn
          omega

theorem loop_reshape_ne_noop : loop dims perm i prev .reshape ≠ .noop := by
  induction perm generalizing i prev
  case nil => simp [loop]
  case cons d perm hi =>
    rw [loop]
    split_ifs
    all_goals simp [hi]

theorem loop_eq_noop (h : loop dims perm i prev .noop = .noop) (hk : k < perm.length) (hd : dims.getD perm[k] 0 = 1) :
    perm[k] = i + k ∨ dims.getD (i + k) 0 = 1 := by
  induction perm generalizing i prev k
  case nil => simp at hk
  case cons d perm hi =>
    rw [loop] at h
    cases k
    case zero =>
      rw [List.getElem_cons_zero] at hd ⊢
      rw [if_pos hd] at h
      split_ifs at h with hn
      case pos => exact absurd h loop_reshape_ne_noop
      case neg => simpa [imp_iff_or_not, or_comm] using hn
    case succ k =>
      rw [List.getElem_cons_succ] at hd ⊢
      have hk : k < perm.length := by simpa using hk
      rw [show i + (k + 1) = i + 1 + k by omega]
      split_ifs at h with h₁ h₂
      case pos => exact absurd h loop_reshape_ne_noop
      case neg => exact hi h hk hd
      case neg => exact hi h hk hd

end Loop

variable (hp : perm.Perm (List.range dims.length))
include hp

theorem filter_eq (h : getTransposeKind dims perm ≠ .transpose) :
    perm.filter (dims.getD · 0 ≠ 1) = (List.range dims.length).filter (dims.getD · 0 ≠ 1) :=
  (hp.filter _).eq_of_pairwise (fun _ _ _ _ h₁ h₂ => absurd h₁ h₂.asymm) (loop_pairwise h).1
    (List.pairwise_lt_range.filter _)

-- Moving dimensions of size one does not change the order of the elements.
theorem same_rowMajor (h : getTransposeKind dims perm ≠ .transpose) :
    Same (permuted dims perm) (permuted dims (List.range dims.length)) := by
  have hs {perm : List Nat} (hp : perm.Perm (List.range dims.length)) :
      (permuted dims perm).filter (·.size ≠ 1) = (perm.filter (dims.getD · 0 ≠ 1)).map (axis dims) := by
    rw [permuted, List.filter_map]
    congr 1
    refine List.filter_congr fun d hd => ?_
    have : d < dims.length := List.mem_range.mp (hp.mem_iff.mp hd)
    simp [axis, this]
  have hf := same_filter (permuted dims perm)
  rw [hs hp, filter_eq hp h, ← hs (.refl _)] at hf
  exact hf.symm.trans (same_filter _)

theorem offset_eq (h : getTransposeKind dims perm ≠ .transpose) (hk : k < dims.prod) :
    offset (permuted dims perm) k = k := by
  rw [(same_rowMajor hp h).offset k (by rwa [numElements_permuted hp]), offset_rowMajor hk]

theorem filter_comp_eq (h : getTransposeKind dims perm = .noop) :
    (List.range dims.length).filter (fun i => dims.getD i 0 ≠ 1) =
      (List.range dims.length).filter fun i => dims.getD (perm.getD i 0) 0 ≠ 1 := by
  have hl := length_eq_of_perm hp
  have hm : (List.range dims.length).map (perm.getD · 0) = perm := by rw [← hl, map_getD_range]
  refine List.Sublist.eq_of_length ?_ ?_
  · have hi : ∀ i ∈ List.range dims.length, dims.getD i 0 ≠ 1 → dims.getD (perm.getD i 0) 0 ≠ 1 := by
      intro i hi hd hd'
      have hlt : i < perm.length := hl ▸ List.mem_range.mp hi
      rw [List.getD_eq_getElem _ _ hlt] at hd'
      obtain he | he := loop_eq_noop h hlt hd'
      case inl => exact hd (by rwa [he, Nat.zero_add] at hd')
      case inr => exact hd (by rwa [Nat.zero_add] at he)
    rw [show (List.range dims.length).filter (fun i => dims.getD i 0 ≠ 1) =
      ((List.range dims.length).filter fun i => dims.getD (perm.getD i 0) 0 ≠ 1).filter (dims.getD · 0 ≠ 1) by
        rw [List.filter_filter]
        exact List.filter_congr fun i hm => by simpa using hi i hm]
    exact List.filter_sublist
  · have he := filter_eq hp (h ▸ by decide)
    rw [← he]
    conv_lhs => rw [← hm, List.filter_map, List.length_map]
    rfl

theorem map_getD_eq (h : getTransposeKind dims perm = .noop) : perm.map (dims.getD · 0) = dims := by
  have hl := length_eq_of_perm hp
  have hm : (List.range dims.length).map (perm.getD · 0) = perm := by rw [← hl, map_getD_range]
  have hc := filter_comp_eq hp h
  -- The dimensions that are not of size one stay at their position.
  have hf : ∀ i ∈ (List.range dims.length).filter (dims.getD · 0 ≠ 1), perm.getD i 0 = i := by
    have he := filter_eq hp (h ▸ by decide)
    conv_lhs at he => rw [← hm, List.filter_map]
    rw [show (List.range dims.length).filter ((dims.getD · 0 ≠ 1) ∘ (perm.getD · 0)) =
      (List.range dims.length).filter (dims.getD · 0 ≠ 1) from hc.symm] at he
    exact List.map_inj_left.mp (he.trans (List.map_id _).symm)
  refine List.ext_getElem (by simp [hl]) fun i h₁ h₂ => ?_
  have hi : i < perm.length := hl ▸ h₂
  have hr : i ∈ List.range dims.length := List.mem_range.mpr h₂
  rw [List.getElem_map]
  by_cases hd : dims.getD i 0 = 1
  case pos =>
    have hn : i ∉ (List.range dims.length).filter (dims.getD · 0 ≠ 1) := by simpa [List.mem_filter] using fun _ => hd
    rw [hc, List.mem_filter] at hn
    rw [List.getD_eq_getElem _ _ h₂] at hd
    rw [hd, ← List.getD_eq_getElem _ 0 hi]
    by_contra hne
    exact hn ⟨hr, by simpa using hne⟩
  case neg =>
    have := hf i (by simpa [List.mem_filter, h₂] using hd)
    rw [← List.getD_eq_getElem _ 0 hi, this, List.getD_eq_getElem _ _ h₂]

end Sharding.GetTransposeKind
