import XlaModel.Sharding.Theorems.Transpose.Collect

namespace Sharding.IotaTileAssignment.Transpose

open View FullyDecanonicalize

variable {es : List (Nat × Nat)} {blocks blocks' : List (List Nat)} {info info' : Info} {s s' : GroupState}
  {transposePerm targets : List Nat} {groups : List (List Nat)} {k m n target : Nat}

section Product

-- The product of the dimensions of the entries from `k` to `m`.
def factors (info : Info) (k m : Nat) : Nat :=
  ((List.range' k (m - k)).map (factor info)).prod

@[simp]
theorem factors_self : factors info k k = 1 := by
  simp [factors]

theorem factors_mul (h : k ≤ m) (h' : m ≤ n) : factors info k m * factors info m n = factors info k n := by
  obtain ⟨i, rfl⟩ := Nat.exists_eq_add_of_le h
  obtain ⟨j, rfl⟩ := Nat.exists_eq_add_of_le h'
  rw [factors, factors, factors, ← List.prod_append, ← List.map_append, Nat.add_sub_cancel_left, Nat.add_sub_cancel_left,
    List.range'_append_1]
  congr 3
  omega

theorem factors_succ (h : k < m) : factors info k m = factor info k * factors info (k + 1) m := by
  rw [← factors_mul (Nat.le_succ k) h]
  congr 1
  simp [factors]

theorem Advances.factors_eq (h : Advances es k blocks blocks' info info') (hm : m ≤ k) :
    factors info' n m = factors info n m := by
  rw [factors, factors]
  congr 1
  refine List.map_congr_left fun j hj => h.before j ?_
  rw [List.mem_range'_1] at hj
  omega

namespace Arranged

variable (h : Arranged es blocks info)
include h

theorem factors_eq : factors info 0 es.length = blocks.flatten.prod := by
  have hm : (List.range' 0 (es.length - 0)).map (factor info) = (es.map Prod.fst).map (info.newReshapeDims.getD · 0) := by
    refine List.ext_getElem (by simp) fun k h₁ _ => ?_
    have hk : k < es.length := by simpa using h₁
    simp [h.factor_eq hk]
  rw [factors, hm, (h.perm.map _).prod_eq, h.dims, map_getD_range]

theorem factors_pos (hp : ∀ ps ∈ blocks, ∀ p ∈ ps, p.Prime) (hm : m ≤ es.length) : 0 < factors info k m := by
  refine List.prod_pos fun f hf => ?_
  obtain ⟨j, hj, rfl⟩ := List.mem_map.mp hf
  rw [List.mem_range'_1] at hj
  obtain ⟨ps, hps, hf⟩ := h.factor_mem (show j < es.length by omega)
  exact (hp ps hps _ hf).pos

theorem two_le_factors (hp : ∀ ps ∈ blocks, ∀ p ∈ ps, p.Prime) (hk : k < m) (hm : m ≤ es.length) :
    2 ≤ factors info k m := by
  obtain ⟨ps, hps, hf⟩ := h.factor_mem (hk.trans_le hm)
  rw [factors_succ hk]
  exact (hp ps hps _ hf).two_le.trans (Nat.le_mul_of_pos_right _ (h.factors_pos hp hm))

theorem groupSize_eq (hm : m ≤ es.length) :
    groupSize info ((List.range' k (m - k)).map fun j => (es.getD j default).1) = factors info k m := by
  rw [groupSize, List.map_map, factors]
  congr 1
  refine List.map_congr_left fun j hj => ?_
  rw [List.mem_range'_1] at hj
  have hlt : j < es.length := by omega
  rw [h.factor_eq hlt]
  simp [hlt]

end Arranged

theorem prime_of_perm (h : List.Forall₂ List.Perm blocks blocks') (hp : ∀ ps ∈ blocks, ∀ p ∈ ps, p.Prime) :
    ∀ ps ∈ blocks', ∀ p ∈ ps, p.Prime := by
  induction h
  case nil => simp
  case cons hq _ hi =>
    simp only [List.mem_cons, forall_eq_or_imp] at hp ⊢
    exact ⟨fun p hm => hp.1 p (hq.mem_iff.mpr hm), hi hp.2⟩

-- Rearranging the entries from `k` on does not change their product.
theorem Advances.remaining_eq (ha : Arranged es blocks info) (h : Advances es k blocks blocks' info info')
    (hp : ∀ ps ∈ blocks, ∀ p ∈ ps, p.Prime) (hk : k ≤ es.length) :
    factors info' k es.length = factors info k es.length := by
  have hf : factors info 0 k * factors info k es.length = factors info 0 es.length := factors_mul k.zero_le hk
  have hf' : factors info' 0 k * factors info' k es.length = factors info' 0 es.length := factors_mul k.zero_le hk
  rw [ha.factors_eq, List.prod_flatten, map_prod_eq h.perm, ← List.prod_flatten, ← h.arranged.factors_eq, ← hf',
    h.factors_eq le_rfl] at hf
  exact (Nat.eq_of_mul_eq_mul_left (ha.factors_pos hp hk) hf).symm

end Product

-- A successful grouping splits all entries into groups of the sizes that are asked for.
theorem groupReshapeDims_spec (h : Arranged es blocks s.info) (hp : ∀ ps ∈ blocks, ∀ p ∈ ps, p.Prime)
    (hk : s.transposePermIdx ≤ es.length) (h₂ : ∀ target ∈ targets, 2 ≤ target)
    (hr : factors s.info s.transposePermIdx es.length = targets.prod) (hg : groupReshapeDims s targets = some (groups, s')) :
    ∃ blocks', Advances es s.transposePermIdx blocks blocks' s.info s'.info ∧
      groups.flatten = (List.range' s.transposePermIdx (es.length - s.transposePermIdx)).map (fun j => (es.getD j default).1) ∧
      groups.map (groupSize s'.info) = targets := by
  induction targets generalizing s blocks groups
  case nil =>
    obtain ⟨rfl, rfl⟩ := by simpa [groupReshapeDims] using hg
    have hl : s.transposePermIdx = es.length := by
      by_contra hne
      have := h.two_le_factors hp (by omega) le_rfl (k := s.transposePermIdx)
      simp at hr
      omega
    exact ⟨blocks, .refl h _, by simp [hl], rfl⟩
  case cons target targets hi =>
    have ht := h₂ target (.head _)
    have ht' : ∀ target ∈ targets, 2 ≤ target := fun t hm => h₂ t (.tail _ hm)
    have hn : s.info.newReshapeDims.length = es.length := by rw [h.dims, h.length_flatten]
    have hpos : 0 < targets.prod := List.prod_pos fun t hm => Nat.zero_lt_of_lt (ht' t hm)
    rw [groupReshapeDims, hn] at hg
    rw [List.prod_cons] at hr
    have hlt : s.transposePermIdx < es.length := by
      by_contra hne
      rw [Nat.le_antisymm hk (Nat.le_of_not_lt hne), factors_self] at hr
      nlinarith
    rw [if_pos hlt] at hg
    cases hc : collect (es.length - s.transposePermIdx) s target
    case mk group r =>
    obtain ⟨target', s₁⟩ := r
    obtain ⟨blocks₁, hC⟩ := collect_spec h (by omega) hc
    simp only [hc] at hg
    split_ifs at hg with h₁
    obtain rfl : target' = 1 := by simpa using h₁
    cases hg' : groupReshapeDims s₁ targets
    case none => simp [hg'] at hg
    case some r =>
    obtain ⟨groups', s₂⟩ := r
    simp only [hg', Option.bind_eq_bind, Option.bind_some, Option.pure_def, Option.some.injEq, Prod.mk.injEq] at hg
    obtain ⟨rfl, rfl⟩ := hg
    have hz : factors s₁.info s.transposePermIdx s₁.transposePermIdx = target := by
      have := hC.size
      rwa [hC.eq, hC.advances.arranged.groupSize_eq hC.le', Nat.mul_one] at this
    have hr' : factors s₁.info s₁.transposePermIdx es.length = targets.prod := by
      rw [← hC.advances.remaining_eq h hp hk, ← factors_mul hC.le hC.le', hz] at hr
      exact Nat.eq_of_mul_eq_mul_left (by omega) hr
    obtain ⟨blocks', ha, hf, hm⟩ := hi hC.advances.arranged (prime_of_perm hC.advances.perm hp) hC.le' ht' hr' hg'
    refine ⟨blocks', hC.advances.trans ha hC.le, ?_, ?_⟩
    · have hle := hC.le
      have hle' := hC.le'
      rw [List.flatten_cons, hf, hC.eq, ← List.map_append]
      congr 1
      obtain ⟨i, hi⟩ := Nat.exists_eq_add_of_le hle
      rw [hi, Nat.add_sub_cancel_left, List.range'_append_1]
      congr 1
      omega
    · have hj : ∀ j ∈ List.range' s.transposePermIdx (s₁.transposePermIdx - s.transposePermIdx),
          j < s₁.transposePermIdx ∧ j < es.length := fun j hj => by
        have := hC.le'
        rw [List.mem_range'_1] at hj
        omega
      have he := ha.groupSize_eq hC.advances.arranged hj
      rw [List.map_cons, hm, hC.eq, he, hC.advances.arranged.groupSize_eq hC.le', hz]

-- Of two partial products of the lists, one divides the other.
def Interleaves (xs ys : List Nat) : Prop :=
  ∀ i j, (xs.take i).prod ∣ (ys.take j).prod ∨ (ys.take j).prod ∣ (xs.take i).prod

section Interleaves

theorem entries_append (xs ys : List Nat) : entries (xs ++ ys) blocks = entries xs blocks ++ entries ys blocks :=
  List.flatMap_append

theorem entries_take (j : Nat) :
    entries transposePerm blocks = entries (transposePerm.take j) blocks ++ entries (transposePerm.drop j) blocks := by
  rw [← entries_append, List.take_append_drop]

-- The entries up to the end of a block belong to the same original dimension.
theorem exists_block_end (hk : k < (entries transposePerm blocks).length) :
    ∃ j, k < (entries (transposePerm.take j) blocks).length ∧
      ∀ x < (entries (transposePerm.take j) blocks).length, k ≤ x →
        (entries transposePerm blocks)[x]?.map Prod.snd = (entries transposePerm blocks)[k]?.map Prod.snd := by
  induction transposePerm generalizing k
  case nil => simp [entries] at hk
  case cons d transposePerm hi =>
    have hc (perm : List Nat) : entries (d :: perm) blocks = (block blocks d).map (·, d) ++ entries perm blocks := rfl
    rw [hc] at hk
    obtain hlt | hge := Nat.lt_or_ge k (block blocks d).length
    case inl =>
      refine ⟨1, by simpa [hc, entries] using hlt, fun x hx hkx => ?_⟩
      have hx : x < (block blocks d).length := by simpa [hc, entries] using hx
      simp only [hc]
      rw [List.getElem?_append_left (by rwa [List.length_map]), List.getElem?_append_left (by rwa [List.length_map])]
      simp only [List.getElem?_map, Option.map_map]
      rw [List.getElem?_eq_getElem hx, List.getElem?_eq_getElem hlt]
      rfl
    case inr =>
      obtain ⟨i, rfl⟩ := Nat.exists_eq_add_of_le hge
      obtain ⟨j, hj, hs⟩ := hi (k := i) (by simpa using hk)
      refine ⟨j + 1, by simpa [hc] using hj, fun x hx hix => ?_⟩
      obtain ⟨x, rfl⟩ := Nat.exists_eq_add_of_le (hge.trans hix)
      have := hs x (by simpa [hc] using hx) (by omega)
      simp only [hc]
      rw [List.getElem?_append_right (by simp), List.getElem?_append_right (by simp)]
      simpa using this

variable {blocks₀ : List (List Nat)} {reshapeDims : List Nat}

theorem factors_block_end (h : Arranged (entries transposePerm blocks₀) blocks info)
    (hl : blocks₀.map List.length = blocks.map List.length) (ht : ∀ d ∈ transposePerm, d < blocks.length) (j : Nat) :
    factors info 0 (entries (transposePerm.take j) blocks₀).length =
      ((transposePerm.map ((blocks.map List.prod).getD · 1)).take j).prod := by
  have he : entries transposePerm blocks₀ =
      entries (transposePerm.take j) blocks₀ ++ entries (transposePerm.drop j) blocks₀ := entries_take j
  have hle : (entries (transposePerm.take j) blocks₀).length ≤ (entries transposePerm blocks₀).length := by
    rw [he, List.length_append]
    omega
  have hm : (List.range' 0 ((entries (transposePerm.take j) blocks₀).length - 0)).map
      (fun i => ((entries transposePerm blocks₀).getD i default).1) = (transposePerm.take j).flatMap (block blocks) := by
    rw [show block blocks = block blocks₀ from funext fun d => block_congr hl.symm, ← map_fst_entries]
    refine List.ext_getElem (by simp) fun i h₁ h₂ => ?_
    have hi : i < (entries (transposePerm.take j) blocks₀).length := by simpa using h₁
    rw [List.getElem_map, List.getElem_range', List.getElem_map, Nat.zero_add, Nat.one_mul,
      List.getD_eq_getElem _ _ (hi.trans_le hle)]
    simp only [he, List.getElem_append_left hi]
  rw [← h.groupSize_eq hle, hm, groupSize, h.dims, ← List.map_take]
  have ht' : ∀ d ∈ transposePerm.take j, d < blocks.length := fun d hd => ht d (List.mem_of_mem_take hd)
  generalize transposePerm.take j = perm at ht'
  induction perm
  case nil => rfl
  case cons d perm hi =>
    have hd := ht' d (.head _)
    rw [List.flatMap_cons, List.map_append, List.prod_append, hi fun e he => ht' e (.tail _ he), map_block hd,
      List.map_cons, List.prod_cons]
    simp [hd]

variable (hp : ∀ ps ∈ blocks, ∀ p ∈ ps, p.Prime) (ht : ∀ d ∈ transposePerm, d < blocks.length)
  (h₂ : ∀ target ∈ targets, 2 ≤ target) (hl : blocks₀.map List.length = blocks.map List.length)
  (h : Arranged (entries transposePerm blocks₀) blocks s.info)
include hp ht h₂ hl h

theorem interleaves_of_some (hs : s.transposePermIdx = 0)
    (hr : factors s.info 0 (entries transposePerm blocks₀).length = targets.prod)
    (hg : groupReshapeDims s targets = some (groups, s')) :
    Interleaves targets (transposePerm.map ((blocks.map List.prod).getD · 1)) := by
  intro i j
  obtain ⟨blocks', ha, hf, hm⟩ := groupReshapeDims_spec h hp (by omega) h₂ (by rwa [hs]) hg
  have hl' := map_length_eq ha.perm
  have hj := factors_block_end ha.arranged (hl.trans hl') (fun d hd => List.Forall₂.length_eq ha.perm ▸ ht d hd) j
  rw [← map_prod_eq ha.perm] at hj
  have hle : (groups.take i).flatten.length ≤ (entries transposePerm blocks₀).length := by
    have := congrArg List.length hf
    rw [hs, List.length_map, List.length_range', Nat.sub_zero] at this
    conv_lhs at this => rw [← List.take_append_drop i groups, List.flatten_append, List.length_append]
    omega
  have hi : (groups.take i).flatten = (List.range' 0 ((groups.take i).flatten.length - 0)).map
      fun k => ((entries transposePerm blocks₀).getD k default).1 := by
    have hpre : (groups.take i).flatten <+: groups.flatten := by
      conv_rhs => rw [← List.take_append_drop i groups, List.flatten_append]
      exact List.prefix_append ..
    rw [List.prefix_iff_eq_take, hf, hs, ← List.map_take, Nat.sub_zero, ← List.range_eq_range', List.take_range,
      Nat.min_eq_left hle, List.range_eq_range'] at hpre
    conv_lhs => rw [hpre]
    rw [Nat.sub_zero]
  have hi' : factors s'.info 0 (groups.take i).flatten.length = (targets.take i).prod := by
    rw [← ha.arranged.groupSize_eq hle, ← hi, ← hm, ← List.map_take, groupSize, List.map_flatten, List.prod_flatten,
      List.map_map]
    rfl
  rw [← hi', ← hj]
  obtain hlt | hlt := Nat.le_total (groups.take i).flatten.length (entries (transposePerm.take j) blocks₀).length
  case inl => exact .inl ⟨_, (factors_mul (Nat.zero_le _) hlt).symm⟩
  case inr => exact .inr ⟨_, (factors_mul (Nat.zero_le _) hlt).symm⟩

omit h₂ in
-- The entries of the block that come next do not divide the rest of the target.
theorem not_interleaves_of_stuck {target' : Nat} (hk : s.transposePermIdx < (entries transposePerm blocks₀).length)
    (hs : Stuck (entries transposePerm blocks₀) s.info target' s.transposePermIdx) (h₁ : target' ≠ 1) :
    ∃ j, ¬factors s.info 0 s.transposePermIdx * target' ∣
        ((transposePerm.map ((blocks.map List.prod).getD · 1)).take j).prod ∧
      ¬((transposePerm.map ((blocks.map List.prod).getD · 1)).take j).prod ∣
        factors s.info 0 s.transposePermIdx * target' := by
  obtain ⟨j, hkj, hb⟩ := exists_block_end hk
  have hm : (entries (transposePerm.take j) blocks₀).length ≤ (entries transposePerm blocks₀).length := by
    rw [← List.take_append_drop j transposePerm, entries_append, List.take_append_drop, List.length_append]
    omega
  have hc : Nat.Coprime (factors s.info s.transposePermIdx (entries (transposePerm.take j) blocks₀).length) target' := by
    refine Nat.coprime_list_prod_left_iff.mpr fun f hf => ?_
    obtain ⟨x, hx, rfl⟩ := List.mem_map.mp hf
    rw [List.mem_range'_1] at hx
    have hxl : x < (entries transposePerm blocks₀).length := by omega
    obtain ⟨ps, hps, hfp⟩ := h.factor_mem hxl
    have ho := hb x (by omega) hx.1
    rw [List.getElem?_eq_getElem hxl, List.getElem?_eq_getElem hk, Option.map_some, Option.map_some,
      Option.some.injEq] at ho
    exact (Nat.Prime.coprime_iff_not_dvd (hp ps hps _ hfp)).mpr (hs x hx.1 hxl hk ho)
  have h₂ := h.two_le_factors hp hkj hm
  have hpos := h.factors_pos hp hk.le (k := 0)
  refine ⟨j, ?_⟩
  rw [← factors_block_end h hl ht j, ← factors_mul (Nat.zero_le _) hkj.le]
  constructor
  · intro hd
    exact h₁ (Nat.Coprime.eq_one_of_dvd hc.symm (Nat.dvd_of_mul_dvd_mul_left hpos hd))
  · intro hd
    have := Nat.Coprime.eq_one_of_dvd hc (Nat.dvd_of_mul_dvd_mul_left hpos hd)
    omega

-- If the grouping fails, then some target is not compatible with the blocks.
theorem not_interleaves_of_none (hk : s.transposePermIdx ≤ (entries transposePerm blocks₀).length)
    (hr : factors s.info s.transposePermIdx (entries transposePerm blocks₀).length = targets.prod)
    (hg : groupReshapeDims s targets = none) :
    ∃ i j, ¬factors s.info 0 s.transposePermIdx * (targets.take i).prod ∣
        ((transposePerm.map ((blocks.map List.prod).getD · 1)).take j).prod ∧
      ¬((transposePerm.map ((blocks.map List.prod).getD · 1)).take j).prod ∣
        factors s.info 0 s.transposePermIdx * (targets.take i).prod := by
  induction targets generalizing s blocks
  case nil => simp [groupReshapeDims] at hg
  case cons target targets hi =>
    have hpos : 0 < target * targets.prod := by
      rw [← List.prod_cons]
      exact List.prod_pos fun t hm => Nat.zero_lt_of_lt (h₂ t hm)
    have hn : s.info.newReshapeDims.length = (entries transposePerm blocks₀).length := by rw [h.dims, h.length_flatten]
    rw [groupReshapeDims, hn] at hg
    rw [List.prod_cons] at hr
    split_ifs at hg with hlt
    cases hc : collect ((entries transposePerm blocks₀).length - s.transposePermIdx) s target
    case mk group r =>
    obtain ⟨target', s₁⟩ := r
    obtain ⟨blocks₁, hC⟩ := collect_spec h (by omega) hc
    have hp' := prime_of_perm hC.advances.perm hp
    have hl' := hl.trans (map_length_eq hC.advances.perm)
    have ht' : ∀ d ∈ transposePerm, d < blocks₁.length := fun d hd => List.Forall₂.length_eq hC.advances.perm ▸ ht d hd
    have hz : factors s₁.info s.transposePermIdx s₁.transposePermIdx * target' = target := by
      have := hC.size
      rwa [hC.eq, hC.advances.arranged.groupSize_eq hC.le'] at this
    have hr' : factors s₁.info s₁.transposePermIdx (entries transposePerm blocks₀).length = target' * targets.prod := by
      have hq := hC.advances.arranged.factors_pos hp' hC.le' (k := s.transposePermIdx)
      rw [← hC.advances.remaining_eq h hp hk, ← factors_mul hC.le hC.le', ← hz, Nat.mul_assoc] at hr
      exact Nat.eq_of_mul_eq_mul_left hq hr
    have hf : factors s.info 0 s.transposePermIdx * target = factors s₁.info 0 s₁.transposePermIdx * target' := by
      rw [← hz, ← Nat.mul_assoc, ← hC.advances.factors_eq le_rfl, factors_mul (Nat.zero_le _) hC.le]
    simp only [hc] at hg
    rw [map_prod_eq hC.advances.perm]
    split_ifs at hg with h₁
    case pos =>
      have hlt' : s₁.transposePermIdx < (entries transposePerm blocks₀).length := by
        by_contra hge
        rw [Nat.le_antisymm hC.le' (Nat.le_of_not_lt hge), factors_self] at hr'
        exact h₁ (Nat.eq_one_of_mul_eq_one_right hr'.symm)
      obtain ⟨j, hj⟩ := not_interleaves_of_stuck hp' ht' hl' hC.advances.arranged hlt' (hC.stuck hlt') h₁
      refine ⟨1, j, ?_⟩
      rwa [List.take_succ_cons, List.take_zero, List.prod_singleton, hf]
    case neg =>
      obtain rfl : target' = 1 := by simpa using h₁
      cases hg' : groupReshapeDims s₁ targets
      case some r => simp [hg'] at hg
      case none =>
      obtain ⟨i, j, hj⟩ := hi hp' ht' (fun t hm => h₂ t (.tail _ hm)) hl' hC.advances.arranged hC.le'
        (by rw [hr', Nat.one_mul]) hg'
      refine ⟨i + 1, j, ?_⟩
      rwa [List.take_succ_cons, List.prod_cons, ← Nat.mul_assoc, hf, Nat.mul_one]

end Interleaves

end Sharding.IotaTileAssignment.Transpose
