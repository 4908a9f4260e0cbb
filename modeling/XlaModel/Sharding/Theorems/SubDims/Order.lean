import XlaModel.Lib.BlockView
import XlaModel.Sharding.Theorems.SubDims.FactorSequence

namespace Sharding.GetOrderedSubDims

open View ExtractCommonFactorSequence

variable {blocks : List (List Nat)} {acc d dims k : Nat}

section Counter

-- A counter that walks over the factors of the blocks from the last one to the first one: the number of the
-- remaining factors, the number of the remaining blocks and the product of the factors of the current block.
inductive At (blocks : List (List Nat)) : Nat → Nat → Nat → Prop
  | boundary {d : Nat} : d ≤ blocks.length → At blocks (first blocks d) d 1
  | inside {d k : Nat} : d < blocks.length → first blocks d < k → k < first blocks (d + 1) →
    At blocks k (d + 1) ((blocks.getD d []).drop (k - first blocks d)).prod

-- The counter in front of the factor at position `k`, which belongs to block `d`.
structure Reads (blocks : List (List Nat)) (k d acc : Nat) : Prop where
  lt  : d < blocks.length
  mem : k ∈ block blocks d
  acc : acc = ((blocks.getD d []).drop (k + 1 - first blocks d)).prod

theorem getD_map_prod (hd : d < blocks.length) : (blocks.map List.prod).getD d 0 = (blocks.getD d []).prod := by
  simp [hd]

theorem Reads.getElem (h : Reads blocks k d acc) :
    k - first blocks d < (blocks.getD d []).length ∧
      blocks.flatten.getD k 0 = (blocks.getD d []).getD (k - first blocks d) 0 := by
  have hm := mem_block_iff.mp h.mem
  rw [first_succ] at hm
  have hlt : k - first blocks d < (blocks.getD d []).length := by omega
  refine ⟨hlt, ?_⟩
  conv_rhs => rw [List.getD_eq_getElem _ _ h.lt, List.getD_eq_getElem?_getD, ←map_block h.lt 0]
  rw [List.getElem?_map, block, List.getElem?_range' hlt, Nat.one_mul, Nat.add_sub_cancel' hm.1]
  rfl

theorem Reads.mul (h : Reads blocks k d acc) :
    acc * blocks.flatten.getD k 0 = ((blocks.getD d []).drop (k - first blocks d)).prod := by
  obtain ⟨hlt, he⟩ := h.getElem
  have hm := mem_block_iff.mp h.mem
  rw [he, h.acc, List.drop_eq_getElem_cons hlt, List.prod_cons, List.getD_eq_getElem _ _ hlt, mul_comm,
    Nat.sub_add_comm hm.1]

section Factors

variable (h₂ : ∀ f ∈ blocks.flatten, 2 ≤ f)
include h₂

theorem two_le_of_mem_block {f : Nat} (hf : f ∈ blocks.getD d []) : 2 ≤ f := by
  by_cases hd : d < blocks.length
  case pos =>
    rw [List.getD_eq_getElem _ _ hd] at hf
    exact h₂ f (List.mem_flatten_of_mem (List.getElem_mem hd) hf)
  case neg =>
    rw [List.getD_eq_default _ _ (not_lt.mp hd)] at hf
    simp at hf

theorem prod_eq_one {xs : List Nat} (hx : ∀ x ∈ xs, x ∈ blocks.getD d []) (h : xs.prod = 1) : xs = [] :=
  eq_nil_of_prod (fun h₁ => absurd (two_le_of_mem_block h₂ (hx 1 h₁)) (by decide)) h

theorem skipOnes_of_boundary (hd : d ≤ blocks.length) (hk : first blocks d = k + 1) :
    ∃ e, skipOnes (blocks.map List.prod) d = e + 1 ∧ first blocks d = first blocks (e + 1) ∧ Reads blocks k e 1 := by
  induction d
  case zero => simp at hk
  case succ d hi =>
    rw [first_succ] at hk
    rw [skipOnes, getD_map_prod hd]
    by_cases hb : blocks.getD d [] = []
    case pos =>
      rw [hb, List.prod_nil, if_pos rfl]
      rw [hb, List.length_nil] at hk
      obtain ⟨e, hs, hf, hr⟩ := hi (Nat.le_of_succ_le hd) hk
      refine ⟨e, hs, ?_, hr⟩
      rw [first_succ, hb]
      exact hf
    case neg =>
      have hl := List.length_pos_of_ne_nil hb
      rw [if_neg fun h => hb (prod_eq_one h₂ (fun _ h => h) h)]
      refine ⟨d, rfl, rfl, hd, mem_block_iff.mpr ?mem, ?prod⟩
      case mem =>
        rw [first_succ]
        omega
      case prod => rw [←hk, Nat.add_sub_cancel_left, List.drop_length, List.prod_nil]

theorem skipOnes_at (h : At blocks (k + 1) dims acc) :
    ∃ d, skipOnes (blocks.map List.prod) dims = d + 1 ∧ first blocks dims = first blocks (d + 1) ∧
      Reads blocks k d acc := by
  generalize hn : k + 1 = n at h
  cases h
  case boundary hd => exact skipOnes_of_boundary h₂ hd hn.symm
  case inside d hd hk hk' =>
    subst hn
    refine ⟨d, ?_, rfl, hd, mem_block_iff.mpr ⟨Nat.le_of_lt_succ hk, Nat.lt_of_succ_lt hk'⟩, rfl⟩
    have hb : blocks.getD d [] ≠ [] := by
      intro hb
      rw [first_succ, hb, List.length_nil] at hk'
      omega
    rw [skipOnes, getD_map_prod hd, if_neg fun h => hb (prod_eq_one h₂ (fun _ h => h) h)]

theorem Reads.done_iff (h : Reads blocks k d acc) :
    (blocks.map List.prod).getD d 0 = acc * blocks.flatten.getD k 0 ↔ k = first blocks d := by
  have hm := mem_block_iff.mp h.mem
  rw [getD_map_prod h.lt, h.mul]
  constructor
  case mp =>
    intro hp
    have hpos : 0 < ((blocks.getD d []).drop (k - first blocks d)).prod :=
      List.prod_pos fun x hx => Nat.zero_lt_of_lt (two_le_of_mem_block h₂ (List.mem_of_mem_drop hx))
    conv_lhs at hp => rw [←List.prod_take_mul_prod_drop _ (k - first blocks d)]
    have hone := Nat.eq_of_mul_eq_mul_right hpos (hp.trans (one_mul _).symm)
    have ht := prod_eq_one h₂ (fun _ => List.mem_of_mem_take) hone
    have hlt := h.getElem.1
    rw [List.take_eq_nil_iff] at ht
    obtain ht | ht := ht
    case inl => omega
    case inr =>
      rw [ht] at hlt
      exact absurd hlt (Nat.not_lt_zero _)
  case mpr =>
    rintro rfl
    rw [Nat.sub_self, List.drop_zero]

omit h₂ in
theorem Reads.at (h : Reads blocks k d acc) :
    At blocks k (if k = first blocks d then d else d + 1)
      (if k = first blocks d then 1 else acc * blocks.flatten.getD k 0) := by
  have hm := mem_block_iff.mp h.mem
  by_cases hk : k = first blocks d
  case pos =>
    rw [if_pos hk, if_pos hk, hk]
    exact .boundary h.lt.le
  case neg =>
    rw [if_neg hk, if_neg hk, h.mul]
    exact .inside h.lt (lt_of_le_of_ne hm.1 (Ne.symm hk)) hm.2

omit h₂ in
theorem skipOnes_of_ne_one {sizes : List Nat} (h₁ : 1 ∉ sizes) (hd : d ≤ sizes.length) : skipOnes sizes d = d := by
  cases d
  case zero => rfl
  case succ d =>
    rw [skipOnes, if_neg]
    rw [List.getD_eq_getElem _ _ hd]
    exact fun h => h₁ (h ▸ List.getElem_mem hd)

end Factors
end Counter

section Loop

variable {tiles devices : List (List Nat)} {transposePerm : List Nat} {s : State}

-- The factors are grouped both into the tile dimensions and into the permuted reshape dimensions.
structure Common (tiles devices : List (List Nat)) : Prop where
  flatten : tiles.flatten = devices.flatten
  factors : ∀ f ∈ tiles.flatten, 2 ≤ f
  no_ones : 1 ∉ devices.map List.prod

-- The sub-dimension of the factor at position `k`.
def info (tiles devices : List (List Nat)) (transposePerm : List Nat) (k : Nat) : SubDimInfo where
  tileDimIndex    := blockIndex tiles k
  tileSubDimIndex := first tiles (blockIndex tiles k + 1) - (k + 1)
  reshapeDimIndex := transposePerm.getD (blockIndex devices k) 0
  size            := tiles.flatten.getD k 0

structure Ready (tiles devices : List (List Nat)) (k : Nat) (s : State) : Prop where
  tile   : At tiles k s.tileDims s.accTileSize
  device : At devices k s.transPerms s.accDeviceSize
  subDim : s.subDim = first tiles s.tileDims - k

theorem At.le_length (h : At blocks k dims acc) : dims ≤ blocks.length := by
  cases h
  case boundary h   => exact h
  case inside h _ _ => exact h

theorem Ready.step (h : Common tiles devices) (hs : Ready tiles devices (k + 1) s) :
    ∃ s', step (tiles.map List.prod) (devices.map List.prod) transposePerm s (tiles.flatten.getD k 0) = some s' ∧
      Ready tiles devices k s' ∧ s'.subDims = s.subDims ++ [info tiles devices transposePerm k] := by
  obtain ⟨t, hst, hft, ht⟩ := skipOnes_at h.factors hs.tile
  obtain ⟨d, hsd, _, hd⟩ := skipOnes_at (h.flatten ▸ h.factors) hs.device
  rw [skipOnes_of_ne_one h.no_ones (by simpa using hs.device.le_length)] at hsd
  simp only [GetOrderedSubDims.step, hst, hsd, ht.done_iff h.factors]
  rw [h.flatten]
  simp only [hd.done_iff (h.flatten ▸ h.factors)]
  refine ⟨_, rfl, ⟨?position, hd.at, ?mem⟩, ?flatten⟩
  case position =>
    have := ht.at
    rwa [h.flatten] at this
  case mem =>
    have hm := mem_block_iff.mp ht.mem
    have hsub := hs.subDim
    dsimp only
    split <;> omega
  case flatten =>
    rw [info, blockIndex_eq ht.lt ht.mem, blockIndex_eq hd.lt hd.mem, hs.subDim, hft, h.flatten]

theorem Ready.start (h : Common tiles devices) :
    Ready tiles devices tiles.flatten.length ⟨tiles.length, devices.length, 1, 1, 0, []⟩ := by
  have ht := At.boundary (le_refl tiles.length)
  have hd := At.boundary (le_refl devices.length)
  rw [first, List.take_length] at ht hd
  refine ⟨ht, h.flatten ▸ hd, ?_⟩
  rw [first, List.take_length, Nat.sub_self]

-- By induction on the number of the remaining factors.
theorem Ready.steps (h : Common tiles devices) (hs : Ready tiles devices k s) (hk : k ≤ tiles.flatten.length) :
    ∃ s', (tiles.flatten.take k).reverse.foldlM
        (GetOrderedSubDims.step (tiles.map List.prod) (devices.map List.prod) transposePerm) s = some s' ∧
      s'.subDims = s.subDims ++ ((List.range k).map (info tiles devices transposePerm)).reverse := by
  induction k generalizing s
  case zero => exact ⟨s, rfl, by simp⟩
  case succ k hi =>
    obtain ⟨s₁, hs₁, hr, ho⟩ := @Ready.step k tiles devices transposePerm s h hs
    obtain ⟨s', hs', ho'⟩ := hi hr (Nat.le_of_succ_le hk)
    refine ⟨s', ?step, ?order⟩
    case step =>
      rw [List.getD_eq_getElem _ _ hk] at hs₁
      rw [List.take_succ_eq_append_getElem hk, List.reverse_append, List.reverse_singleton, List.singleton_append,
        List.foldlM_cons, hs₁]
      exact hs'
    case order => simp [ho', ho, List.range_succ]

end Loop
end Sharding.GetOrderedSubDims

namespace Sharding.GetOrderedSubDims

open View ExtractCommonFactorSequence ConsecutiveFactors

variable {tiles devices blocks : List (List Nat)} {transposePerm : List Nat} {d j k : Nat}

section Merge

theorem groups_map_prod (blocks : List (List Nat)) : Groups blocks.flatten (blocks.map List.prod) :=
  groups_iff.mpr ⟨blocks, rfl, rfl⟩

-- Two factors of one block can be replaced by their product.
theorem groups_merge (hd : d < blocks.length) (hk : k ∈ block blocks d) (hk' : k + 1 ∈ block blocks d) :
    ∃ x y, blocks.flatten = blocks.flatten.take k ++ x :: y :: blocks.flatten.drop (k + 2) ∧
      Groups (blocks.flatten.take k ++ x * y :: blocks.flatten.drop (k + 2)) (blocks.map List.prod) := by
  rw [mem_block_iff, first_succ, List.getD_eq_getElem _ _ hd] at hk hk'
  obtain ⟨i, rfl⟩ := Nat.exists_eq_add_of_le hk.1
  have hi : i + 1 < blocks[d].length := by omega
  have hb : blocks[d] = blocks[d].take i ++ blocks[d][i] :: blocks[d][i + 1] :: blocks[d].drop (i + 2) := by
    rw [←List.drop_eq_getElem_cons hi, ←List.drop_eq_getElem_cons (Nat.lt_of_succ_lt hi), List.take_append_drop]
  have hf : blocks.flatten = ((blocks.take d).flatten ++ blocks[d].take i) ++ blocks[d][i] :: blocks[d][i + 1] ::
      (blocks[d].drop (i + 2) ++ (blocks.drop (d + 1)).flatten) := by
    conv_lhs => rw [flatten_eq_append hd, hb]
    simp only [List.append_assoc, List.cons_append]
  have hl : ((blocks.take d).flatten ++ blocks[d].take i).length = first blocks d + i := by
    rw [List.length_append, List.length_take, Nat.min_eq_left (by omega), first]
  have ht : blocks.flatten.take (first blocks d + i) = (blocks.take d).flatten ++ blocks[d].take i := by
    rw [hf, List.take_left' hl]
  have hdrop : blocks.flatten.drop (first blocks d + i + 2) =
      blocks[d].drop (i + 2) ++ (blocks.drop (d + 1)).flatten := by
    rw [hf, ←List.drop_drop, List.drop_left' hl]
    rfl
  refine ⟨blocks[d][i], blocks[d][i + 1], ?split, ?prod⟩
  case split =>
    rw [ht, hdrop]
    exact hf
  case prod =>
    have hp : blocks[d].prod = (blocks[d].take i ++ blocks[d][i] * blocks[d][i + 1] :: blocks[d].drop (i + 2)).prod := by
      conv_lhs => rw [hb]
      simp only [List.prod_append, List.prod_cons, mul_assoc]
    have hg := (groups_map_prod (blocks.take d)).append (.cons
      (blocks[d].take i ++ blocks[d][i] * blocks[d][i + 1] :: blocks[d].drop (i + 2))
      (groups_map_prod (blocks.drop (d + 1))))
    rw [←hp, ←List.map_cons, ←List.map_append, ←List.drop_eq_getElem_cons hd, List.take_append_drop] at hg
    rw [ht, hdrop]
    simpa only [List.append_assoc, List.cons_append] using hg

theorem groups_nonOnes_iff {fs xs : List Nat} (h₁ : 1 ∉ fs) : Groups fs (nonOnes xs) ↔ Groups fs xs := by
  constructor
  case mp =>
    intro h
    induction xs generalizing fs
    case nil => exact h
    case cons x xs hi =>
      by_cases hx : x = 1
      case pos =>
        rw [hx, nonOnes_one_cons] at h
        exact hx ▸ .cons [] (hi h₁ h)
      case neg =>
        rw [nonOnes_cons hx] at h
        obtain ⟨g, gs, rfl, rfl, hgs⟩ := h.exists_append
        exact .cons g (hi (fun hm => h₁ (List.mem_append_right _ hm)) hgs)
  case mpr =>
    intro h
    induction h
    case nil => exact .nil
    case cons g _ hi =>
      rw [List.mem_append, not_or] at h₁
      by_cases hg : g.prod = 1
      case pos =>
        rw [eq_nil_of_prod h₁.1 hg, List.prod_nil, nonOnes_one_cons]
        exact hi h₁.2
      case neg =>
        rw [nonOnes_cons hg]
        exact .cons g (hi h₁.2)

end Merge

-- Adjacent factors differ in one of their dimensions.
def Separated (tiles devices : List (List Nat)) : Prop :=
  ∀ k, k + 1 < tiles.flatten.length → blockIndex devices k = blockIndex devices (k + 1) →
    blockIndex tiles k < blockIndex tiles (k + 1)

theorem separated_of_shortest (h : Common tiles devices)
    (hs : ShortestCommonFactors (tiles.map List.prod) (devices.map List.prod) tiles.flatten) :
    Separated tiles devices := by
  intro k hk hd
  have hk' : k < tiles.flatten.length := Nat.lt_of_succ_lt hk
  refine lt_of_le_of_ne (blockIndex_mono (Nat.le_succ k) hk) fun ht => ?_
  obtain ⟨htl, htm⟩ := blockIndex_spec hk
  obtain ⟨hdl, hdm⟩ := blockIndex_spec (h.flatten ▸ hk)
  obtain ⟨x, y, hf, hg⟩ := groups_merge htl (ht ▸ (blockIndex_spec hk').2) htm
  obtain ⟨x', y', hf', hg'⟩ := groups_merge hdl (hd ▸ (blockIndex_spec (h.flatten ▸ hk')).2) hdm
  -- Merging the factors yields a shorter sequence.
  rw [←h.flatten] at hf' hg'
  obtain ⟨rfl, rfl⟩ : x = x' ∧ y = y' := by simpa using hf.symm.trans hf'
  have h₁ : 1 ∉ tiles.flatten.take k ++ x * y :: tiles.flatten.drop (k + 2) := by
    have hx : 2 ≤ x := h.factors x (by rw [hf]; simp)
    have hy : 2 ≤ y := h.factors y (by rw [hf]; simp)
    simp only [List.mem_append, List.mem_cons, not_or]
    refine ⟨fun hm => absurd (h.factors 1 (List.mem_of_mem_take hm)) (by decide), ?_,
      fun hm => absurd (h.factors 1 (List.mem_of_mem_drop hm)) (by decide)⟩
    nlinarith
  have hl := hs.shortest _ ⟨(groups_nonOnes_iff h₁).mpr hg, (groups_nonOnes_iff h₁).mpr hg'⟩
  have := congrArg List.length hf
  simp only [List.length_append, List.length_cons] at hl this
  omega

section Sorted

-- The positions of the factors in the order of the reshape dimensions.
def reshapeOrder (devices : List (List Nat)) (transposePerm : List Nat) : List Nat :=
  (inverse transposePerm).flatMap (block devices)

variable (h : Common tiles devices) (hs : Separated tiles devices)
  (hp : transposePerm.Perm (List.range devices.length))

include h hs in
theorem tile_lt (hjk : j < k) (hk : k < tiles.flatten.length) (hd : blockIndex devices j = blockIndex devices k) :
    blockIndex tiles j < blockIndex tiles k := by
  have hk' : k < devices.flatten.length := h.flatten ▸ hk
  have hj : blockIndex devices j = blockIndex devices (j + 1) :=
    le_antisymm (blockIndex_mono (Nat.le_succ j) (Nat.lt_of_le_of_lt hjk hk')) (hd ▸ blockIndex_mono hjk hk')
  exact (hs j (Nat.lt_of_le_of_lt hjk hk) hj).trans_le (blockIndex_mono hjk hk)

include hp in
theorem reshapeOrder_perm : (reshapeOrder devices transposePerm).Perm (List.range devices.flatten.length) := by
  have hi := @inverse_perm (devices.map List.prod) _ (by simpa using hp)
  rw [List.length_map] at hi
  exact flatMap_block_perm hi

include hp in
theorem reshapeDim_eq (hk : k < devices.flatten.length) :
    transposePerm.idxOf (transposePerm.getD (blockIndex devices k) 0) = blockIndex devices k := by
  have hl := (blockIndex_spec hk).1
  have hlen : transposePerm.length = devices.length := by simpa using hp.length_eq
  rw [List.getD_eq_getElem _ _ (hlen ▸ hl)]
  exact (hp.nodup_iff.mpr List.nodup_range).idxOf_getElem _ _

theorem le_iff {a b : SubDimInfo} : le a b = true ↔ a.reshapeDimIndex < b.reshapeDimIndex ∨
    (a.reshapeDimIndex = b.reshapeDimIndex ∧ a.tileDimIndex ≤ b.tileDimIndex) := by
  simp [le]

include h hs hp in
theorem info_inj (hj : j < tiles.flatten.length) (hk : k < tiles.flatten.length)
    (hr : (info tiles devices transposePerm j).reshapeDimIndex = (info tiles devices transposePerm k).reshapeDimIndex)
    (ht : (info tiles devices transposePerm j).tileDimIndex = (info tiles devices transposePerm k).tileDimIndex) :
    j = k := by
  have hd : blockIndex devices j = blockIndex devices k := by
    have hj := reshapeDim_eq hp (h.flatten ▸ hj)
    have hk := reshapeDim_eq hp (h.flatten ▸ hk)
    exact hj.symm.trans ((congrArg transposePerm.idxOf hr).trans hk)
  obtain hlt | heq | hlt := Nat.lt_trichotomy j k
  case inl     => exact absurd ht (tile_lt h hs hlt hk hd).ne
  case inr.inl => exact heq
  case inr.inr => exact absurd ht (tile_lt h hs hlt hj hd.symm).ne'

include h hp in
theorem pairwise_reshapeOrder :
    ((reshapeOrder devices transposePerm).map (info tiles devices transposePerm)).Pairwise fun a b => le a b = true := by
  have hlen : transposePerm.length = devices.length := by simpa using hp.length_eq
  -- The reshape dimension of the factors of a block.
  have hdim (d : Nat) (hd : d ∈ List.range transposePerm.length) (k : Nat)
      (hk : k ∈ block devices (transposePerm.idxOf d)) :
      k < tiles.flatten.length ∧ (info tiles devices transposePerm k).reshapeDimIndex = d := by
    have hm : d ∈ transposePerm := hp.mem_iff.mpr (hlen ▸ hd)
    have hi := List.idxOf_lt_length_of_mem hm
    refine ⟨h.flatten ▸ lt_length_of_mem_block (hlen ▸ hi) hk, ?_⟩
    rw [info, blockIndex_eq (hlen ▸ hi) hk, List.getD_eq_getElem _ _ hi]
    exact List.getElem_idxOf hi
  rw [List.pairwise_map, reshapeOrder, inverse, List.flatMap_map, List.pairwise_flatMap]
  constructor
  case left =>
    intro d hd
    refine (List.pairwise_lt_range').imp_of_mem fun {j k} hj hk hjk => ?_
    obtain ⟨hjn, hjd⟩ := hdim d hd j hj
    obtain ⟨hkn, hkd⟩ := hdim d hd k hk
    exact le_iff.mpr (.inr ⟨hjd.trans hkd.symm, blockIndex_mono hjk.le hkn⟩)
  case right =>
    refine List.pairwise_lt_range.imp_of_mem fun {d e} hd he hde j hj k hk => ?_
    obtain ⟨_, hjd⟩ := hdim d hd j hj
    obtain ⟨_, hkd⟩ := hdim e he k hk
    exact le_iff.mpr (.inl (by omega))

include h hs hp in
theorem mergeSort_eq :
    ((List.range tiles.flatten.length).map (info tiles devices transposePerm)).reverse.mergeSort le =
      (reshapeOrder devices transposePerm).map (info tiles devices transposePerm) := by
  have hperm := reshapeOrder_perm hp
  rw [←h.flatten] at hperm
  refine @List.Perm.eq_of_pairwise _ (fun a b => le a b = true) _ _ ?antisymm ?sorted (pairwise_reshapeOrder h hp) ?perm
  case antisymm =>
    intro a b ha hb hab hba
    rw [List.mem_mergeSort, List.mem_reverse, List.mem_map] at ha
    obtain ⟨j, hj, rfl⟩ := ha
    obtain ⟨k, hk, rfl⟩ := List.mem_map.mp hb
    rw [le_iff] at hab hba
    have hk := List.mem_range.mp (hperm.mem_iff.mp hk)
    exact congrArg _ (info_inj h hs hp (List.mem_range.mp hj) hk (by omega) (by omega))
  case sorted =>
    refine List.pairwise_mergeSort (fun a b c hab hbc => ?trans) (fun a b => ?total) _
    case trans =>
      rw [le_iff] at hab hbc ⊢
      omega
    case total =>
      rw [Bool.or_eq_true, le_iff, le_iff]
      omega
  case perm =>
    exact (List.mergeSort_perm _ _).trans ((List.reverse_perm _).trans (hperm.symm.map _))

end Sorted
end Sharding.GetOrderedSubDims
