import XlaModel.Lib.Compaction
import XlaModel.Sharding.TileAssignment
import XlaModel.Sharding.Theorems.Array

namespace Sharding.CanonicalizeIotaDims

open View Compaction

variable {dims perm : List Nat} {n m d : Nat}

section RemoveOneDims

theorem length_oldToNewDims : (oldToNewDims m dims).length = dims.length := by
  induction dims generalizing m
  case nil => rfl
  case cons d dims hi =>
    rw [oldToNewDims]
    split <;> simp [hi]

theorem filterMap_oldToNewDims : (oldToNewDims m dims).filterMap id = List.range' m (dims.countP (· ≠ 1)) := by
  induction dims generalizing m
  case nil => rfl
  case cons d dims hi =>
    rw [oldToNewDims]
    split
    case isTrue h =>
      rw [List.filterMap_cons_none rfl, hi]
      simp [h]
    case isFalse h =>
      rw [List.filterMap_cons_some (show id (some m) = some m from rfl), hi]
      simp [h, List.range'_succ]

theorem oldToNewDims_append (xs ys : List Nat) :
    oldToNewDims m (xs ++ ys) = oldToNewDims m xs ++ oldToNewDims (m + xs.countP (· ≠ 1)) ys := by
  induction xs generalizing m
  case nil => simp [oldToNewDims]
  case cons x xs hi =>
    rw [List.cons_append, oldToNewDims, oldToNewDims]
    split
    case isTrue h  => simp [h, hi]
    case isFalse h => simp [h, hi, Nat.add_assoc, Nat.add_comm]

theorem getD_oldToNewDims (hd : d < dims.length) :
    (oldToNewDims m dims).getD d none =
      if dims[d] = 1 then none else some (m + (dims.take d).countP (· ≠ 1)) := by
  have hs : dims = dims.take d ++ dims[d] :: dims.drop (d + 1) := by simp
  have hl : (oldToNewDims m (dims.take d)).length = d := by
    rw [length_oldToNewDims, List.length_take, Nat.min_eq_left hd.le]
  conv_lhs =>
    rw [List.getD_eq_getElem?_getD, hs, oldToNewDims_append, List.getElem?_append_right hl.le, hl, Nat.sub_self,
      oldToNewDims]
  split <;> simp

def newPerm (dims perm : List Nat) : List Nat :=
  perm.filterMap ((oldToNewDims 0 dims).getD · none)

theorem newPerm_perm (h : perm.Perm (List.range dims.length)) :
    (newPerm dims perm).Perm (List.range (dims.filter (· ≠ 1)).length) := by
  have hr : (List.range dims.length).filterMap ((oldToNewDims 0 dims).getD · none) =
      List.range (dims.filter (· ≠ 1)).length := by
    have := congrArg (List.filterMap id) (map_getD_range (oldToNewDims 0 dims) none)
    rw [List.filterMap_map, length_oldToNewDims, filterMap_oldToNewDims] at this
    rw [← List.countP_eq_length_filter, List.range_eq_range' (n := dims.countP _), ← this]
    rfl
  exact hr ▸ h.filterMap _

structure Compacted (dims perm : List Nat) (i : Nat) (s : CompactState) : Prop where
  dims_inPlace : InPlace dims ((dims.take i).filter (· ≠ 1)) i s.dims
  perm_inPlace : InPlace perm (newPerm dims (perm.take i)) i s.perm
  newIdx       : s.newIdx = (newPerm dims (perm.take i)).length

theorem newPerm_take_succ (hp : i < perm.length) :
    newPerm dims (perm.take (i + 1)) =
      newPerm dims (perm.take i) ++ ((oldToNewDims 0 dims).getD perm[i] none).toList := by
  rw [newPerm, List.take_add_one, List.filterMap_append, List.getElem?_eq_getElem hp, Option.toList_some]
  congr 1

theorem Compacted.step (h : Compacted dims perm i s) (hd : i < dims.length) (hp : i < perm.length) :
    Compacted dims perm (i + 1) (compact (oldToNewDims 0 dims) s i) := by
  have hds : s.dims.getD i 0 = dims[i] := by
    rw [List.getD_eq_getElem?_getD, h.dims_inPlace.getElem?]
    simp [hd]
  have hps : s.perm.getD i 0 = perm[i] := by
    rw [List.getD_eq_getElem?_getD, h.perm_inPlace.getElem?]
    simp [hp]
  have hdims : InPlace dims ((dims.take (i + 1)).filter (· ≠ 1)) (i + 1)
      ((((oldToNewDims 0 dims).getD i none).map (s.dims.set · (s.dims.getD i 0))).getD s.dims) := by
    rw [getD_oldToNewDims hd, List.take_add_one, List.filter_append, hds]
    by_cases h₁ : dims[i] = 1
    case pos => simpa [h₁, hd] using h.dims_inPlace.skip
    case neg =>
      have := h.dims_inPlace.move (y := dims[i]) hd
      simpa [h₁, hd, List.countP_eq_length_filter] using this
  have hperm : newPerm dims _ = _ := newPerm_take_succ hp
  rw [compact, hps]
  cases hn : (oldToNewDims 0 dims).getD perm[i] none <;> rw [hn] at hperm
  case none =>
    rw [Option.toList_none, List.append_nil] at hperm
    exact ⟨hdims, hperm ▸ h.perm_inPlace.skip, hperm ▸ h.newIdx⟩
  case some y =>
    refine ⟨hdims, ?_, ?_⟩
    · rw [hperm, h.newIdx]
      exact h.perm_inPlace.move hp
    · rw [hperm, h.newIdx]
      simp

theorem Compacted.steps (hl : perm.length = dims.length) (hi : i ≤ dims.length) :
    Compacted dims perm i ((List.range i).foldl (compact (oldToNewDims 0 dims)) ⟨dims, perm, 0⟩) := by
  induction i
  case zero => exact ⟨.init _, .init _, rfl⟩
  case succ i ih =>
    rw [List.range_succ, List.foldl_append]
    exact (ih (by omega)).step hi (by omega)

theorem newPerm_of_no_ones (h : perm.Perm (List.range dims.length)) (h₁ : ∀ d ∈ dims, d ≠ 1) :
    newPerm dims perm = perm := by
  rw [newPerm, List.filterMap_congr (g := some), List.filterMap_some]
  intro d hd
  have hd : d < dims.length := List.mem_range.mp (h.mem_iff.mp hd)
  have ht : (dims.take d).countP (· ≠ 1) = d := by
    rw [List.countP_eq_length.mpr fun x hx => by simpa using h₁ x (List.mem_of_mem_take hx), List.length_take,
      Nat.min_eq_left hd.le]
  rw [getD_oldToNewDims hd, if_neg (h₁ _ (List.getElem_mem hd)), ht, Nat.zero_add]

-- The moves within the vectors filter them.
theorem removeOneDims_eq (h : perm.Perm (List.range dims.length)) :
    removeOneDims dims perm = (dims.filter (· ≠ 1), newPerm dims perm) := by
  have hl := length_eq_of_perm h
  unfold removeOneDims
  simp only [List.countP_eq_length_filter]
  split_ifs with hn
  case pos =>
    have hc := Compacted.steps hl le_rfl
    have hd := hc.dims_inPlace.take
    have hp := hc.perm_inPlace.take
    rw [List.take_length] at hd
    rw [← hl, List.take_length, (newPerm_perm h).length_eq, List.length_range] at hp
    rw [hd, ← hl, hp]
  case neg =>
    have hf : ∀ d ∈ dims, d ≠ 1 := by simpa using List.length_filter_eq_length_iff.mp (not_not.mp hn)
    rw [newPerm_of_no_ones h hf, List.filter_eq_self.mpr (by simpa using hf)]

theorem prod_filter_ne_one (xs : List Nat) : (xs.filter (· ≠ 1)).prod = xs.prod := by
  induction xs
  case nil => rfl
  case cons x xs hi => by_cases h : x = 1 <;> simp_all

theorem axis_oldToNewDims (hd : d < dims.length) (hn : (oldToNewDims 0 dims).getD d none = some d') :
    (axis dims d).size ≠ 1 ∧ axis (dims.filter (· ≠ 1)) d' = axis dims d := by
  rw [getD_oldToNewDims hd] at hn
  split_ifs at hn with h₁
  have ha : axis dims d = ⟨dims[d], (dims.drop (d + 1)).prod⟩ := by simp [axis, stride, hd]
  have hf : dims.filter (· ≠ 1) = (dims.take d).filter (· ≠ 1) ++ dims[d] :: (dims.drop (d + 1)).filter (· ≠ 1) := by
    rw [← List.filter_cons_of_pos (by simpa using h₁), ← List.filter_append]
    simp
  have hd' : d' = ((dims.take d).filter (· ≠ 1)).length := by
    rw [← List.countP_eq_length_filter, ← Option.some.inj hn, Nat.zero_add]
  refine ⟨by simpa [ha], ?_⟩
  rw [hf, hd', axis_append, prod_filter_ne_one, ha]

theorem axis_oldToNewDims_none (hd : d < dims.length) (hn : (oldToNewDims 0 dims).getD d none = none) :
    (axis dims d).size = 1 := by
  rw [getD_oldToNewDims hd] at hn
  split_ifs at hn with h₁
  simpa [axis, hd] using h₁

theorem permuted_removeOneDims (h : ∀ d ∈ perm, d < dims.length) :
    permuted (dims.filter (· ≠ 1)) (newPerm dims perm) = (permuted dims perm).filter (·.size ≠ 1) := by
  induction perm
  case nil => rfl
  case cons d perm hi =>
    have hd := h d (.head _)
    have hi := hi fun e he => h e (.tail _ he)
    simp only [permuted, newPerm] at hi ⊢
    cases hn : (oldToNewDims 0 dims).getD d none
    case none =>
      rw [List.filterMap_cons, hn, hi, List.map_cons, List.filter_cons_of_neg]
      simpa using axis_oldToNewDims_none hd hn
    case some d' =>
      obtain ⟨hs, ha⟩ := axis_oldToNewDims hd hn
      rw [List.filterMap_cons, hn, List.map_cons, hi, ha, List.map_cons, List.filter_cons_of_pos (by simpa)]

theorem removeOneDims_same (h : perm.Perm (List.range dims.length)) :
    Same (permuted (dims.filter (· ≠ 1)) (newPerm dims perm)) (permuted dims perm) := by
  rw [permuted_removeOneDims fun d hd => List.mem_range.mp (h.mem_iff.mp hd)]
  exact same_filter _

end RemoveOneDims

section MergeDims

variable {b e x y : Nat} {xs ys zs : List Nat}

-- Two dimensions with only dimensions of size one between them are merged into the major one.
theorem axis_merge_eq (hd : d < xs.length ∨ xs.length + m + 1 < d) :
    axis (xs ++ x * y :: (List.replicate m 1 ++ 1 :: zs)) d = axis (xs ++ x :: (List.replicate m 1 ++ y :: zs)) d := by
  obtain hd | hd := hd
  case inl =>
    rw [axis_append_left hd, axis_append_left hd]
    simp [Nat.mul_assoc]
  case inr =>
    have hs (x y : Nat) : xs ++ x :: (List.replicate m 1 ++ y :: zs) =
        (xs ++ x :: (List.replicate m 1 ++ [y])) ++ zs := by simp
    have hl (x y : Nat) : d = (xs ++ x :: (List.replicate m 1 ++ [y])).length + (d - (xs.length + m + 2)) := by
      simp
      omega
    have ha (x y : Nat) : axis (xs ++ x :: (List.replicate m 1 ++ y :: zs)) d = axis zs (d - (xs.length + m + 2)) := by
      conv_lhs => rw [hs, hl x y, axis_append_right]
    rw [ha, ha]

theorem map_axis_segment (x y : Nat) (xs zs : List Nat) (m : Nat) :
    ∃ ones : View, (∀ a ∈ ones, a.size = 1) ∧
      (List.range' xs.length (m + 2)).map (axis (xs ++ x :: (List.replicate m 1 ++ y :: zs))) =
        ⟨x, y * zs.prod⟩ :: (ones ++ [⟨y, zs.prod⟩]) := by
  refine ⟨(List.range' (xs.length + 1) m).map (axis (xs ++ x :: (List.replicate m 1 ++ y :: zs))), ?_, ?_⟩
  · intro a ha
    obtain ⟨d, hd, rfl⟩ := List.mem_map.mp ha
    obtain ⟨j, hj, rfl⟩ := List.mem_range'.mp hd
    rw [Nat.one_mul, Nat.add_assoc, axis_append_right, Nat.add_comm]
    simp [axis, hj, List.getElem?_append_left]
  · have hm : xs ++ x :: (List.replicate m 1 ++ y :: zs) = (xs ++ x :: List.replicate m 1) ++ y :: zs := by simp
    have hl : xs.length + 1 + m = (xs ++ x :: List.replicate m 1).length := by
      simp
      omega
    have he : axis (xs ++ x :: (List.replicate m 1 ++ y :: zs)) (xs.length + 1 + m) = ⟨y, zs.prod⟩ := by
      rw [hm, hl, axis_append]
    rw [List.range'_succ, List.map_cons, axis_append, List.range'_concat, List.map_append, Nat.one_mul, List.map_cons,
      he]
    simp

theorem segment_same :
    Same ((List.range' xs.length (m + 2)).map (axis (xs ++ x * y :: (List.replicate m 1 ++ 1 :: zs))))
      ((List.range' xs.length (m + 2)).map (axis (xs ++ x :: (List.replicate m 1 ++ y :: zs)))) := by
  obtain ⟨ones, h₁, hs⟩   := map_axis_segment x y xs zs m
  obtain ⟨ones', h₁', hs'⟩ := map_axis_segment (x * y) 1 xs zs m
  rw [hs, hs', Nat.one_mul]
  have h : Same (⟨x, y * zs.prod⟩ :: (ones ++ [⟨y, zs.prod⟩])) [⟨x * y, zs.prod⟩] :=
    (same_ones h₁).cons.trans (same_merge rfl)
  have h' : Same (⟨x * y, zs.prod⟩ :: (ones' ++ [⟨1, zs.prod⟩])) [⟨x * y, zs.prod⟩] :=
    (same_ones h₁').cons.trans (same_one rfl).cons
  exact h'.trans h.symm

-- Merges the dimension `b + m + 1` into the dimension `b`.
theorem set_set_same (hn : perm.Nodup) (hp : perm = ps ++ List.range' b (m + 2) ++ qs)
    (he : b + m + 1 < dims.length) (h₁ : ∀ j < m, dims.getD (b + 1 + j) 0 = 1) :
    Same (permuted ((dims.set b (dims.getD b 0 * dims.getD (b + m + 1) 0)).set (b + m + 1) 1) perm)
      (permuted dims perm) := by
  obtain ⟨xs, x, y, zs, rfl, rfl⟩ : ∃ xs x y zs, dims = xs ++ x :: (List.replicate m 1 ++ y :: zs) ∧ b = xs.length := by
    have hb : b < dims.length := by omega
    have hr : (dims.drop (b + 1)).take m = List.replicate m 1 := by
      refine List.eq_replicate_iff.mpr ⟨by simp; omega, fun x hx => ?_⟩
      obtain ⟨j, hj, rfl⟩ := List.mem_iff_getElem.mp hx
      have hj' : j < m ∧ b + 1 + j < dims.length := by
        simp at hj
        omega
      simpa [hj'.2] using h₁ j hj'.1
    have hd : (dims.drop (b + 1)).drop m = dims[b + m + 1] :: dims.drop (b + m + 2) := by
      have he' : b + 1 + m < dims.length := by omega
      rw [List.drop_drop, List.drop_eq_getElem_cons he']
      simp [Nat.add_right_comm]
    refine ⟨dims.take b, dims[b], dims[b + m + 1], dims.drop (b + m + 2), ?_, by simp; omega⟩
    rw [← hd, ← hr, List.take_append_drop, List.getElem_cons_drop, List.take_append_drop]
  have hs : ((xs ++ x :: (List.replicate m 1 ++ y :: zs)).set xs.length
      ((xs ++ x :: (List.replicate m 1 ++ y :: zs)).getD xs.length 0 *
        (xs ++ x :: (List.replicate m 1 ++ y :: zs)).getD (xs.length + m + 1) 0)).set (xs.length + m + 1) 1 =
      xs ++ x * y :: (List.replicate m 1 ++ 1 :: zs) := by
    simp [Nat.add_assoc]
  have hd : ∀ d ∈ ps ++ qs, d < xs.length ∨ xs.length + m + 1 < d := by
    intro d hd
    rw [hp, List.append_assoc] at hn
    have hs : d ∉ List.range' xs.length (m + 2) := by
      rw [List.nodup_append, List.nodup_append] at hn
      obtain hd | hd := List.mem_append.mp hd
      case inl => exact fun h => hn.2.2 d hd d (List.mem_append_left _ h) rfl
      case inr => exact fun h => hn.2.1.2.2 d h d hd rfl
    simp only [List.mem_range'_1, not_and] at hs
    omega
  have hm (us : List Nat) (hu : ∀ d ∈ us, d ∈ ps ++ qs) :
      us.map (axis (xs ++ x * y :: (List.replicate m 1 ++ 1 :: zs))) =
        us.map (axis (xs ++ x :: (List.replicate m 1 ++ y :: zs))) :=
    List.map_congr_left fun d hu' => axis_merge_eq (hd d (hu d hu'))
  rw [hs, hp, permuted, permuted]
  simp only [List.map_append]
  rw [hm ps (by simp +contextual), hm qs (by simp +contextual)]
  exact ((Same.refl _).append segment_same).append (.refl _)

-- The dimensions at the positions from `base` on are consecutive and are merged into the first one of them.
structure Merging (dims perm : List Nat) (i : Nat) (s : MergeState) : Prop where
  length    : s.dims.length = dims.length
  base_lt   : s.base < i
  run       : ∀ j, s.base ≤ j → j < i → perm.getD j 0 = perm.getD s.base 0 + (j - s.base)
  ones      : ∀ j, s.base < j → j < i → s.dims.getD (perm.getD j 0) 0 = 1
  pos       : ∀ d ∈ s.dims, 0 < d
  same      : Same (permuted s.dims perm) (permuted dims perm)
  unchanged : s.changed = false → s.dims = dims ∧ s.base + 1 = i ∧
    ∀ j, j + 1 < i → perm.getD j 0 + 1 ≠ perm.getD (j + 1) 0
  changed   : s.changed = true → 1 ∈ s.dims

theorem Merging.init (hp : ∀ d ∈ dims, 0 < d) : Merging dims perm 1 ⟨dims, 0, false⟩ where
  length    := rfl
  base_lt   := Nat.one_pos
  run j _ hj := by
    obtain rfl : j = 0 := by omega
    rfl
  ones j _ _  := by omega
  pos         := hp
  same        := .refl _
  unchanged _ := ⟨rfl, rfl, fun j _ => by omega⟩
  changed     := by simp

theorem eq_append_segment {i base : Nat} (hi : i < perm.length) (hb : base ≤ i)
    (hr : ∀ j, base ≤ j → j ≤ i → perm.getD j 0 = b + (j - base)) :
    perm = perm.take base ++ List.range' b (i + 1 - base) ++ perm.drop (i + 1) := by
  have hs : (perm.drop base).take (i + 1 - base) = List.range' b (i + 1 - base) := by
    refine List.ext_getElem (by simp; omega) fun j h₁ h₂ => ?_
    have hj : base + j < perm.length := by
      simp at h₁
      omega
    have := hr (base + j) (by omega) (by simp at h₂; omega)
    simp [hj] at this
    simp [this]
  have hd : (perm.drop base).drop (i + 1 - base) = perm.drop (i + 1) := by
    rw [List.drop_drop]
    congr 1
    omega
  rw [List.append_assoc, ← hs, ← hd, List.take_append_drop, List.take_append_drop]

theorem Merging.merge (h : Merging dims perm i s) (hp : perm.Perm (List.range dims.length)) (hi : i < dims.length)
    (hd : perm.getD s.base 0 + (i - s.base) = perm.getD i 0) :
    Merging dims perm (i + 1) ⟨(s.dims.set (perm.getD s.base 0)
      (s.dims.getD (perm.getD s.base 0) 0 * s.dims.getD (perm.getD i 0) 0)).set (perm.getD i 0) 1, s.base, true⟩ := by
  have hl := length_eq_of_perm hp
  have hb := h.base_lt
  have hlt : perm.getD i 0 < s.dims.length := by
    rw [h.length]
    simpa [hl, hi] using List.mem_range.mp (hp.mem_iff.mp (List.getElem_mem (hl.symm ▸ hi)))
  have hrun : ∀ j, s.base ≤ j → j < i + 1 → perm.getD j 0 = perm.getD s.base 0 + (j - s.base) := by
    intro j hj hj'
    obtain hj' | rfl := Nat.lt_or_eq_of_le (Nat.le_of_lt_succ hj')
    case inl => exact h.run j hj hj'
    case inr => exact hd.symm
  obtain ⟨m, hm⟩ : ∃ m, i = s.base + m + 1 := ⟨i - s.base - 1, by omega⟩
  have he : perm.getD i 0 = perm.getD s.base 0 + m + 1 := by
    rw [← hd]
    omega
  have hpos : 0 < s.dims.getD (perm.getD s.base 0) 0 * s.dims.getD (perm.getD i 0) 0 := by
    have hp (d : Nat) (hd : d < s.dims.length) : 0 < s.dims.getD d 0 := by
      simpa [hd] using h.pos _ (List.getElem_mem hd)
    exact Nat.mul_pos (hp _ (by omega)) (hp _ hlt)
  constructor
  case length    => simpa using h.length
  case base_lt   => exact hb.trans i.lt_succ_self
  case run       => exact hrun
  case unchanged => simp
  case changed   => exact fun _ => List.mem_set (by simpa using hlt) 1
  case ones =>
    intro j (hj : s.base < j) hj'
    obtain hj' | rfl := Nat.lt_or_eq_of_le (Nat.le_of_lt_succ hj')
    case inl =>
      have hr := h.run j hj.le hj'
      rw [List.getD_eq_getElem?_getD, List.getElem?_set_ne (by omega), List.getElem?_set_ne (by omega),
        ← List.getD_eq_getElem?_getD]
      exact h.ones j hj hj'
    case inr =>
      rw [List.getD_eq_getElem?_getD, List.getElem?_set_self (by simpa using hlt)]
      rfl
  case pos =>
    intro d hd
    obtain hd | rfl := List.mem_or_eq_of_mem_set hd
    case inr => exact Nat.one_pos
    case inl =>
      obtain hd | rfl := List.mem_or_eq_of_mem_set hd
      case inl => exact h.pos d hd
      case inr => exact hpos
  case same =>
    have hs := eq_append_segment (by omega) (by omega : s.base ≤ i) fun j hj hj' => hrun j hj (by omega)
    rw [show i + 1 - s.base = m + 2 by omega] at hs
    simp only [he]
    refine (set_set_same (hp.nodup_iff.mpr List.nodup_range) hs (by omega) fun j hj => ?_).trans h.same
    have hr := h.run (s.base + 1 + j) (by omega) (by omega)
    rw [show perm.getD s.base 0 + 1 + j = perm.getD (s.base + 1 + j) 0 by omega]
    exact h.ones _ (by omega) (by omega)

theorem Merging.advance (h : Merging dims perm i s)
    (hd : perm.getD s.base 0 + (i - s.base) ≠ perm.getD i 0) : Merging dims perm (i + 1) { s with base := i } where
  length    := h.length
  base_lt   := i.lt_succ_self
  run j (hj : i ≤ j) _ := by
    obtain rfl : j = i := by omega
    simp
  ones j (hj : i < j) _ := by omega
  pos                   := h.pos
  same                  := h.same
  changed               := h.changed
  unchanged hc := by
    obtain ⟨hs, hb, hj⟩ := h.unchanged hc
    refine ⟨hs, rfl, fun j hj' => ?_⟩
    obtain hj' | rfl := Nat.lt_or_eq_of_le (Nat.le_of_lt_succ hj')
    case inl => exact hj j hj'
    case inr =>
      obtain rfl : s.base = j := by omega
      simpa using hd

theorem Merging.step (h : Merging dims perm i s) (hp : perm.Perm (List.range dims.length)) (hi : i < dims.length) :
    Merging dims perm (i + 1) (mergeDim perm s i) := by
  rw [mergeDim]
  split
  case isTrue hd  => exact h.merge hp hi hd
  case isFalse hd => exact h.advance hd

theorem mergeDims_merging (hp : perm.Perm (List.range dims.length)) (h₀ : ∀ d ∈ dims, 0 < d) (hl : 0 < dims.length) :
    Merging dims perm dims.length (mergeDims dims perm) := by
  have hs : ∀ n, n + 1 ≤ dims.length →
      Merging dims perm (n + 1) ((List.range' 1 n).foldl (mergeDim perm) ⟨dims, 0, false⟩) := by
    intro n hn
    induction n
    case zero => exact .init h₀
    case succ n hi =>
      rw [List.range'_concat, List.foldl_append, Nat.one_mul, Nat.add_comm 1 n]
      exact (hi (by omega)).step hp (by omega)
  have := hs (dims.length - 1) (by omega)
  rwa [Nat.sub_add_cancel hl] at this

theorem normal_of_not_adjacent (hp : perm.Perm (List.range dims.length)) (h₂ : ∀ d ∈ dims, 2 ≤ d)
    (h : ∀ j, j + 1 < dims.length → perm.getD j 0 + 1 ≠ perm.getD (j + 1) 0) : Normal (permuted dims perm) where
  two_le a ha := by
    obtain ⟨d, hd, rfl⟩ := List.mem_map.mp ha
    have hd : d < dims.length := List.mem_range.mp (hp.mem_iff.mp hd)
    simpa [axis, hd] using h₂ _ (List.getElem_mem hd)
  chain := by
    have hl := length_eq_of_perm hp
    rw [permuted, List.isChain_map, List.isChain_iff_getElem]
    intro j hj hc
    have hm (i : Nat) (hi : i < perm.length) : perm[i] < dims.length :=
      List.mem_range.mp (hp.mem_iff.mp (List.getElem_mem hi))
    have hne := h j (hl ▸ hj)
    simp [hj, Nat.lt_of_succ_lt hj] at hne
    exact hne (eq_succ_of_contiguous h₂ (hm _ _) (hm _ _) hc)

end MergeDims

theorem two_le_of_mem_filter (hp : ∀ d ∈ dims, 0 < d) : ∀ d ∈ dims.filter (· ≠ 1), 2 ≤ d := by
  intro d hd
  have := hp d (List.mem_of_mem_filter hd)
  have : d ≠ 1 := by simpa using (List.mem_filter.mp hd).2
  omega

theorem countP_lt_length {xs : List Nat} (h : 1 ∈ xs) : xs.countP (· ≠ 1) < xs.length := by
  refine Nat.lt_of_le_of_ne List.countP_le_length fun he => ?_
  simpa using List.countP_eq_length.mp he 1 h

-- Every iteration that changes something leaves a dimension of size one that the next iteration removes.
theorem loop_spec (hp : perm.Perm (List.range dims.length)) (h₀ : ∀ d ∈ dims, 0 < d)
    (hf : dims.countP (· ≠ 1) < fuel) :
    ∃ dims' perm', loop fuel dims perm = some (dims', perm') ∧ perm'.Perm (List.range dims'.length) ∧
      Normal (permuted dims' perm') ∧ Same (permuted dims' perm') (permuted dims perm) := by
  induction fuel generalizing dims perm
  case zero => simp at hf
  case succ fuel hi =>
    have hp' := newPerm_perm hp
    have h₂ := two_le_of_mem_filter h₀
    have hs := removeOneDims_same hp
    rw [loop, removeOneDims_eq hp]
    simp only
    obtain hz | hl := Nat.eq_zero_or_pos (dims.filter (· ≠ 1)).length
    case inl =>
      rw [List.length_eq_zero_iff] at hz
      rw [hz] at hp' hs ⊢
      obtain hn : newPerm dims perm = [] := by simpa using hp'.length_eq
      rw [hn] at hs ⊢
      exact ⟨[], [], rfl, .refl _, ⟨by simp [permuted], by simp [permuted]⟩, hs⟩
    case inr =>
      have hm := mergeDims_merging hp' (fun d hd => Nat.zero_lt_of_lt (h₂ d hd)) hl
      cases hc : (mergeDims (dims.filter (· ≠ 1)) (newPerm dims perm)).changed
      case true =>
        have hlt : (mergeDims (dims.filter (· ≠ 1)) (newPerm dims perm)).dims.countP (· ≠ 1) < fuel := by
          have h₁ := countP_lt_length (hm.changed hc)
          rw [hm.length, ← List.countP_eq_length_filter] at h₁
          omega
        obtain ⟨dims', perm', hr, hp₁, hn, hs'⟩ := hi (hm.length.symm ▸ hp') hm.pos hlt
        exact ⟨dims', perm', by simpa using hr, hp₁, hn, hs'.trans (hm.same.trans hs)⟩
      case false =>
        obtain ⟨hd, _, hj⟩ := hm.unchanged hc
        rw [hd]
        exact ⟨_, _, by simp, hp', normal_of_not_adjacent hp' h₂ hj, hs⟩

end Sharding.CanonicalizeIotaDims

namespace Sharding

open View CanonicalizeIotaDims

variable {dims perm : List Nat}

-- The canonical dimensions are the normal form of the view, up to the view of a single element.
theorem canonicalizeIotaDims_spec (hp : perm.Perm (List.range dims.length)) (h₀ : ∀ d ∈ dims, 0 < d) :
    ∃ dims' perm', canonicalizeIotaDims dims perm = some (dims', perm') ∧
      perm'.Perm (List.range dims'.length) ∧ Same (permuted dims' perm') (permuted dims perm) ∧
      (Normal (permuted dims' perm') ∨ dims' = [1] ∧ perm' = [0]) := by
  rw [canonicalizeIotaDims]
  split
  case isFalse =>
    have hf : dims.countP (· ≠ 1) < dims.length + 1 := Nat.lt_succ_of_le List.countP_le_length
    obtain ⟨dims', perm', hr, hp', hn, hs⟩ := loop_spec hp h₀ hf
    exact ⟨dims', perm', hr, hp', hs, .inl hn⟩
  case isTrue hl =>
    refine ⟨dims, perm, rfl, hp, .refl _, ?_⟩
    obtain rfl | ⟨d, rfl⟩ : dims = [] ∨ ∃ d, dims = [d] := by
      obtain hl | hl := Nat.le_one_iff_eq_zero_or_eq_one.mp hl
      case inl => exact .inl (List.length_eq_zero_iff.mp hl)
      case inr => exact .inr (List.length_eq_one_iff.mp hl)
    case inl =>
      obtain rfl : perm = [] := by simpa using hp.length_eq
      exact .inl ⟨by simp [permuted], by simp [permuted]⟩
    case inr =>
      obtain rfl : perm = [0] := by simpa [List.range_succ] using hp
      by_cases h₁ : d = 1
      case pos => exact .inr ⟨by rw [h₁], rfl⟩
      case neg =>
        have := h₀ d (.head _)
        exact .inl ⟨by simp [permuted, axis]; omega, by simp [permuted]⟩

end Sharding
