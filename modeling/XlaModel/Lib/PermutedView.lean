import Mathlib.Data.Multiset.Bind
import XlaModel.Lib.StridedView
import XlaModel.Lib.List

-- The multi-index of the `k`-th element of an array in row-major order, and back.
namespace RowMajor

variable {sizes xs : List Nat} {k : Nat}

def digits : List Nat → Nat → List Nat
  | [],         _ => []
  | _ :: sizes, k => k / sizes.prod :: digits sizes (k % sizes.prod)

def ravel : List Nat → List Nat → Nat
  | _ :: sizes, x :: xs => x * sizes.prod + ravel sizes xs
  | _,          _       => 0

def InBounds (sizes xs : List Nat) : Prop :=
  List.Forall₂ (· < ·) xs sizes

@[simp]
theorem length_digits : (digits sizes k).length = sizes.length := by
  induction sizes generalizing k <;> simp_all [digits]

theorem digits_inBounds (h : k < sizes.prod) : InBounds sizes (digits sizes k) := by
  induction sizes generalizing k
  case nil => exact .nil
  case cons s sizes hi =>
    rw [List.prod_cons] at h
    have hp : 0 < sizes.prod := Nat.pos_of_mul_pos_left (Nat.zero_lt_of_lt h)
    exact .cons ((Nat.div_lt_iff_lt_mul hp).mpr h) (hi <| Nat.mod_lt _ hp)

theorem digits_zero : digits sizes 0 = sizes.map fun _ => 0 := by
  induction sizes
  case nil             => rfl
  case cons s sizes hi => simp [digits, hi]

theorem ravel_digits (h : k < sizes.prod) : ravel sizes (digits sizes k) = k := by
  induction sizes generalizing k
  case nil => simp_all [ravel]
  case cons s sizes hi =>
    rw [List.prod_cons] at h
    have hp : 0 < sizes.prod := Nat.pos_of_mul_pos_left (Nat.zero_lt_of_lt h)
    rw [digits, ravel, hi (Nat.mod_lt _ hp), Nat.div_add_mod']

theorem InBounds.ravel_lt (h : InBounds sizes xs) : ravel sizes xs < sizes.prod := by
  induction h
  case nil => simp [ravel]
  case cons x s xs sizes hx _ hi =>
    rw [ravel, List.prod_cons]
    calc x * sizes.prod + ravel sizes xs
      _ < x * sizes.prod + sizes.prod := Nat.add_lt_add_left hi _
      _ = (x + 1) * sizes.prod        := by ring
      _ ≤ s * sizes.prod              := Nat.mul_le_mul_right _ hx

theorem InBounds.digits_ravel (h : InBounds sizes xs) : digits sizes (ravel sizes xs) = xs := by
  induction h
  case nil => rfl
  case cons x s xs sizes hx hb hi =>
    have hl := InBounds.ravel_lt hb
    have hp : 0 < sizes.prod := Nat.zero_lt_of_lt hl
    rw [ravel, digits, Nat.mul_add_mod', Nat.mod_eq_of_lt hl, hi, Nat.add_comm, Nat.add_mul_div_right _ _ hp,
      Nat.div_eq_of_lt hl, Nat.zero_add]

end RowMajor

namespace View

open RowMajor

variable {sizes perm : List Nat} {groups : List View} {v : View} {k n : Nat}

def stride (sizes : List Nat) (d : Nat) : Nat :=
  (sizes.drop (d + 1)).prod

def axis (sizes : List Nat) (d : Nat) : Axis where
  size   := sizes.getD d 1
  stride := stride sizes d

-- The view of a row-major array whose dimensions are visited in the order `perm`.
def permuted (sizes perm : List Nat) : View :=
  perm.map (axis sizes)

section Append

variable {xs ys : List Nat} {d : Nat}

theorem axis_append_left (hd : d < xs.length) :
    axis (xs ++ ys) d = ⟨xs.getD d 1, stride xs d * ys.prod⟩ := by
  simp [axis, stride, hd, List.drop_append_of_le_length (Nat.succ_le_of_lt hd), List.getElem?_append_left]

theorem axis_append_right : axis (xs ++ ys) (xs.length + d) = axis ys d := by
  have hn : xs.drop (xs.length + (d + 1)) = [] := List.drop_eq_nil_of_le (by omega)
  simp [axis, stride, Nat.add_assoc, List.drop_append, List.getElem?_append_right, hn]

theorem axis_append (xs : List Nat) (x : Nat) (ys : List Nat) : axis (xs ++ x :: ys) xs.length = ⟨x, ys.prod⟩ := by
  simp [axis, stride]

end Append

theorem map_getD_range (xs : List α) (x : α) : (List.range xs.length).map (xs.getD · x) = xs :=
  List.ext_getElem (by simp) fun i h _ => by
    have : i < xs.length := by simpa using h
    simp [this]

theorem numElements_permuted (h : perm.Perm (List.range sizes.length)) :
    numElements (permuted sizes perm) = sizes.prod := by
  have hm : (permuted sizes perm).map Axis.size = perm.map (sizes.getD · 1) := by
    simp [permuted, axis]
  rw [numElements, hm, (h.map _).prod_eq, map_getD_range]

theorem offset_eq_sum :
    offset v k = (List.zipWith (fun a x => x * a.stride) v (digits (v.map Axis.size) k)).sum := by
  induction v generalizing k
  case nil         => rfl
  case cons a v hi => simp [offset, digits, hi, numElements]

theorem offset_flatten (hk : k < (groups.map numElements).prod) :
    offset groups.flatten k = (List.zipWith offset groups (digits (groups.map numElements) k)).sum := by
  induction groups generalizing k
  case nil => rfl
  case cons v groups hi =>
    have hn : numElements groups.flatten = (groups.map numElements).prod := by
      simp only [numElements, List.map_flatten, List.prod_flatten, List.map_map]
      rfl
    rw [List.map_cons, List.prod_cons] at hk
    have hp : 0 < (groups.map numElements).prod := Nat.pos_of_mul_pos_left (Nat.zero_lt_of_lt hk)
    have hk' : k < numElements (v ++ groups.flatten) := by rwa [numElements_append, hn]
    rw [List.flatten_cons, offset_append hk', hn, hi (Nat.mod_lt _ hp), List.map_cons, digits]
    simp

theorem sum_stride (x : Nat → Nat) :
    ((List.range sizes.length).map (fun d => x d * stride sizes d)).sum =
      ravel sizes ((List.range sizes.length).map x) := by
  induction sizes generalizing x
  case nil => rfl
  case cons s sizes hi =>
    have := hi (fun d => x (d + 1))
    simp [List.range_succ_eq_map, ravel, stride, Function.comp_def] at this ⊢
    exact this

theorem stride_mul_dvd (hd : d < sizes.length) : stride sizes d * sizes.getD d 1 ∣ sizes.prod := by
  rw [← List.prod_take_mul_prod_drop sizes d, List.drop_eq_getElem_cons hd, List.prod_cons, stride, Nat.mul_comm]
  refine Nat.dvd_mul_left_of_dvd ?_ _
  simp [hd]

theorem digits_eq (hk : k < sizes.prod) :
    digits sizes k = (List.range sizes.length).map fun d => k / stride sizes d % sizes.getD d 1 := by
  induction sizes generalizing k
  case nil => rfl
  case cons s sizes hi =>
    rw [List.prod_cons] at hk
    have hp : 0 < sizes.prod := Nat.pos_of_mul_pos_left (Nat.zero_lt_of_lt hk)
    rw [digits, hi (Nat.mod_lt _ hp), List.length_cons, List.range_succ_eq_map, List.map_cons, List.map_map]
    refine List.cons_eq_cons.mpr ⟨?_, List.map_congr_left fun d hd => ?_⟩
    · simp [stride, Nat.mod_eq_of_lt ((Nat.div_lt_iff_lt_mul hp).mpr hk)]
    · rw [← Nat.mod_mul_right_div_self, Nat.mod_mod_of_dvd _ (stride_mul_dvd (List.mem_range.mp hd)),
        Nat.mod_mul_right_div_self]
      simp [stride]

theorem exists_map_eq {xs : List Nat} (h : perm.Nodup) (hl : xs.length = perm.length) :
    ∃ x : Nat → Nat, xs = perm.map x := by
  refine ⟨fun d => xs.getD (perm.idxOf d) 0, List.ext_getElem (by simpa) fun i h₁ h₂ => ?_⟩
  have hi : i < perm.length := by simpa using h₂
  simp [h.idxOf_getElem i hi, h₁]

-- The digits of a position in a permuted view, as a function of the dimensions.
structure Digits (sizes perm : List Nat) (k : Nat) (x : Nat → Nat) : Prop where
  digits   : digits (perm.map (sizes.getD · 1)) k = perm.map x
  inBounds : InBounds sizes ((List.range sizes.length).map x)

theorem Digits.lt (hx : Digits sizes perm k x) (hd : d < sizes.length) : x d < sizes.getD d 1 := by
  have hb := hx.inBounds
  rw [InBounds, List.forall₂_map_left_iff, List.forall₂_iff_get] at hb
  simpa [hd] using hb.2 d (by simpa) hd

theorem exists_digits (h : perm.Perm (List.range sizes.length)) (hk : k < sizes.prod) :
    ∃ x, Digits sizes perm k x := by
  have hp : (perm.map (sizes.getD · 1)).prod = sizes.prod := by
    rw [(h.map _).prod_eq, map_getD_range]
  obtain ⟨x, hx⟩ := exists_map_eq (h.nodup_iff.mpr List.nodup_range)
    (by simp : (digits (perm.map (sizes.getD · 1)) k).length = perm.length)
  refine ⟨x, hx, ?_⟩
  have hb := digits_inBounds (hp.symm ▸ hk)
  rw [hx, InBounds, List.forall₂_map_left_iff, List.forall₂_map_right_iff, List.forall₂_same] at hb
  rw [InBounds, List.forall₂_map_left_iff]
  conv => arg 3; rw [← map_getD_range sizes 1]
  rw [List.forall₂_map_right_iff, List.forall₂_same]
  exact fun d hd => hb d (h.mem_iff.mpr hd)

theorem Digits.offset (h : perm.Perm (List.range sizes.length)) (hx : Digits sizes perm k x) :
    offset (permuted sizes perm) k = ravel sizes ((List.range sizes.length).map x) := by
  have hm : (permuted sizes perm).map Axis.size = perm.map (sizes.getD · 1) := by
    simp [permuted, axis]
  have hp := (h.map (fun d => x d * stride sizes d)).sum_eq
  rw [offset_eq_sum, hm, hx.digits, permuted, List.zipWith_map, List.zipWith_self, ← sum_stride, ← hp]
  rfl

theorem offset_permuted_lt (h : perm.Perm (List.range sizes.length)) (hk : k < sizes.prod) :
    offset (permuted sizes perm) k < sizes.prod := by
  obtain ⟨x, hx⟩ := exists_digits h hk
  exact hx.offset h ▸ hx.inBounds.ravel_lt

theorem offset_rowMajor (hk : k < sizes.prod) : offset (permuted sizes (List.range sizes.length)) k = k := by
  obtain ⟨x, hx⟩ := exists_digits (.refl _) hk
  rw [hx.offset (.refl _), ← hx.digits, map_getD_range, ravel_digits hk]

-- A permutation of the axes of an array that is itself a concatenation of views permutes these views.
theorem offset_flatten_permuted (h : perm.Perm (List.range groups.length))
    (hk : k < (groups.map numElements).prod) :
    offset groups.flatten (offset (permuted (groups.map numElements) perm) k) =
      offset (perm.map (groups.getD · [])).flatten k := by
  have h' : perm.Perm (List.range (groups.map numElements).length) := by simpa using h
  have hm : (perm.map (groups.getD · [])).map numElements =
      perm.map ((groups.map numElements).getD · 1) := by
    simp only [List.map_map, Function.comp_def]
    refine List.map_congr_left fun d _ => ?_
    by_cases hd : d < groups.length <;> simp [hd]
  have hp : (perm.map ((groups.map numElements).getD · 1)).prod = (groups.map numElements).prod := by
    rw [(h'.map _).prod_eq, map_getD_range]
  obtain ⟨x, hx⟩ := exists_digits h' hk
  rw [hx.offset h', offset_flatten hx.inBounds.ravel_lt, hx.inBounds.digits_ravel,
    offset_flatten (by rwa [hm, hp]), hm, hx.digits, List.zipWith_map, List.zipWith_self]
  conv_lhs => arg 1; arg 2; rw [← map_getD_range groups []]
  rw [List.length_map, List.zipWith_map, List.zipWith_self]
  exact (h.map _).sum_eq.symm

theorem flatten_map_singleton (f : Nat → α) (xs : List Nat) : (xs.map fun d => [f d]).flatten = xs.map f := by
  induction xs <;> simp_all

theorem offset_permuted_permuted (h : perm.Perm (List.range sizes.length))
    (h' : perm'.Perm (List.range perm.length)) (hk : k < sizes.prod) :
    offset (permuted sizes perm) (offset (permuted (perm.map (sizes.getD · 1)) perm') k) =
      offset (permuted sizes (perm'.map (perm.getD · 0))) k := by
  have hp : (perm.map (sizes.getD · 1)).prod = sizes.prod := by
    rw [(h.map _).prod_eq, map_getD_range]
  have hg : (perm.map fun d => [axis sizes d]).map numElements = perm.map (sizes.getD · 1) := by
    simp [axis]
  have hc : offset (perm.map fun d => [axis sizes d]).flatten _ = offset (perm'.map _).flatten k :=
    offset_flatten_permuted (by simpa using h') (by rwa [hg, hp])
  rw [hg, flatten_map_singleton] at hc
  have hl : perm'.map ((perm.map fun d => [axis sizes d]).getD · []) =
      perm'.map fun i => [axis sizes (perm.getD i 0)] := by
    refine List.map_congr_left fun i hi => ?_
    have : i < perm.length := List.mem_range.mp (h'.mem_iff.mp hi)
    simp [this]
  rw [permuted, hc, hl, flatten_map_singleton, permuted, List.map_map]
  rfl

section Inverse

def inverse (perm : List Nat) : List Nat :=
  (List.range perm.length).map perm.idxOf

variable (h : perm.Perm (List.range sizes.length))
include h

theorem length_eq_of_perm : perm.length = sizes.length := by
  simpa using h.length_eq

theorem inverse_map_perm : (inverse perm).map (perm.getD · 0) = List.range sizes.length := by
  rw [inverse, List.map_map, length_eq_of_perm h]
  refine (List.map_congr_left fun d hd => ?_).trans (List.map_id _)
  have : perm.idxOf d < perm.length := List.idxOf_lt_length_of_mem (h.mem_iff.mpr hd)
  simp [this]

theorem perm_map_inverse : perm.map ((inverse perm).getD · 0) = List.range sizes.length := by
  refine List.ext_getElem (by simpa using length_eq_of_perm h) fun i h₁ _ => ?_
  have hi : i < perm.length := by simpa using h₁
  have hp : perm[i] < perm.length := by
    rw [length_eq_of_perm h]
    exact List.mem_range.mp (h.mem_iff.mp <| List.getElem_mem hi)
  simp [inverse, hp, (h.nodup_iff.mpr List.nodup_range).idxOf_getElem i hi]

theorem inverse_perm : (inverse perm).Perm (List.range sizes.length) := by
  have hn : perm.Nodup := h.nodup_iff.mpr List.nodup_range
  refine (List.perm_ext_iff_of_nodup ?_ List.nodup_range).mpr fun i => ?_
  · refine List.Nodup.map_on (fun d hd e he heq => ?_) List.nodup_range
    rw [length_eq_of_perm h] at hd he
    exact (List.idxOf_inj (h.mem_iff.mpr hd)).mp heq
  · rw [inverse, List.mem_map, ← length_eq_of_perm h, List.mem_range]
    constructor
    · rintro ⟨d, hd, rfl⟩
      rw [length_eq_of_perm h] at hd
      exact List.idxOf_lt_length_of_mem (h.mem_iff.mpr hd)
    · intro hi
      have hm := h.mem_iff.mp (List.getElem_mem hi)
      rw [← length_eq_of_perm h] at hm
      exact ⟨perm[i], hm, hn.idxOf_getElem i hi⟩

theorem offset_inverse (hk : k < sizes.prod) :
    offset (permuted sizes perm) (offset (permuted (perm.map (sizes.getD · 1)) (inverse perm)) k) = k := by
  have h' : (inverse perm).Perm (List.range perm.length) := by
    rw [length_eq_of_perm h]
    exact inverse_perm h
  rw [offset_permuted_permuted h h' hk, inverse_map_perm h, offset_rowMajor hk]

theorem inverse_offset (hk : k < sizes.prod) :
    offset (permuted (perm.map (sizes.getD · 1)) (inverse perm)) (offset (permuted sizes perm) k) = k := by
  have hl := length_eq_of_perm h
  have h₁ : (inverse perm).Perm (List.range (perm.map (sizes.getD · 1)).length) := by
    rw [List.length_map, hl]
    exact inverse_perm h
  have h₂ : perm.Perm (List.range (inverse perm).length) := by
    rw [(inverse_perm h).length_eq, List.length_range]
    exact h
  have hp : (perm.map (sizes.getD · 1)).prod = sizes.prod := by
    rw [(h.map _).prod_eq, map_getD_range]
  have hs : (inverse perm).map ((perm.map (sizes.getD · 1)).getD · 1) = sizes := by
    conv_rhs => rw [← map_getD_range sizes 1, ← inverse_map_perm h, List.map_map]
    refine List.map_congr_left fun i hi => ?_
    have : i < perm.length := by
      rw [hl]
      exact List.mem_range.mp ((inverse_perm h).mem_iff.mp hi)
    simp [this]
  have hc := offset_permuted_permuted h₁ h₂ (hp.symm ▸ hk)
  rw [hs] at hc
  rw [hc, perm_map_inverse h]
  have hr := offset_rowMajor (hp.symm ▸ hk)
  rwa [List.length_map, hl] at hr

end Inverse

theorem prod_drop (hd : d < sizes.length) : (sizes.drop d).prod = sizes.getD d 1 * stride sizes d := by
  rw [List.drop_eq_getElem_cons hd, List.prod_cons, stride]
  simp [hd]

theorem prod_drop_pos (h : ∀ s ∈ sizes, 2 ≤ s) : 0 < (sizes.drop d).prod :=
  List.prod_pos fun s hs => Nat.zero_lt_of_lt (h s (List.mem_of_mem_drop hs))

theorem prod_drop_lt (h : ∀ s ∈ sizes, 2 ≤ s) (hd : d < e) (he : e ≤ sizes.length) :
    (sizes.drop e).prod < (sizes.drop d).prod := by
  have hs (d : Nat) (hd : d < sizes.length) : (sizes.drop (d + 1)).prod < (sizes.drop d).prod := by
    have hs : 2 ≤ sizes[d] := h _ (List.getElem_mem hd)
    have hp := prod_drop_pos (d := d + 1) h
    rw [List.drop_eq_getElem_cons hd, List.prod_cons]
    nlinarith
  induction e, hd using Nat.le_induction
  case base          => exact hs d he
  case succ e hd hi => exact (hs e he).trans (hi (Nat.le_of_succ_le he))

theorem stride_lt (h : ∀ s ∈ sizes, 2 ≤ s) (hd : d < e) (he : e < sizes.length) :
    stride sizes e < stride sizes d :=
  prod_drop_lt h (Nat.succ_lt_succ hd) he

-- Two axes are only contiguous if their dimensions are neighbours.
theorem eq_succ_of_contiguous (h : ∀ s ∈ sizes, 2 ≤ s) (hd : d < sizes.length) (he : e < sizes.length)
    (hc : (axis sizes d).stride = (axis sizes e).size * (axis sizes e).stride) : d + 1 = e := by
  have hc : (sizes.drop (d + 1)).prod = (sizes.drop e).prod := hc.trans (prod_drop he).symm
  obtain hl | rfl | hl := Nat.lt_trichotomy (d + 1) e
  case inl     => exact absurd hc (prod_drop_lt h hl he.le).ne'
  case inr.inl => rfl
  case inr.inr => exact absurd hc (prod_drop_lt h hl hd).ne

theorem axis_injOn (h : ∀ s ∈ sizes, 2 ≤ s) (hd : d < sizes.length) (he : e < sizes.length)
    (heq : axis sizes d = axis sizes e) : d = e := by
  have hs : stride sizes d = stride sizes e := congrArg Axis.stride heq
  obtain hl | rfl | hl := Nat.lt_trichotomy d e
  case inl     => exact absurd hs (stride_lt h hl he).ne'
  case inr.inl => rfl
  case inr.inr => exact absurd hs (stride_lt h hl hd).ne

theorem rowMajor_pairwise (h : ∀ s ∈ sizes, 2 ≤ s) :
    (permuted sizes (List.range sizes.length)).Pairwise (fun a b => b.stride < a.stride) := by
  rw [permuted, List.pairwise_map]
  exact List.pairwise_lt_range.imp_of_mem fun _ hb hl => stride_lt h hl (List.mem_range.mp hb)

theorem map_size_rowMajor (sizes : List Nat) :
    (permuted sizes (List.range sizes.length)).map Axis.size = sizes := by
  rw [permuted, List.map_map]
  exact map_getD_range sizes 1

-- A permuted view without axes of size one determines the array and the permutation.
theorem permuted_inj (h : perm.Perm (List.range sizes.length)) (h' : perm'.Perm (List.range sizes'.length))
    (hs : ∀ s ∈ sizes, 2 ≤ s) (hs' : ∀ s ∈ sizes', 2 ≤ s)
    (heq : permuted sizes perm = permuted sizes' perm') : sizes = sizes' ∧ perm = perm' := by
  have hp : (permuted sizes (List.range sizes.length)).Perm (permuted sizes' (List.range sizes'.length)) :=
    (h.map _).symm.trans <| (List.Perm.of_eq heq).trans (h'.map _)
  have he := hp.eq_of_pairwise (fun a b _ _ h₁ h₂ => absurd h₁ h₂.asymm) (rowMajor_pairwise hs)
    (rowMajor_pairwise hs')
  obtain rfl : sizes = sizes' := by rw [← map_size_rowMajor sizes, he, map_size_rowMajor]
  refine ⟨rfl, ?_⟩
  have hl : perm.length = perm'.length := by simpa [permuted] using congrArg List.length heq
  refine List.ext_getElem hl fun i h₁ h₂ => ?_
  have hi : axis sizes perm[i] = axis sizes perm'[i] := by
    have := List.getElem_of_eq heq (by simpa [permuted] using h₁ : i < (permuted sizes perm).length)
    simpa [permuted] using this
  exact axis_injOn hs (List.mem_range.mp <| h.mem_iff.mp <| List.getElem_mem h₁)
    (List.mem_range.mp <| h'.mem_iff.mp <| List.getElem_mem h₂) hi

theorem Normal.two_le_sizes (h : perm.Perm (List.range sizes.length)) (hn : Normal (permuted sizes perm)) :
    ∀ s ∈ sizes, 2 ≤ s := by
  intro s hs
  obtain ⟨d, hd, rfl⟩ := List.mem_iff_getElem.mp hs
  have := hn.two_le (axis sizes d) (List.mem_map_of_mem (h.mem_iff.mpr (List.mem_range.mpr hd)))
  simpa [axis, hd] using this

end View

-- Views whose minor axes are visited in the order of the flat array.
namespace View

variable {u v w : View} {a : Axis} {sizes perm : List Nat} {d i j k m n : Nat}

def offsets (v : View) : List Nat :=
  (List.range (numElements v)).map (offset v)

theorem offsets_congr (h : Same v w) : offsets v = offsets w := by
  rw [offsets, offsets, ← h.numElements]
  exact List.map_congr_left fun k hk => h.offset k (List.mem_range.mp hk)

theorem map_range_mul (f : Nat → α) (m n : Nat) :
    (List.range (m * n)).map f = (List.range m).flatMap fun i => (List.range n).map fun j => f (i * n + j) := by
  induction m
  case zero      => simp
  case succ m hi => rw [Nat.succ_mul, List.range_add, List.map_append, hi, List.range_succ, List.flatMap_append]; simp

theorem offset_cons (hj : j < numElements v) : offset (a :: v) (i * numElements v + j) = i * a.stride + offset v j := by
  have hp := Nat.zero_lt_of_lt hj
  rw [offset, Nat.mul_comm i, Nat.mul_add_div hp, Nat.div_eq_of_lt hj, Nat.add_zero, Nat.mul_add_mod,
    Nat.mod_eq_of_lt hj]

theorem offsets_cons : offsets (a :: v) = (List.range a.size).flatMap fun i => (offsets v).map (i * a.stride + ·) := by
  rw [offsets, numElements_cons, map_range_mul, offsets]
  refine List.flatMap_congr fun i _ => ?_
  rw [List.map_map]
  exact List.map_congr_left fun j hj => offset_cons (List.mem_range.mp hj)

-- The order of the axes only affects the order of the elements.
theorem offsets_perm (h : v.Perm w) : (offsets v).Perm (offsets w) := by
  induction h
  case nil              => exact .refl _
  case trans h h'       => exact h.trans h'
  case cons a v w _ hi  =>
    rw [offsets_cons, offsets_cons]
    exact .flatMap_left _ fun i _ => hi.map _
  case swap a b v =>
    have hc (a b : Axis) : ((offsets (a :: b :: v) : List Nat) : Multiset Nat) =
        (Multiset.range a.size).bind fun i => (Multiset.range b.size).bind fun j =>
          (offsets v : Multiset Nat).map fun k => i * a.stride + (j * b.stride + k) := by
      simp only [offsets_cons, List.map_flatMap, List.map_map, Multiset.range, Multiset.coe_bind, Multiset.map_coe]
      rfl
    apply Multiset.coe_eq_coe.mp
    rw [hc, hc, Multiset.bind_bind]
    simp only [Nat.add_left_comm]

theorem offsets_permuted_perm (h : perm.Perm (List.range sizes.length)) :
    (offsets (permuted sizes perm)).Perm (List.range sizes.prod) := by
  refine (offsets_perm (h.map _)).trans (.of_eq ?_)
  rw [offsets, ← permuted, numElements_permuted (.refl _)]
  conv_rhs => rw [← List.map_id (List.range _)]
  exact List.map_congr_left fun k hk => offset_rowMajor (List.mem_range.mp hk)

-- The elements of the view are in the order of the flat array.
def Ordered (v : View) : Prop :=
  (offsets v).Pairwise (· < ·)

theorem ordered_nil : Ordered [] :=
  List.pairwise_singleton ..

-- The minor axes stay within a step of the major axis.
theorem Ordered.cons (h : Ordered v) (hb : ∀ k ∈ offsets v, k < a.stride) : Ordered (a :: v) := by
  rw [Ordered, offsets_cons, List.pairwise_flatMap]
  constructor
  · intro i _
    exact List.pairwise_map.mpr (h.imp fun h => Nat.add_lt_add_left h _)
  · apply List.pairwise_lt_range.imp
    intro i j hij k hk l hl
    obtain ⟨k, hk', rfl⟩ := List.mem_map.mp hk
    obtain ⟨l, _, rfl⟩ := List.mem_map.mp hl
    calc i * a.stride + k
      _ < i * a.stride + a.stride := Nat.add_lt_add_left (hb k hk') _
      _ = (i + 1) * a.stride      := (Nat.succ_mul ..).symm
      _ ≤ j * a.stride            := Nat.mul_le_mul_right _ hij
      _ ≤ j * a.stride + l        := Nat.le_add_right ..

theorem mem_offsets_cons : k ∈ offsets (a :: v) ↔ ∃ i < a.size, ∃ j ∈ offsets v, k = i * a.stride + j := by
  simp [offsets_cons, eq_comm]

section Permuted

variable (h₀ : ∀ s ∈ sizes, 0 < s)
include h₀

theorem prod_drop_le (hd : d ≤ k) : (sizes.drop k).prod ≤ (sizes.drop d).prod := by
  apply Nat.le_of_dvd (List.prod_pos fun s hs => h₀ s (List.mem_of_mem_drop hs))
  exact (List.drop_sublist_drop_left sizes hd).prod_dvd_prod

theorem offsets_permuted_lt (hp : perm.Pairwise (· < ·)) (hd : ∀ e ∈ perm, d ≤ e ∧ e < sizes.length) :
    ∀ k ∈ offsets (permuted sizes perm), k < (sizes.drop d).prod := by
  induction perm generalizing d
  case nil =>
    intro k hk
    obtain rfl : k = 0 := by simpa [permuted, offsets, offset] using hk
    exact List.prod_pos fun s hs => h₀ s (List.mem_of_mem_drop hs)
  case cons e perm hi =>
    intro k hk
    obtain ⟨i, hi', j, hj, rfl⟩ := mem_offsets_cons.mp hk
    have he := hd e (.head _)
    have hj : j < stride sizes e := by
      refine hi hp.tail (fun f hf => ⟨List.rel_of_pairwise_cons hp hf, (hd f (.tail _ hf)).2⟩) j hj
    calc i * stride sizes e + j
      _ < (i + 1) * stride sizes e := by rw [Nat.succ_mul]; exact Nat.add_lt_add_left hj _
      _ ≤ sizes.getD e 1 * stride sizes e := Nat.mul_le_mul_right _ hi'
      _ = (sizes.drop e).prod             := (prod_drop he.2).symm
      _ ≤ (sizes.drop d).prod             := prod_drop_le h₀ he.1

theorem ordered_permuted (hp : perm.Pairwise (· < ·)) (hl : ∀ e ∈ perm, e < sizes.length) :
    Ordered (permuted sizes perm) := by
  induction perm
  case nil => exact ordered_nil
  case cons e perm hi =>
    apply (hi hp.tail fun f hf => hl f (.tail _ hf)).cons
    exact offsets_permuted_lt h₀ hp.tail fun f hf => ⟨List.rel_of_pairwise_cons hp hf, hl f (.tail _ hf)⟩

end Permuted

theorem offsets_append : offsets (v ++ w) =
    (List.range (numElements v)).flatMap fun i => (offsets w).map (offset v i + ·) := by
  rw [offsets, numElements_append, map_range_mul, offsets]
  refine List.flatMap_congr fun i hi => ?_
  rw [List.map_map]
  refine List.map_congr_left fun j hj => ?_
  have hi := List.mem_range.mp hi
  have hj := List.mem_range.mp hj
  have hp := Nat.zero_lt_of_lt hj
  have hk : i * numElements w + j < numElements (v ++ w) := by
    rw [numElements_append]
    calc i * numElements w + j
      _ < (i + 1) * numElements w             := by rw [Nat.succ_mul]; exact Nat.add_lt_add_left hj _
      _ ≤ numElements v * numElements w := Nat.mul_le_mul_right _ hi
  rw [offset_append hk, Nat.mul_comm i, Nat.mul_add_div hp, Nat.div_eq_of_lt hj, Nat.add_zero, Nat.mul_add_mod,
    Nat.mod_eq_of_lt hj]
  rfl

-- The minor axes of the view list the elements of a group.
theorem group_offsets_append : List.group (numElements w) (offsets (v ++ w)) i =
    ((List.range (numElements v))[i]?.map fun i => (offsets w).map (offset v i + ·)).getD [] := by
  rw [offsets_append]
  exact List.group_flatMap fun i _ => by simp [offsets]

-- Ordering the minor axes of a view sorts its groups.
theorem groupsSorted_offsets (h : u.Perm w) (hu : Ordered u) :
    List.GroupsSorted (numElements w) (offsets (v ++ w)) (offsets (v ++ u)) := by
  have hn : numElements u = numElements w := (h.map _).prod_eq
  refine ⟨by simp [offsets, hn], fun i => ?perm, fun i => ?pairwise⟩ <;> rw [← hn, group_offsets_append]
  case perm =>
    rw [hn, group_offsets_append]
    cases (List.range (numElements v))[i]?
    case none   => exact .refl _
    case some i => exact (offsets_perm h).map _
  case pairwise =>
    cases (List.range (numElements v))[i]?
    case none   => exact .nil
    case some i => exact List.pairwise_map.mpr (hu.imp fun h => Nat.add_le_add_left h.le _)

end View
