import XlaModel.Lib.List
import XlaModel.Lib.PermutedView
import XlaModel.Sharding.TileAssignment

namespace Sharding.Array

open View RowMajor

variable {α : Type} {a b : Array α} {perm : List Nat} {init : List (Option α)}

-- The transposition of an array as a property of its elements.
structure IsTranspose (a : Array α) (perm : List Nat) (b : Array α) : Prop where
  valid : b.Valid
  sizes : b.sizes = perm.map a.dim
  get   : ∀ index, InBounds a.sizes index → b.get (perm.map (index.getD · 0)) = a.get index

theorem foldl_horner {sizes index : List Nat} (h : index.length = sizes.length) (n : Nat) :
    (sizes.zip index).foldl (fun index (size, i) => index * size + i) n = n * sizes.prod + ravel sizes index := by
  induction sizes generalizing index n
  case nil => simp [ravel]
  case cons s sizes hi =>
    cases index
    case nil => simp at h
    case cons i index =>
      rw [List.zip_cons_cons, List.foldl_cons, hi (by simpa using h), ravel, List.prod_cons]
      ring

theorem calculateIndex_eq_ravel {index : List Nat} (h : InBounds a.sizes index) :
    a.calculateIndex index = ravel a.sizes index := by
  rw [calculateIndex, foldl_horner (List.Forall₂.length_eq h), Nat.zero_mul, Nat.zero_add]

section Written

variable {f g : Nat → Nat} {n : Nat}

-- The destination after the first `n` values of the source are written.
def written (a : Array α) (f : Nat → Nat) (init : List (Option α)) : Nat → List (Option α)
  | 0     => init
  | n + 1 => (written a f init n).set (f n) a.values[n]?

@[simp]
theorem length_written : (written a f init n).length = init.length := by
  induction n <;> simp_all [written]

theorem getElem?_written (hl : ∀ i < n, f i < init.length) (hf : ∀ i < n, g (f i) = i) (hi : i < n) :
    (written a f init n)[f i]? = some a.values[i]? := by
  induction n
  case zero => simp at hi
  case succ n ih =>
    rw [written, List.getElem?_set]
    obtain rfl | hlt := Nat.eq_or_lt_of_le (Nat.le_of_lt_succ hi)
    case inl => simp [hl _ hi]
    case inr =>
      have hne : f n ≠ f i := fun he => by
        have := hf n (by omega)
        rw [he, hf i hi] at this
        omega
      rw [if_neg hne, ih (fun j hj => hl j (by omega)) (fun j hj => hf j (by omega)) hlt]

end Written

section Carry

variable {k m : Nat}

theorem succ_div_mod_of_lt (h : k % m + 1 < m) : (k + 1) / m = k / m ∧ (k + 1) % m = k % m + 1 := by
  have hk : k + 1 = m * (k / m) + (k % m + 1) := by rw [← Nat.add_assoc, Nat.div_add_mod]
  constructor
  · conv_lhs => rw [hk, Nat.mul_add_div (Nat.zero_lt_of_lt h), Nat.div_eq_of_lt h, Nat.add_zero]
  · conv_lhs => rw [hk, Nat.mul_add_mod, Nat.mod_eq_of_lt h]

theorem succ_div_mod_of_eq (h : k % m + 1 = m) : (k + 1) / m = k / m + 1 ∧ (k + 1) % m = 0 := by
  have hk : k + 1 = m * (k / m) + (k % m + 1) := by rw [← Nat.add_assoc, Nat.div_add_mod]
  have hm : 0 < m := by omega
  constructor
  · conv_lhs => rw [hk, h, Nat.mul_add_div hm, Nat.div_self hm]
  · conv_lhs => rw [hk, h, Nat.mul_add_mod, Nat.mod_self]

end Carry

namespace Cursor

-- The cursors are at the `k`-th element of the view `v`, which starts at the position `p`.
inductive At : Nat → View → Nat → List Cursor → Prop
  | nil {p k : Nat} : At p [] k []
  | cons {p k : Nat} {x : Axis} {v : View} {c : Cursor} {cs : List Cursor} :
    c.size = x.size → c.stride = x.stride → c.srcIndex = k / View.numElements v →
    c.dstValueIndex = p + c.srcIndex * x.stride →
    At (p + c.srcIndex * x.stride) v (k % View.numElements v) cs → At p (x :: v) k (c :: cs)

variable {v : View} {cs : List Cursor} {p k : Nat}

theorem At.reset (h : At p v k cs) (p' : Nat) :
    At p' v 0 (cs.map ({ · with srcIndex := 0, dstValueIndex := p' })) := by
  induction h
  case nil                 => exact .nil
  case cons hs ht _ _ _ hi => exact .cons hs ht (by simp) (by simp) (by simpa using hi)

theorem next_eq_none (h : At p v k cs) (hk : k + 1 = View.numElements v) : next cs = none := by
  induction h
  case nil => rfl
  case cons p k x v c cs hs _ hx _ _ hi =>
    rw [numElements_cons] at hk
    have hp : 0 < View.numElements v := by
      by_contra h
      simp_all
    have hm : k % View.numElements v + 1 = View.numElements v := by
      by_contra hne
      have hlt := Nat.mod_lt k hp
      have hmod := (succ_div_mod_of_lt (k := k) (m := View.numElements v) (by omega)).2
      rw [hk, Nat.mul_mod_left] at hmod
      omega
    have hd := (succ_div_mod_of_eq hm).1
    rw [hk, Nat.mul_div_cancel _ hp] at hd
    rw [next, hi hm]
    simp only [hs, hx]
    rw [if_neg (by omega)]

theorem next_eq_some (h : At p v k cs) (hk : k + 1 < View.numElements v) :
    ∃ cs', next cs = some (cs', p + offset v (k + 1)) ∧ At p v (k + 1) cs' := by
  induction h
  case nil => simp at hk
  case cons p k x v c cs hs ht hx hb hat hi =>
    rw [numElements_cons] at hk
    have hp : 0 < View.numElements v := Nat.pos_of_mul_pos_left (Nat.zero_lt_of_lt hk)
    by_cases hm : k % View.numElements v + 1 < View.numElements v
    case pos =>
      obtain ⟨hd, hm'⟩ := succ_div_mod_of_lt hm
      obtain ⟨cs', hn, hat'⟩ := hi hm
      refine ⟨c :: cs', ?_, .cons hs ht (hd ▸ hx) hb (hm' ▸ hat')⟩
      rw [next, hn, offset, hd, hm', hx]
      simp only [Nat.add_assoc]
    case neg =>
      have hm : k % View.numElements v + 1 = View.numElements v := by
        have := Nat.mod_lt k hp
        omega
      obtain ⟨hd, hm'⟩ := succ_div_mod_of_eq hm
      have hlt : c.srcIndex + 1 < c.size := by
        rw [hs, hx, ← hd]
        exact (Nat.div_lt_iff_lt_mul hp).mpr hk
      have hb' : c.dstValueIndex + c.stride = p + (c.srcIndex + 1) * x.stride := by
        rw [hb, ht]
        ring
      have ho : p + offset (x :: v) (k + 1) = c.dstValueIndex + c.stride := by
        rw [hb', offset, hd, hm', offset_zero, hx, Nat.add_zero]
      rw [ho, next, next_eq_none hat hm]
      refine ⟨_, if_pos hlt, .cons hs ht (by rw [hd, hx]) hb' ?_⟩
      rw [hm', ← hb']
      exact hat.reset _

theorem scatter_eq_written (ha : a.Valid) (hv : View.numElements v = a.sizes.prod) (h : At 0 v k cs)
    (hk : k < a.values.length) :
    scatter (a.values.drop k) cs (offset v k) (written a (offset v) init k) =
      written a (offset v) init a.values.length := by
  obtain ⟨n, hn⟩ := Nat.exists_eq_add_of_lt hk
  induction n generalizing k cs
  case zero =>
    have hl : k + 1 = View.numElements v := by rw [hv, ← ha.length_values]; omega
    have hn' : a.values.length = k + 1 := by omega
    rw [List.drop_eq_getElem_cons hk, scatter, next_eq_none h hl]
    conv_rhs => rw [hn', written, List.getElem?_eq_getElem hk]
  case succ n hi =>
    have hl : k + 1 < View.numElements v := by rw [hv, ← ha.length_values]; omega
    obtain ⟨cs', hs, h'⟩ := next_eq_some h hl
    have hi' := hi h' (by omega) (by omega)
    rw [List.drop_eq_getElem_cons hk, scatter, hs]
    simp only [Nat.zero_add]
    rw [← hi', written, List.getElem?_eq_getElem hk]

end Cursor

namespace Transpose2D

variable {i₀ : Nat}

-- The view of the destination in the order in which the source is traversed.
def view (a : Array α) : View :=
  [⟨a.dim 0, 1⟩, ⟨a.dim 1, a.dim 0⟩]

def atIndex (a : Array α) (init : List (Option α)) (i₀ i₁ : Nat) : State α where
  permuted      := written a (offset (view a)) init (i₀ * a.dim 1 + i₁)
  srcValueIndex := i₀ * a.dim 1 + i₁
  dstValueIndex := i₀ + i₁ * a.dim 0

theorem column_iterate (hi : i₁ ≤ a.dim 1) : (column a)^[i₁] (atIndex a init i₀ 0) = atIndex a init i₀ i₁ := by
  induction i₁
  case zero => rfl
  case succ i₁ ih =>
    have ho : offset (view a) (i₀ * a.dim 1 + i₁) = i₀ + i₁ * a.dim 0 := by
      have hp : 0 < a.dim 1 := by omega
      simp only [view, offset, numElements_cons, numElements_nil, Nat.mul_one]
      rw [Nat.mul_comm i₀, Nat.mul_add_div hp, Nat.mul_add_mod, Nat.div_eq_of_lt hi, Nat.mod_eq_of_lt hi]
      simp
    rw [Function.iterate_succ_apply', ih (by omega)]
    simp only [column, atIndex, ← ho]
    rw [← Nat.add_assoc, written]
    congr 1
    rw [ho]
    ring

theorem foldl_row (n : Nat) :
    ((List.range n).foldl (row a) ⟨init, 0, 0⟩).permuted = written a (offset (view a)) init (n * a.dim 1) ∧
      ((List.range n).foldl (row a) ⟨init, 0, 0⟩).srcValueIndex = n * a.dim 1 := by
  induction n
  case zero => simp [written]
  case succ n ih =>
    obtain ⟨hp, hs⟩ := ih
    have hr : row a ((List.range n).foldl (row a) ⟨init, 0, 0⟩) n = atIndex a init n (a.dim 1) := by
      rw [row, ← column_iterate le_rfl, hs, hp]
      simp [atIndex]
    rw [List.range_succ, List.foldl_append, List.foldl_cons, List.foldl_nil, hr]
    simp [atIndex, Nat.succ_mul]

end Transpose2D

section Aligned

variable {sizes : List Nat}

theorem strides_eq_map (sizes : List Nat) : strides sizes = (List.range sizes.length).map (stride sizes) := by
  induction sizes
  case nil => rfl
  case cons s sizes hi =>
    have ht : (List.range (s :: sizes).length).map (stride (s :: sizes)) =
        sizes.prod :: (List.range sizes.length).map (stride sizes) := by
      simp [List.range_succ_eq_map, stride, Function.comp_def]
    rw [ht, ← hi]
    cases sizes
    case nil => rfl
    case cons s' sizes =>
      have hh : (strides (s' :: sizes)).headD 1 = sizes.prod := by
        rw [hi]
        simp [List.range_succ_eq_map, stride]
      rw [strides]
      simp only [hh, List.prod_cons, Nat.mul_comm]

-- The strides of the source dimensions in the destination.
def aligned (a : Array α) (perm : List Nat) : List Nat :=
  (perm.zip (strides (perm.map a.dim))).foldl (fun aligned (dim, stride) => aligned.set dim stride)
    (List.replicate a.sizes.length 0)

theorem aligned_view (h : perm.Perm (List.range a.sizes.length)) :
    List.zipWith Axis.mk a.sizes (aligned a perm) = permuted (perm.map a.dim) (inverse perm) := by
  have hl := length_eq_of_perm h
  refine List.ext_getElem? fun d => ?_
  by_cases hd : d < a.sizes.length
  case neg =>
    have hd' : a.sizes.length ≤ d := Nat.le_of_not_lt hd
    simp [permuted, inverse, hd', hl]
  case pos =>
    have hm : d ∈ perm := h.mem_iff.mpr (List.mem_range.mpr hd)
    have hi : perm.idxOf d < perm.length := List.idxOf_lt_length_of_mem hm
    have ha : (aligned a perm)[d]? = some (stride (perm.map a.dim) (perm.idxOf d)) := by
      rw [aligned, List.getElem?_foldl_set (h.nodup_iff.mpr List.nodup_range) (by simp [strides_eq_map]),
        if_pos ⟨hm, by simpa⟩, strides_eq_map]
      simp [hi]
    have hr : (permuted (perm.map a.dim) (inverse perm))[d]? =
        some ⟨a.dim d, stride (perm.map a.dim) (perm.idxOf d)⟩ := by
      simp [permuted, inverse, axis, hl ▸ hd, hi]
    rw [List.getElem?_zipWith, ha, hr, List.getElem?_eq_getElem hd]
    simp [dim, hd]

theorem at_start (sizes ts : List Nat) :
    Cursor.At 0 (List.zipWith Axis.mk sizes ts) 0 (List.zipWith (fun size stride => ⟨size, stride, 0, 0⟩) sizes ts) := by
  induction sizes generalizing ts
  case nil => exact .nil
  case cons s sizes hi =>
    cases ts
    case nil       => exact .nil
    case cons t ts => exact .cons rfl rfl (by simp) (by simp) (by simpa using hi ts)

end Aligned

-- The transposition of an array as a property of its flat values.
structure Gathers (a : Array α) (perm : List Nat) (b : Array α) : Prop where
  valid  : b.Valid
  sizes  : b.sizes = perm.map a.dim
  values : ∀ k < a.sizes.prod, b.values[k]? = a.values[offset (permuted a.sizes perm) k]?

theorem prod_map_dim (h : perm.Perm (List.range a.sizes.length)) : (perm.map a.dim).prod = a.sizes.prod := by
  rw [(h.map _).prod_eq]
  exact congrArg List.prod (map_getD_range a.sizes 1)

theorem Gathers.refl (ha : a.Valid) : Gathers a (List.range a.sizes.length) a where
  valid       := ha
  sizes       := (map_getD_range a.sizes 1).symm
  values k hk := by rw [offset_rowMajor hk]

theorem mapM_id_map_some (xs : List α) : (xs.map some).mapM id = some xs := by
  induction xs <;> simp_all

theorem mapM_id_eq_some {os : List (Option α)} {n : Nat} {f : Nat → Nat} {values : List α} (hl : os.length = n)
    (hv : ∀ k < n, f k < values.length) (h : ∀ k < n, os[k]? = some values[f k]?) :
    ∃ xs, os.mapM id = some xs ∧ xs.length = n ∧ ∀ k < n, xs[k]? = values[f k]? := by
  subst hl
  refine ⟨List.ofFn fun k : Fin os.length => values.get ⟨f k, hv k k.2⟩, ?_, by simp, fun k hk => ?_⟩
  · rw [← mapM_id_map_some (List.ofFn _)]
    congr 1
    refine List.ext_getElem (by simp) fun k h₁ _ => ?_
    have := h k h₁
    rw [List.getElem?_eq_getElem h₁, List.getElem?_eq_getElem (hv k h₁)] at this
    simpa using this
  · simp [hk, hv k hk]

theorem gathers_of_written (ha : a.Valid) (h : perm.Perm (List.range a.sizes.length))
    (hi : init.length = a.sizes.prod) :
    ∃ xs, (written a (offset (permuted (perm.map a.dim) (inverse perm))) init a.values.length).mapM id = some xs ∧
      Gathers a perm ⟨perm.map a.dim, xs⟩ := by
  have hn := ha.length_values
  have hp := prod_map_dim h
  have hlt : ∀ k < a.sizes.prod, offset (permuted a.sizes perm) k < a.values.length :=
    fun k hk => hn ▸ offset_permuted_lt h hk
  have h' : (inverse perm).Perm (List.range (perm.map a.dim).length) := by
    rw [List.length_map, length_eq_of_perm h]
    exact inverse_perm h
  have hw : ∀ k < a.sizes.prod, (written a (offset (permuted (perm.map a.dim) (inverse perm))) init
      a.values.length)[k]? = some a.values[offset (permuted a.sizes perm) k]? := by
    intro k hk
    conv_lhs => arg 2; rw [← show offset (permuted (perm.map a.dim) (inverse perm)) _ = k from inverse_offset h hk]
    refine getElem?_written (fun i hi' => ?_) (fun i hi' => offset_inverse h (hn ▸ hi')) (hlt k hk)
    rw [hi, ← hp]
    exact offset_permuted_lt h' (by rwa [hp, ← hn])
  obtain ⟨xs, hm, hl, hx⟩ := mapM_id_eq_some (by simpa) hlt hw
  exact ⟨xs, hm, ⟨by rw [hl, hp]⟩, rfl, hx⟩

theorem isIdentityPermutation_iff (h : perm.Perm (List.range n)) :
    isIdentityPermutation perm = true ↔ perm = List.range n := by
  rw [isIdentityPermutation, beq_iff_eq, h.length_eq, List.length_range]

theorem transposeDimensionsImpl2D_eq (ha : a.Valid) (h : perm.Perm (List.range a.sizes.length))
    (hl : a.sizes.length = 2) (hid : perm ≠ List.range a.sizes.length) :
    transposeDimensionsImpl2D a init =
      written a (offset (permuted (perm.map a.dim) (inverse perm))) init a.values.length := by
  rw [hl] at h hid
  obtain ⟨x, y, rfl⟩ := List.length_eq_two.mp h.length_eq
  have hx : x < 2 := List.mem_range.mp (h.mem_iff.mp (by simp))
  have hy : y < 2 := List.mem_range.mp (h.mem_iff.mp (by simp))
  have hne : x ≠ y := by simpa using h.nodup_iff.mpr List.nodup_range
  have hxy : x = 1 ∧ y = 0 := by
    have : ¬(x = 0 ∧ y = 1) := fun h => hid (by simp [h.1, h.2, List.range_succ])
    omega
  obtain ⟨rfl, rfl⟩ := hxy
  obtain ⟨s₀, s₁, hs⟩ := List.length_eq_two.mp hl
  have hd : a.dim 0 = s₀ ∧ a.dim 1 = s₁ := by simp [dim, hs]
  have hn : a.values.length = a.dim 0 * a.dim 1 := by
    rw [ha.length_values, hs, hd.1, hd.2]
    simp
  rw [transposeDimensionsImpl2D, (Transpose2D.foldl_row _).1, hn]
  congr 2
  simp [permuted, inverse, Transpose2D.view, axis, stride, List.range_succ, List.idxOf_cons]

theorem transposeDimensionsImpl3DOrMore_eq (ha : a.Valid) (h : perm.Perm (List.range a.sizes.length)) :
    transposeDimensionsImpl3DOrMore a perm (perm.map a.dim) init =
      written a (offset (permuted (perm.map a.dim) (inverse perm))) init a.values.length := by
  have h' : (inverse perm).Perm (List.range (perm.map a.dim).length) := by
    rw [List.length_map, length_eq_of_perm h]
    exact inverse_perm h
  have hv := numElements_permuted h'
  rw [prod_map_dim h] at hv
  obtain hz | hp := Nat.eq_zero_or_pos a.values.length
  case inl =>
    rw [transposeDimensionsImpl3DOrMore, List.length_eq_zero_iff.mp hz]
    rfl
  case inr =>
    have hs : Cursor.scatter _ _ _ (written a _ init 0) = _ :=
      Cursor.scatter_eq_written ha hv (aligned_view h ▸ at_start _ _) hp
    rwa [offset_zero, List.drop_zero] at hs

theorem transposeDimensions_gathers (ha : a.Valid) (h : perm.Perm (List.range a.sizes.length)) :
    ∃ b, a.transposeDimensions perm = some b ∧ Gathers a perm b := by
  have hl := length_eq_of_perm h
  unfold transposeDimensions
  rw [if_neg (not_not.mpr hl.symm)]
  by_cases hid : isIdentityPermutation perm
  case pos =>
    rw [if_pos hid]
    rw [isIdentityPermutation_iff h] at hid
    exact ⟨a, rfl, hid ▸ .refl ha⟩
  case neg =>
    rw [if_neg hid]
    rw [isIdentityPermutation_iff h] at hid
    have hi : (List.replicate (perm.map a.dim).prod (none : Option α)).length = a.sizes.prod := by
      simpa using prod_map_dim h
    obtain ⟨xs, hm, hg⟩ := gathers_of_written ha h hi
    refine ⟨_, ?_, hg⟩
    simp only
    split_ifs with h₂
    case pos =>
      rw [transposeDimensionsImpl2D_eq ha h h₂ hid, hm]
      rfl
    case neg =>
      rw [transposeDimensionsImpl3DOrMore_eq ha h, hm]
      rfl

theorem map_getD_map_range {n : Nat} (h : perm.Perm (List.range n)) (x : Nat → Nat) :
    perm.map (((List.range n).map x).getD · 0) = perm.map x :=
  List.map_congr_left fun d hd => by
    have : d < n := List.mem_range.mp (h.mem_iff.mp hd)
    simp [this]

theorem get_of_digits {x : Nat → Nat} (h : perm.Perm (List.range a.sizes.length)) (hb : b.sizes = perm.map a.dim)
    (hk : k < a.sizes.prod) (hx : Digits a.sizes perm k x) :
    b.get (perm.map x) = b.values[k]? ∧
      a.get ((List.range a.sizes.length).map x) = a.values[offset (permuted a.sizes perm) k]? := by
  have hd : digits b.sizes k = perm.map x := by
    rw [hb]
    exact hx.digits
  have hk' : k < b.sizes.prod := by rwa [hb, prod_map_dim h]
  constructor
  · rw [get, calculateIndex_eq_ravel (hd ▸ digits_inBounds hk'), ← hd, ravel_digits hk']
  · rw [get, calculateIndex_eq_ravel hx.inBounds, ← hx.offset h]

theorem Gathers.isTranspose (h : perm.Perm (List.range a.sizes.length)) (hg : Gathers a perm b) :
    IsTranspose a perm b where
  valid := hg.valid
  sizes := hg.sizes
  get index hi := by
    have hl : index.length = a.sizes.length := List.Forall₂.length_eq hi
    have hm : (List.range a.sizes.length).map (index.getD · 0) = index := hl ▸ map_getD_range index 0
    have hb : InBounds (perm.map a.dim) (perm.map (index.getD · 0)) := by
      have hi' := hi
      rw [InBounds, ← hm, ← map_getD_range a.sizes 1, List.forall₂_map_left_iff, List.length_map,
        List.length_range, List.forall₂_map_right_iff, List.forall₂_same] at hi'
      rw [InBounds, List.forall₂_map_left_iff, List.forall₂_map_right_iff, List.forall₂_same]
      exact fun d hd => hi' d (h.mem_iff.mp hd)
    have hk := hb.ravel_lt
    rw [prod_map_dim h] at hk
    obtain ⟨h₁, h₂⟩ := get_of_digits h hg.sizes hk ⟨hb.digits_ravel, hm.symm ▸ hi⟩
    rw [h₁, hg.values _ hk, ← h₂, hm]

theorem IsTranspose.gathers (h : perm.Perm (List.range a.sizes.length)) (ht : IsTranspose a perm b) :
    Gathers a perm b where
  valid := ht.valid
  sizes := ht.sizes
  values k hk := by
    obtain ⟨x, hx⟩ := exists_digits h hk
    obtain ⟨h₁, h₂⟩ := get_of_digits h ht.sizes hk hx
    rw [← h₁, ← h₂, ← ht.get _ hx.inBounds, map_getD_map_range h]

theorem Gathers.unique (h : perm.Perm (List.range a.sizes.length)) (hb : Gathers a perm b) (hc : Gathers a perm c) :
    b = c := by
  refine Array.ext (hb.sizes.trans hc.sizes.symm) (List.ext_getElem? fun k => ?_)
  have hl : b.values.length = a.sizes.prod := by rw [hb.valid.length_values, hb.sizes, prod_map_dim h]
  have hl' : c.values.length = a.sizes.prod := by rw [hc.valid.length_values, hc.sizes, prod_map_dim h]
  obtain hk | hk := Nat.lt_or_ge k a.sizes.prod
  case inl => rw [hb.values k hk, hc.values k hk]
  case inr => rw [List.getElem?_eq_none (hl ▸ hk), List.getElem?_eq_none (hl' ▸ hk)]

theorem IsTranspose.unique (h : perm.Perm (List.range a.sizes.length)) (hb : IsTranspose a perm b)
    (hc : IsTranspose a perm c) : b = c :=
  (hb.gathers h).unique h (hc.gathers h)

-- `transposeDimensions` computes the transposition.
theorem transposeDimensions_isTranspose (ha : a.Valid) (h : perm.Perm (List.range a.sizes.length)) :
    ∃ b, a.transposeDimensions perm = some b ∧ IsTranspose a perm b := by
  obtain ⟨b, hb, hg⟩ := transposeDimensions_gathers ha h
  exact ⟨b, hb, hg.isTranspose h⟩

end Sharding.Array
