import XlaModel.Lib.PermutedView
import XlaModel.Lib.StridedView

-- Positions in row-major order of the parts of an index.
namespace RowMajor

variable {ds es xs ys : List Nat} {d x : Nat}

theorem ravel_append (h : xs.length = ds.length) : ravel (ds ++ es) (xs ++ ys) = ravel ds xs * es.prod + ravel es ys := by
  induction ds generalizing xs
  case nil =>
    obtain rfl := List.length_eq_zero_iff.mp h
    simp [ravel]
  case cons d ds hi =>
    obtain ⟨x, xs, rfl⟩ := List.exists_cons_of_length_eq_add_one h
    rw [List.cons_append, List.cons_append, ravel, ravel, hi (Nat.succ.inj h), List.prod_append]
    ring

theorem ravel_concat (h : xs.length = ds.length) : ravel (ds ++ [d]) (xs ++ [x]) = ravel ds xs * d + x := by
  simp [ravel_append h, ravel]

theorem ravel_zero (ds : List Nat) (n : Nat) : ravel ds (List.replicate n 0) = 0 := by
  induction ds generalizing n
  case nil          => cases n <;> rfl
  case cons d ds hi => cases n <;> simp [ravel, List.replicate_succ, hi]

theorem ravel_zero_append : ravel (ds ++ es) (List.replicate ds.length 0 ++ ys) = ravel es ys := by
  rw [ravel_append List.length_replicate, ravel_zero, Nat.zero_mul, Nat.zero_add]

-- A dimension of size one does not matter.
theorem ravel_insert_one (h : xs.length = ds.length) : ravel (ds ++ 1 :: es) (xs ++ 0 :: ys) = ravel (ds ++ es) (xs ++ ys) := by
  rw [ravel_append h, ravel_append h, ravel, Nat.zero_mul, Nat.zero_add, List.prod_cons, Nat.one_mul]

theorem ravel_le (h : List.Forall₂ (· ≤ ·) xs ys) : ravel ds xs ≤ ravel ds ys := by
  induction h generalizing ds
  case nil => exact le_rfl
  case cons x y xs ys hx _ hi =>
    cases ds
    case nil       => exact le_rfl
    case cons d ds => exact Nat.add_le_add (Nat.mul_le_mul_right _ hx) hi

theorem InBounds.ravel_inj (hx : InBounds ds xs) (hy : InBounds ds ys) (h : ravel ds xs = ravel ds ys) : xs = ys := by
  rw [← hx.digits_ravel, h, hy.digits_ravel]

end RowMajor

-- Two views are the same if they agree on the unit indices of their axes.
namespace View

variable {u v w : View} {a b : Axis} {k n : Nat}

-- The positions of the unit indices in the order of the view.
def IsUnit : View → Nat → Prop
  | [],     _ => False
  | a :: v, n => (2 ≤ a.size ∧ n = numElements v) ∨ IsUnit v n

theorem isUnit_concat : IsUnit (v ++ [a]) n ↔ (2 ≤ a.size ∧ n = 1) ∨ ∃ m, IsUnit v m ∧ n = m * a.size := by
  induction v
  case nil => simp [IsUnit]
  case cons b v hi =>
    have hs : numElements (v ++ [a]) = numElements v * a.size := by simp
    simp only [List.cons_append, IsUnit, hi, hs]
    constructor
    case mp =>
      rintro (⟨hb, rfl⟩ | h | ⟨m, hm, rfl⟩)
      · exact .inr ⟨_, .inl ⟨hb, rfl⟩, rfl⟩
      · exact .inl h
      · exact .inr ⟨m, .inr hm, rfl⟩
    case mpr =>
      rintro (h | ⟨m, ⟨hb, rfl⟩ | hm, rfl⟩)
      · exact .inr (.inl h)
      · exact .inl ⟨hb, rfl⟩
      · exact .inr (.inr ⟨m, hm, rfl⟩)

theorem isUnit_iff : IsUnit v n ↔ ∃ d, ∃ h : d < v.length, 2 ≤ v[d].size ∧ n = numElements (v.drop (d + 1)) := by
  induction v
  case nil => simp [IsUnit]
  case cons a v hi =>
    rw [IsUnit, hi]
    constructor
    case mp =>
      rintro (⟨ha, rfl⟩ | ⟨d, hd, hs⟩)
      · exact ⟨0, by simp, by simpa⟩
      · exact ⟨d + 1, by simpa using hd, by simpa using hs⟩
    case mpr =>
      rintro ⟨d, hd, hs⟩
      cases d
      case zero   => exact .inl (by simpa using hs)
      case succ d => exact .inr ⟨d, by simpa using hd, by simpa using hs⟩

theorem IsUnit.of_filter (h : IsUnit (v.filter (·.size ≠ 1)) n) : IsUnit v n := by
  induction v
  case nil => exact h
  case cons a v hi =>
    by_cases ha : a.size = 1
    case pos => exact .inr (hi (by simpa [ha] using h))
    case neg =>
      rw [List.filter_cons_of_pos (by simpa using ha)] at h
      obtain ⟨hs, rfl⟩ | h := h
      case inl => exact .inl ⟨hs, (same_filter v).numElements⟩
      case inr => exact .inr (hi h)

theorem IsUnit.lt (h : IsUnit v n) (hp : 0 < numElements v) : n < numElements v := by
  induction v
  case nil => cases h
  case cons a v hi =>
    rw [numElements_cons] at hp ⊢
    have hv : 0 < numElements v := Nat.pos_of_mul_pos_left hp
    obtain ⟨hs, rfl⟩ | h := h
    case inl => exact lt_mul_of_one_lt_left hv hs
    case inr => exact (hi h hv).trans_le (Nat.le_mul_of_pos_left _ (Nat.pos_of_mul_pos_right hp))

structure Agree (v w : View) : Prop where
  numElements : numElements v = numElements w
  offset      : ∀ n, IsUnit v n ∨ IsUnit w n → offset v n = offset w n

-- Every axis has at least two elements.
def Proper (v : View) : Prop :=
  ∀ a ∈ v, 2 ≤ a.size

namespace Proper

theorem left (h : Proper (v ++ w)) : Proper v :=
  fun a ha => h a (List.mem_append_left _ ha)

theorem last (h : Proper (v ++ [a])) : 2 ≤ a.size :=
  h a (by simp)

theorem numElements_pos (h : Proper v) : 0 < numElements v :=
  List.prod_pos fun n hn => by
    obtain ⟨a, ha, rfl⟩ := List.mem_map.mp hn
    exact Nat.zero_lt_of_lt (h a ha)

theorem last_le_numElements (h : Proper (v ++ [a])) : a.size ≤ numElements (v ++ [a]) := by
  simpa using Nat.le_mul_of_pos_left _ h.left.numElements_pos

theorem eq_nil (h : Proper v) (hn : numElements v = 1) : v = [] := by
  cases v
  case nil => rfl
  case cons a v =>
    rw [numElements_cons] at hn
    have := Nat.eq_one_of_mul_eq_one_right hn
    have := h a (.head _)
    omega

theorem offset_of_lt_last (h : Proper (v ++ [a])) (hk : k < a.size) : offset (v ++ [a]) k = k * a.stride := by
  rw [offset_concat (hk.trans_le h.last_le_numElements), Nat.div_eq_of_lt hk, Nat.mod_eq_of_lt hk, offset_zero,
    Nat.zero_add]

theorem offset_one (h : Proper (v ++ [a])) : offset (v ++ [a]) 1 = a.stride := by
  rw [h.offset_of_lt_last h.last, Nat.one_mul]

-- The first element that is not in the first row of the innermost axis.
theorem offset_last (h : Proper (v ++ [b, a])) : offset (v ++ [b, a]) a.size = b.stride := by
  rw [List.append_cons] at h ⊢
  have hlt : a.size < numElements (v ++ [b] ++ [a]) := by
    have hb := h.left.last.trans h.left.last_le_numElements
    have ha := h.last
    rw [numElements_append, numElements_cons, numElements_nil, Nat.mul_one]
    exact lt_mul_of_one_lt_left (by omega) hb
  rw [offset_concat hlt, Nat.div_self (by have := h.last; omega), Nat.mod_self, h.left.offset_one]
  simp

theorem merge (h : Proper (v ++ [b, a])) (n : Nat) : Proper (v ++ [⟨b.size * a.size, n⟩]) := by
  intro c hc
  obtain hc | hc := List.mem_append.mp hc
  case inl => exact h c (List.mem_append_left _ hc)
  case inr =>
    obtain rfl := List.mem_singleton.mp hc
    have ha := h a (by simp)
    have hb := h b (by simp)
    exact hb.trans (Nat.le_mul_of_pos_right _ (by omega))

end Proper

namespace Agree

theorem symm (h : Agree v w) : Agree w v where
  numElements := h.numElements.symm
  offset n hn := (h.offset n hn.symm).symm

theorem filter (h : Agree v w) (hp : 0 < View.numElements v) :
    Agree (v.filter (·.size ≠ 1)) (w.filter (·.size ≠ 1)) where
  numElements := by rw [(same_filter v).numElements, (same_filter w).numElements, h.numElements]
  offset n hn := by
    have hn := hn.imp IsUnit.of_filter IsUnit.of_filter
    have hlt : n < View.numElements v :=
      hn.elim (·.lt hp) fun hn => h.numElements ▸ hn.lt (h.numElements ▸ hp)
    rw [(same_filter v).symm.offset n hlt |>.symm, (same_filter w).symm.offset n (h.numElements ▸ hlt) |>.symm,
      h.offset n hn]

theorem last_stride (h : Agree (v ++ [a]) (w ++ [b])) (hv : Proper (v ++ [a])) (hw : Proper (w ++ [b])) :
    a.stride = b.stride := by
  rw [← hv.offset_one, h.offset 1 (.inl (isUnit_concat.mpr (.inl ⟨hv.last, rfl⟩))), hw.offset_one]

-- Innermost axes that are equal can be removed.
theorem init (h : Agree (v ++ [a]) (w ++ [a])) (hv : Proper (v ++ [a])) (hw : Proper w) : Agree v w := by
  have ha : 0 < a.size := Nat.zero_lt_of_lt hv.last
  have hn : View.numElements v = View.numElements w := by simpa [ha.ne'] using h.numElements
  refine ⟨hn, fun n hu => ?_⟩
  have hlt : n < View.numElements v :=
    hu.elim (·.lt hv.left.numElements_pos) fun hu => hn ▸ hu.lt hw.numElements_pos
  have hlt' : n * a.size < View.numElements (v ++ [a]) := by simpa using Nat.mul_lt_mul_of_pos_right hlt ha
  have := h.offset (n * a.size) <|
    hu.imp (fun hu => isUnit_concat.mpr (.inr ⟨n, hu, rfl⟩)) fun hu => isUnit_concat.mpr (.inr ⟨n, hu, rfl⟩)
  rw [offset_concat hlt', offset_concat (h.numElements ▸ hlt')] at this
  simpa [Nat.mul_div_cancel _ ha] using this

-- The wrap of an innermost axis happens within the innermost axis of the other view.
theorem contiguous (h : Agree (v ++ [b, a]) (w ++ [c])) (hv : Proper (v ++ [b, a])) (hw : Proper (w ++ [c]))
    (hlt : a.size < c.size) : b.stride = a.size * a.stride := by
  have hb : 2 ≤ b.size := hv b (by simp)
  have hc := h
  rw [List.append_cons] at hc
  have hu : IsUnit (v ++ [b, a]) a.size := by
    rw [List.append_cons, isUnit_concat]
    exact .inr ⟨1, isUnit_concat.mpr (.inl ⟨hb, rfl⟩), (Nat.one_mul _).symm⟩
  rw [← hv.offset_last, h.offset _ (.inl hu), hw.offset_of_lt_last hlt,
    hc.last_stride (by rwa [List.append_cons] at hv) hw]

theorem same_merge_last (h : b.stride = a.size * a.stride) :
    Same (v ++ [b, a]) (v ++ [⟨b.size * a.size, a.stride⟩]) :=
  (Same.refl v).append (View.same_merge h)

-- Innermost axes that are contiguous can be merged.
theorem merge (h : Agree (v ++ [b, a]) w) (hv : Proper (v ++ [b, a])) (hw : Proper w)
    (hc : b.stride = a.size * a.stride) : Agree (v ++ [⟨b.size * a.size, a.stride⟩]) w := by
  have hs := same_merge_last (v := v) hc
  have hn := hs.numElements.symm.trans h.numElements
  refine ⟨hn, fun n hu => ?_⟩
  have hu : IsUnit (v ++ [b, a]) n ∨ IsUnit w n := by
    refine hu.imp_left fun hu => ?_
    rw [List.append_cons, isUnit_concat]
    obtain ⟨-, rfl⟩ | ⟨m, hm, rfl⟩ := isUnit_concat.mp hu
    case inl => exact .inl ⟨hv a (by simp), rfl⟩
    case inr => exact .inr ⟨m * b.size, isUnit_concat.mpr (.inr ⟨m, hm, rfl⟩), by ring⟩
  have hlt : n < View.numElements (v ++ [b, a]) :=
    hu.elim (·.lt hv.numElements_pos) fun hu => h.numElements ▸ hu.lt hw.numElements_pos
  rw [← hs.offset n hlt, h.offset n hu]

end Agree

namespace Agree

theorem nil (h : Agree [] w) (hw : Proper w) : Same [] w := by
  rw [hw.eq_nil h.numElements.symm]
  exact .refl []

-- The outcome of the wrap of a shorter innermost axis.
theorem exists_contiguous (h : Agree (v ++ [a]) (w ++ [c])) (hv : Proper (v ++ [a])) (hw : Proper (w ++ [c]))
    (hlt : a.size < c.size) : ∃ u b, v = u ++ [b] ∧ b.stride = a.size * a.stride := by
  obtain rfl | ⟨u, b, rfl⟩ := List.eq_nil_or_concat' v
  case inl =>
    have := hw.last_le_numElements
    rw [← h.numElements, List.nil_append, numElements_cons, numElements_nil] at this
    omega
  case inr =>
    rw [List.append_assoc] at h hv
    exact ⟨u, b, rfl, h.contiguous hv hw hlt⟩

theorem same_of_proper (h : Agree v w) (hv : Proper v) (hw : Proper w) : Same v w := by
  -- The induction is on the number of axes, since every step removes or merges one.
  induction hl : v.length + w.length using Nat.strong_induction_on generalizing v w
  case h l hi =>
    obtain rfl | ⟨v, a, rfl⟩ := List.eq_nil_or_concat' v
    case inl => exact h.nil hw
    obtain rfl | ⟨w, c, rfl⟩ := List.eq_nil_or_concat' w
    case inl => exact (h.symm.nil hv).symm
    rw [List.length_append, List.length_append, List.length_singleton, List.length_singleton] at hl
    obtain hlt | heq | hlt := Nat.lt_trichotomy a.size c.size
    case inl =>
      obtain ⟨u, b, rfl, hb⟩ := h.exists_contiguous hv hw hlt
      rw [List.append_assoc] at h hv ⊢
      refine (same_merge_last hb).trans (hi _ ?_ (h.merge hv hw hb) (hv.merge _) hw rfl)
      simp at hl ⊢
      omega
    case inr.inl =>
      obtain rfl := Axis.ext heq (h.last_stride hv hw)
      exact (hi _ (by omega) (h.init hv hw.left) hv.left hw.left rfl).append (.refl _)
    case inr.inr =>
      obtain ⟨u, b, rfl, hb⟩ := h.symm.exists_contiguous hw hv hlt
      rw [List.append_assoc] at h hw ⊢
      refine (hi _ ?_ (h.symm.merge hw hv hb).symm hv (hw.merge _) rfl).trans (same_merge_last hb).symm
      simp at hl ⊢
      omega

theorem same (h : Agree v w) (hp : 0 < View.numElements v) : Same v w := by
  have hf {v : View} (hp : 0 < View.numElements v) : Proper (v.filter (·.size ≠ 1)) := by
    intro a ha
    obtain ⟨ha, hs⟩ := List.mem_filter.mp ha
    have := Nat.pos_of_dvd_of_pos (List.dvd_prod (List.mem_map_of_mem (f := Axis.size) ha)) hp
    simp at hs
    omega
  have := (h.filter hp).same_of_proper (hf hp) (hf (h.numElements ▸ hp))
  exact (same_filter v).symm.trans (this.trans (same_filter w))

end Agree

theorem same_iff_agree (hp : 0 < numElements v) : Same v w ↔ Agree v w where
  mp h := ⟨h.numElements, fun n hn =>
    h.offset n (hn.elim (·.lt hp) fun hn => h.numElements ▸ hn.lt (h.numElements ▸ hp))⟩
  mpr h := h.same hp

end View
