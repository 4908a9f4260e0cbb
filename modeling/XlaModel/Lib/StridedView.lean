import Mathlib.Algebra.BigOperators.Group.List.Basic
import Mathlib.Data.List.Range
import Mathlib.Tactic

-- Strided views of a flat array. A view lists its axes from major to minor, each with its size and with the
-- distance of neighbouring elements in the flat array.
@[ext]
structure Axis where
  size   : Nat
  stride : Nat
  deriving DecidableEq

abbrev View := List Axis

namespace View

variable {u v w v' w' : View} {a b : Axis} {k n : Nat}

def numElements (v : View) : Nat :=
  (v.map Axis.size).prod

-- The position in the flat array of the `k`-th element of the view.
def offset : View → Nat → Nat
  | [],     _ => 0
  | a :: v, k => k / numElements v * a.stride + offset v (k % numElements v)

@[simp]
theorem numElements_nil : numElements [] = 1 := rfl

@[simp]
theorem numElements_cons : numElements (a :: v) = a.size * numElements v := by
  simp [numElements]

@[simp]
theorem numElements_append : numElements (v ++ w) = numElements v * numElements w := by
  simp [numElements]

theorem offset_zero : offset v 0 = 0 := by
  induction v <;> simp_all [offset]

theorem offset_singleton : offset [a] k = k * a.stride := by
  simp [offset]

theorem offset_append (hk : k < numElements (v ++ w)) :
    offset (v ++ w) k = offset v (k / numElements w) + offset w (k % numElements w) := by
  induction v generalizing k
  case nil => simp [offset, Nat.mod_eq_of_lt (show k < numElements w from hk)]
  case cons a v hi =>
    have hp : 0 < numElements v * numElements w := by
      rw [List.cons_append, numElements_cons, numElements_append] at hk
      exact Nat.pos_of_mul_pos_left (Nat.zero_lt_of_lt hk)
    have hd : k / (numElements v * numElements w) = k / numElements w / numElements v := by
      rw [Nat.div_div_eq_div_mul, Nat.mul_comm]
    have hm : k % (numElements v * numElements w) / numElements w =
        k / numElements w % numElements v :=
      Nat.mod_mul_left_div_self ..
    have hm' : k % (numElements v * numElements w) % numElements w = k % numElements w :=
      Nat.mod_mod_of_dvd _ (Nat.dvd_mul_left ..)
    have hi' := hi (numElements_append (v := v) (w := w) ▸ Nat.mod_lt k hp)
    rw [numElements_append] at hi'
    simp only [List.cons_append, offset, numElements_append, hi', hd, hm, hm', Nat.add_assoc]

-- Two views of the same elements in the same order.
structure Same (v w : View) : Prop where
  numElements : numElements v = numElements w
  offset      : ∀ k < View.numElements v, offset v k = offset w k

namespace Same

theorem refl (v : View) : Same v v :=
  ⟨rfl, fun _ _ => rfl⟩

theorem symm (h : Same v w) : Same w v where
  numElements := h.numElements.symm
  offset k hk := (h.offset k <| h.numElements ▸ hk).symm

theorem trans (h : Same u v) (h' : Same v w) : Same u w where
  numElements := h.numElements.trans h'.numElements
  offset k hk := (h.offset k hk).trans (h'.offset k <| h.numElements ▸ hk)

theorem append (hv : Same v v') (hw : Same w w') : Same (v ++ w) (v' ++ w') where
  numElements := by simp [hv.numElements, hw.numElements]
  offset k hk := by
    have hk' : k < View.numElements (v' ++ w') := by
      simpa [hv.numElements, hw.numElements] using hk
    rw [offset_append hk, offset_append hk']
    rw [numElements_append] at hk
    have hp : 0 < View.numElements w := Nat.pos_of_mul_pos_left (Nat.zero_lt_of_lt hk)
    rw [← hw.numElements, hw.offset _ (Nat.mod_lt _ hp),
      hv.offset _ ((Nat.div_lt_iff_lt_mul hp).mpr hk)]

theorem cons (h : Same v w) : Same (a :: v) (a :: w) :=
  (refl [a]).append h

end Same

theorem same_one (h : a.size = 1) : Same (a :: v) v where
  numElements := by simp [h]
  offset k hk := by
    rw [numElements_cons, h, Nat.one_mul] at hk
    simp [offset, Nat.div_eq_of_lt hk, Nat.mod_eq_of_lt hk]

theorem same_ones (h : ∀ a ∈ u, a.size = 1) : Same (u ++ v) v := by
  induction u
  case nil         => exact .refl v
  case cons a u hi => exact (same_one (h a (.head _))).trans (hi fun b hb => h b (.tail _ hb))

theorem same_filter (v : View) : Same (v.filter (·.size ≠ 1)) v := by
  induction v
  case nil => exact .refl _
  case cons a v hi =>
    by_cases h : a.size = 1
    case pos => simpa [h] using hi.trans (same_one h).symm
    case neg => simpa [h] using hi.cons

-- Neighbouring axes that are contiguous are one axis.
theorem same_merge (h : a.stride = b.size * b.stride) :
    Same (a :: b :: v) (⟨a.size * b.size, b.stride⟩ :: v) := by
  have hs : Same [a, b] [⟨a.size * b.size, b.stride⟩] := by
    refine ⟨by simp, fun k _ => ?_⟩
    calc offset [a, b] k
      _ = k / b.size * a.stride + k % b.size * b.stride := by simp [offset]
      _ = (b.size * (k / b.size) + k % b.size) * b.stride := by rw [h]; ring
      _ = offset [⟨a.size * b.size, b.stride⟩] k := by rw [Nat.div_add_mod, offset_singleton]
  exact hs.append (.refl v)

-- Every axis has at least two elements and no two neighbouring axes are contiguous.
structure Normal (v : View) : Prop where
  two_le : ∀ a ∈ v, 2 ≤ a.size
  chain  : v.IsChain (fun a b => a.stride ≠ b.size * b.stride)

def merge (a : Axis) : View → View
  | []     => if a.size = 1 then [] else [a]
  | b :: v =>
    if a.size = 1 then b :: v
    else if a.stride = b.size * b.stride then ⟨a.size * b.size, b.stride⟩ :: v
    else a :: b :: v

def normalize : View → View
  | []     => []
  | a :: v => merge a (normalize v)

theorem same_of_merge : Same (merge a v) (a :: v) := by
  unfold merge
  cases v <;> simp only
  case nil =>
    split
    case isTrue h => exact (same_one h).symm
    case isFalse  => exact .refl _
  case cons b v =>
    split_ifs
    case pos h   => exact (same_one h).symm
    case pos _ h => exact (same_merge h).symm
    case neg     => exact .refl _

theorem normalize_same (v : View) : Same (normalize v) v := by
  induction v
  case nil         => exact .refl _
  case cons a v hi => exact same_of_merge.trans hi.cons

namespace Normal

theorem merge (h : Normal v) (ha : 0 < a.size) : Normal (merge a v) := by
  unfold View.merge
  cases v <;> simp only
  case nil =>
    split
    case isTrue    => exact h
    case isFalse hs => exact ⟨by simp; omega, by simp⟩
  case cons b v =>
    have hb := h.two_le b (.head _)
    split_ifs with hs hm
    case pos => exact h
    case pos =>
      refine ⟨fun c hc => ?_, ?_⟩
      · cases hc
        case head    => exact hb.trans (Nat.le_mul_of_pos_left _ ha)
        case tail hc => exact h.two_le c (.tail _ hc)
      · have hc := h.chain
        cases v <;> simp_all
    case neg =>
      refine ⟨fun c hc => ?_, ?_⟩
      · cases hc
        case head    => omega
        case tail hc => exact h.two_le c hc
      · simpa [hm] using h.chain

end Normal

theorem normalize_normal (h : ∀ a ∈ v, 0 < a.size) : Normal (normalize v) := by
  induction v
  case nil         => exact ⟨by simp [normalize], by simp [normalize]⟩
  case cons a v hi => exact (hi fun b hb => h b (.tail _ hb)).merge (h a (.head _))

theorem offset_concat (hk : k < numElements (v ++ [a])) :
    offset (v ++ [a]) k = offset v (k / a.size) + k % a.size * a.stride := by
  rw [offset_append hk, offset_singleton]
  simp

namespace Normal

theorem left (h : Normal (v ++ w)) : Normal v where
  two_le b hb := h.two_le b (List.mem_append_left _ hb)
  chain       := h.chain.left_of_append

theorem numElements_pos (h : Normal v) : 0 < numElements v :=
  List.prod_pos fun n hn => by
    obtain ⟨a, ha, rfl⟩ := List.mem_map.mp hn
    exact Nat.zero_lt_of_lt (h.two_le a ha)

variable (h : Normal (v ++ [a]))
include h

theorem last_two_le : 2 ≤ a.size :=
  h.two_le a (by simp)

theorem last_le_numElements : a.size ≤ numElements (v ++ [a]) := by
  simpa using Nat.le_mul_of_pos_left _ h.left.numElements_pos

-- The innermost axis is the longest arithmetic progression at the beginning of the view.
theorem offset_of_lt_last (hk : k < a.size) : offset (v ++ [a]) k = k * a.stride := by
  rw [offset_concat (hk.trans_le h.last_le_numElements), Nat.div_eq_of_lt hk, Nat.mod_eq_of_lt hk, offset_zero,
    Nat.zero_add]

theorem offset_one : offset (v ++ [a]) 1 = a.stride := by
  rw [h.offset_of_lt_last h.last_two_le, Nat.one_mul]

theorem offset_last_ne (hs : a.size < numElements (v ++ [a])) :
    offset (v ++ [a]) a.size ≠ a.size * a.stride := by
  have hp : 0 < a.size := Nat.zero_lt_of_lt h.last_two_le
  rw [offset_concat hs, Nat.div_self hp, Nat.mod_self, Nat.zero_mul, Nat.add_zero]
  obtain rfl | ⟨u, b, rfl⟩ := List.eq_nil_or_concat' v
  case inl => simp at hs
  case inr =>
    rw [h.left.offset_one]
    have hc := h.chain
    rw [List.append_assoc, List.isChain_append] at hc
    simpa using hc.2.1

end Normal

theorem Same.last_le (hs : Same (v ++ [a]) (w ++ [b])) (hv : Normal (v ++ [a])) (hw : Normal (w ++ [b])) :
    b.size ≤ a.size ∧ a.stride = b.stride := by
  have h₁ : 1 < View.numElements (v ++ [a]) := hv.last_two_le.trans hv.last_le_numElements
  have ht : a.stride = b.stride := by
    rw [← hv.offset_one, hs.offset 1 h₁, hw.offset_one]
  refine ⟨?_, ht⟩
  by_contra hl
  have hl' : a.size < View.numElements (v ++ [a]) := by
    rw [hs.numElements]
    exact (Nat.lt_of_not_le hl).trans_le hw.last_le_numElements
  apply hv.offset_last_ne hl'
  rw [hs.offset _ hl', hw.offset_of_lt_last (Nat.lt_of_not_le hl), ht]

theorem Same.init (hs : Same (v ++ [a]) (w ++ [a])) (ha : 0 < a.size) : Same v w where
  numElements := by simpa [ha.ne'] using hs.numElements
  offset k hk := by
    have hk' : k * a.size < View.numElements (v ++ [a]) := by
      simpa using Nat.mul_lt_mul_of_pos_right hk ha
    have := hs.offset _ hk'
    rw [offset_concat hk', offset_concat (hs.numElements ▸ hk')] at this
    simpa [Nat.mul_div_cancel _ ha] using this

-- The elements of a view determine its normal form.
theorem Normal.unique (hv : Normal v) (hw : Normal w) (hs : Same v w) : v = w := by
  induction v using List.reverseRecOn generalizing w
  case nil =>
    obtain rfl | ⟨w, b, rfl⟩ := List.eq_nil_or_concat' w
    case inl => rfl
    case inr =>
      have := hs.numElements ▸ hw.last_two_le.trans hw.last_le_numElements
      simp at this
  case append_singleton v a hi =>
    obtain rfl | ⟨w, b, rfl⟩ := List.eq_nil_or_concat' w
    case inl =>
      have := hs.numElements ▸ hv.last_two_le.trans hv.last_le_numElements
      simp at this
    case inr =>
      obtain ⟨hba, ht⟩ := hs.last_le hv hw
      obtain ⟨hab, _⟩  := hs.symm.last_le hw hv
      obtain rfl : a = b := Axis.ext (Nat.le_antisymm hab hba) ht
      have ha : 0 < a.size := Nat.zero_lt_of_lt hv.last_two_le
      rw [hi hv.left hw.left (hs.init ha)]

theorem Normal.eq_normalize (hv : Normal v) (hs : Same v w) (hw : ∀ a ∈ w, 0 < a.size) : v = normalize w :=
  hv.unique (normalize_normal hw) (hs.trans (normalize_same w).symm)

section Cut

theorem normalize_head (ha : a.size ≠ 1) (v : View) :
    ∃ b w, normalize (a :: v) = b :: w ∧ b.size * b.stride = a.size * a.stride := by
  rw [normalize]
  cases normalize v
  case nil => exact ⟨a, [], by rw [merge, if_neg ha], rfl⟩
  case cons b w =>
    rw [merge, if_neg ha]
    split_ifs with h
    case pos => exact ⟨_, _, rfl, by rw [h, Nat.mul_assoc]⟩
    case neg => exact ⟨_, _, rfl, rfl⟩

-- Neighbouring axes that are not contiguous are not merged.
theorem normalize_suffix (ha : a.size ≠ 1) (hb : b.size ≠ 1) (h : a.stride ≠ b.size * b.stride) :
    ∃ u, u ≠ [] ∧ normalize (v ++ a :: b :: w) = u ++ normalize (b :: w) := by
  induction v
  case nil =>
    obtain ⟨c, x, hn, hc⟩ := normalize_head hb w
    refine ⟨[a], List.cons_ne_nil _ _, ?_⟩
    rw [List.nil_append, normalize, hn, merge, if_neg ha, if_neg (hc ▸ h)]
    rfl
  case cons c v hi =>
    obtain ⟨u, hu, hn⟩ := hi
    obtain ⟨e, u, rfl⟩ := List.exists_cons_of_ne_nil hu
    rw [List.cons_append, normalize, hn, List.cons_append, merge]
    split_ifs
    case pos => exact ⟨_, List.cons_ne_nil _ _, rfl⟩
    case pos => exact ⟨⟨c.size * e.size, e.stride⟩ :: u, List.cons_ne_nil _ _, rfl⟩
    case neg => exact ⟨c :: e :: u, List.cons_ne_nil _ _, rfl⟩

-- An axis starts at an axis of the view.
theorem exists_suffix_of_normalize (h : normalize w = u ++ v) : ∃ w₁ w₂, w = w₁ ++ w₂ ∧ numElements w₂ = numElements v := by
  induction w generalizing u
  case nil =>
    obtain ⟨rfl, rfl⟩ := List.append_eq_nil_iff.mp h.symm
    exact ⟨[], [], rfl, rfl⟩
  case cons a w hi =>
    have hi' {u : View} (h : normalize w = u ++ v) : ∃ w₁ w₂, a :: w = w₁ ++ w₂ ∧ numElements w₂ = numElements v := by
      obtain ⟨w₁, w₂, hw, hn⟩ := hi h
      exact ⟨a :: w₁, w₂, congrArg _ hw, hn⟩
    cases u
    case nil => exact ⟨[], a :: w, rfl, (normalize_same _).numElements.symm.trans (congrArg numElements h)⟩
    case cons c u =>
      rw [normalize] at h
      cases hw : normalize w
      case nil =>
        obtain rfl : v = [] := by
          rw [hw, merge] at h
          split_ifs at h
          case pos => cases h
          case neg => exact (List.append_eq_nil_iff.mp (List.cons.inj h).2.symm).2
        exact ⟨a :: w, [], (List.append_nil _).symm, rfl⟩
      case cons b x =>
        rw [hw, merge] at h
        split_ifs at h
        case pos => exact hi' (hw.trans h)
        case pos =>
          obtain ⟨-, rfl⟩ := List.cons.inj h
          exact hi' (hw.trans (List.cons_append ..).symm)
        case neg => exact hi' (hw.trans (List.cons.inj h).2)

theorem size_pos (h : 0 < numElements v) : ∀ a ∈ v, 0 < a.size := fun _ ha =>
  Nat.pos_of_dvd_of_pos (List.dvd_prod (List.mem_map_of_mem ha)) h

-- Another view of the elements is cut wherever two neighbouring axes are not contiguous.
theorem exists_suffix_of_same (hs : Same (v ++ a :: b :: u) w) (hp : 0 < numElements w) (ha : a.size ≠ 1) (hb : b.size ≠ 1)
    (h : a.stride ≠ b.size * b.stride) : ∃ w₁ w₂, w = w₁ ++ w₂ ∧ numElements w₂ = numElements (b :: u) := by
  have hn := (normalize_normal (size_pos (hs.numElements ▸ hp))).eq_normalize ((normalize_same _).trans hs) (size_pos hp)
  obtain ⟨x, -, hx⟩ := normalize_suffix ha hb h
  obtain ⟨w₁, w₂, hw, hn⟩ := exists_suffix_of_normalize (hn.symm.trans hx)
  exact ⟨w₁, w₂, hw, hn.trans (normalize_same _).numElements⟩

end Cut

end View
