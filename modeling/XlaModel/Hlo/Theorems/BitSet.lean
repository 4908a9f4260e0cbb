import Mathlib.Data.List.GetD
import XlaModel.Hlo.ReachabilityMap

namespace Hlo.BitSet

variable {b other : BitSet} {i j n : Nat} {diff : List (Nat × Word)}

theorem and_shiftLeft_ne_zero {x : Word} (hi : i < 64) : (x &&& (1#64 <<< i) ≠ 0) ↔ x.getLsbD i = true := by
  constructor
  · intro h
    by_contra hx
    refine h (BitVec.eq_of_getLsbD_eq fun k hk => ?_)
    by_cases hik : k = i
    case pos => simp [hik, hx]
    case neg =>
      have : ¬(k - i = 0 ∧ i ≤ k) := by omega
      simp only [BitVec.getLsbD_and, BitVec.getLsbD_shiftLeft, BitVec.getLsbD_one]
      simp
      omega
  · intro hx h
    have hz : (x &&& 1#64 <<< i).getLsbD i = false := by rw [h]; exact BitVec.getLsbD_zero
    rw [BitVec.getLsbD_and, hx, BitVec.getLsbD_shiftLeft] at hz
    simp [hi] at hz

theorem get_eq : b.get i = (b.words.getD (i / 64) 0).getLsbD (i % 64) := by
  rw [get, kBits, Bool.eq_iff_iff, decide_eq_true_iff]
  exact and_shiftLeft_ne_zero (Nat.mod_lt _ (by decide))

theorem getD_zipWith {f : Word → Word → Word} {xs ys : List Word} (h : xs.length = ys.length) (hf : f 0 0 = 0) :
    (List.zipWith f xs ys).getD i 0 = f (xs.getD i 0) (ys.getD i 0) := by
  simp only [List.getD_eq_getElem?_getD, List.getElem?_zipWith]
  by_cases hi : i < xs.length
  case pos =>
    have hi' : i < ys.length := h ▸ hi
    simp [hi, hi']
  case neg =>
    have hi' : ys.length ≤ i := by omega
    rw [List.getElem?_eq_none (Nat.le_of_not_lt hi), List.getElem?_eq_none hi']
    exact hf.symm

@[simp]
theorem get_zero : (zero n).get i = false := by
  rw [get_eq, zero]
  by_cases h : i / 64 < n <;> simp [h]

@[simp]
theorem get_setToZero : b.setToZero.get i = false :=
  get_zero

theorem get_or (h : b.words.length = other.words.length) : (b.or other).get i = (b.get i || other.get i) := by
  rw [get_eq, get_eq, get_eq, or, getD_zipWith h (by simp), BitVec.getLsbD_or]

theorem getD_modify {f : Word → Word} {xs : List Word} (hi : i < xs.length) :
    (xs.modify i f).getD j 0 = if i = j then f (xs.getD j 0) else xs.getD j 0 := by
  rw [List.getD_eq_getElem?_getD, List.getElem?_modify]
  split
  case isTrue h =>
    subst h
    simp [hi]
  case isFalse => simp

theorem get_set (hi : i < 64 * b.words.length) : (b.set i).get j = (b.get j || decide (j = i)) := by
  have hl : i / 64 < b.words.length := Nat.div_lt_of_lt_mul hi
  have hm : i % 64 < 64 := Nat.mod_lt _ (by decide)
  have hm' : j % 64 < 64 := Nat.mod_lt _ (by decide)
  rw [get_eq, get_eq, set, kBits, getD_modify hl]
  split
  case isTrue hw =>
    have hb : (1#64 <<< (i % 64)).getLsbD (j % 64) = decide (j = i) := by
      rw [BitVec.getLsbD_shiftLeft, BitVec.getLsbD_one, Bool.eq_iff_iff]
      simp
      omega
    rw [BitVec.getLsbD_or, hb]
  case isFalse hw =>
    have : j ≠ i := by
      rintro rfl
      exact hw rfl
    simp [this]

theorem get_lt (h : b.get i = true) : i < 64 * b.words.length := by
  by_contra hi
  have : b.words.length ≤ i / 64 := (Nat.le_div_iff_mul_le (by decide)).mpr (by omega)
  rw [get_eq, List.getD_eq_default _ _ this] at h
  simp at h

section OrUpdate

theorem foldl_or_ne_zero {xs : List Word} {x : Word} :
    xs.foldl (· ||| ·) x ≠ 0 ↔ x ≠ 0 ∨ ∃ y ∈ xs, y ≠ 0 := by
  induction xs generalizing x
  case nil => simp
  case cons y xs hi =>
    have hor : x ||| y ≠ 0 ↔ x ≠ 0 ∨ y ≠ 0 := by
      rw [← not_and_or, not_iff_not]
      exact BitVec.or_eq_zero_iff
    rw [List.foldl_cons, hi, hor, or_assoc]
    simp

theorem exists_bit {y : Word} (h : y ≠ 0) : ∃ k, k < 64 ∧ y.getLsbD k = true := by
  by_contra hn
  refine h (BitVec.eq_of_getLsbD_eq fun k hk => ?_)
  have hf : y.getLsbD k = false := by
    by_contra hy
    exact hn ⟨k, hk, by simpa using hy⟩
  rw [hf]
  exact BitVec.getLsbD_zero.symm

theorem orUpdate_changed (h : b.words.length = other.words.length) :
    (b.orUpdate other).2 = true ↔ ∃ i, other.get i = true ∧ b.get i = false := by
  have hz (w : Nat) : (List.zipWith (~~~· &&& ·) b.words other.words).getD w 0 =
      ~~~(b.words.getD w 0) &&& other.words.getD w 0 :=
    getD_zipWith h (by simp)
  rw [orUpdate, decide_eq_true_iff, foldl_or_ne_zero]
  constructor
  · rintro (h | ⟨y, hy, hne⟩)
    case inl => exact absurd rfl h
    case inr =>
      obtain ⟨w, hw, rfl⟩ := List.mem_iff_getElem.mp hy
      have hw' := hz w
      rw [List.getD_eq_getElem _ _ hw] at hw'
      obtain ⟨k, hk, hb⟩ := exists_bit hne
      refine ⟨64 * w + k, ?_⟩
      rw [get_eq, get_eq, Nat.mul_add_div (by decide), Nat.div_eq_of_lt hk, Nat.mul_add_mod, Nat.mod_eq_of_lt hk]
      rw [hw', BitVec.getLsbD_and, BitVec.getLsbD_not] at hb
      simpa [hk, and_comm] using hb
  · rintro ⟨i, ho, hb⟩
    have hl := get_lt ho
    have hw : i / 64 < (List.zipWith (~~~· &&& ·) b.words other.words).length := by
      simp
      omega
    refine .inr ⟨_, List.getElem_mem hw, fun hne => ?_⟩
    have hw' := hz (i / 64)
    rw [List.getD_eq_getElem _ _ hw, hne] at hw'
    have := congrArg (·.getLsbD (i % 64)) hw'
    rw [get_eq] at ho hb
    simp only [BitVec.getLsbD_and, BitVec.getLsbD_not, ho, hb] at this
    simp [Nat.mod_lt] at this

end OrUpdate

section Differing

theorem length_orUpdatePartial : (b.orUpdatePartial diff).words.length = b.words.length := by
  rw [orUpdatePartial]
  induction diff generalizing b
  case nil            => rfl
  case cons d diff hi =>
    have := hi (b := ⟨b.words.modify d.1 (· ||| d.2)⟩)
    simpa using this

theorem get_orUpdatePartial (h : ∀ d ∈ diff, d.1 < b.words.length) :
    (b.orUpdatePartial diff).get i = true ↔
      b.get i = true ∨ ∃ d ∈ diff, d.1 = i / 64 ∧ d.2.getLsbD (i % 64) = true := by
  induction diff generalizing b
  case nil => simp [orUpdatePartial]
  case cons d diff hi =>
    have hd := h d (.head _)
    have hi := hi (b := ⟨b.words.modify d.1 (· ||| d.2)⟩) (fun d hd => by simpa using h d (.tail _ hd))
    have hg : (⟨b.words.modify d.1 (· ||| d.2)⟩ : BitSet).get i = true ↔
        b.get i = true ∨ (d.1 = i / 64 ∧ d.2.getLsbD (i % 64) = true) := by
      rw [get_eq, get_eq, getD_modify hd]
      split <;> simp_all
    have hc : b.orUpdatePartial (d :: diff) = (⟨b.words.modify d.1 (· ||| d.2)⟩ : BitSet).orUpdatePartial diff := rfl
    rw [hc, hi, hg, or_assoc]
    simp

theorem mem_differingWords {xs ys : List Word} {m : Nat} {d : Nat × Word} :
    d ∈ differingWords m xs ys ↔
      ∃ w x y, xs[w]? = some x ∧ ys[w]? = some y ∧ x ≠ y ∧ d = (m + w, x ||| y) := by
  induction xs generalizing m ys
  case nil => simp [differingWords]
  case cons x xs hi =>
    cases ys
    case nil => simp [differingWords]
    case cons y ys =>
      have ht : (∃ w a b, xs[w]? = some a ∧ ys[w]? = some b ∧ a ≠ b ∧ d = (m + 1 + w, a ||| b)) ↔
          ∃ w a b, (x :: xs)[w + 1]? = some a ∧ (y :: ys)[w + 1]? = some b ∧ a ≠ b ∧ d = (m + (w + 1), a ||| b) := by
        simp [Nat.add_assoc, Nat.add_comm 1]
      have hs : (∃ w a b, (x :: xs)[w]? = some a ∧ (y :: ys)[w]? = some b ∧ a ≠ b ∧ d = (m + w, a ||| b)) ↔
          (x ≠ y ∧ d = (m, x ||| y)) ∨
            ∃ w a b, (x :: xs)[w + 1]? = some a ∧ (y :: ys)[w + 1]? = some b ∧ a ≠ b ∧ d = (m + (w + 1), a ||| b) := by
        constructor
        · rintro ⟨w, a, b, ha, hb, hne, hd⟩
          cases w
          case zero =>
            obtain rfl : x = a := by simpa using ha
            obtain rfl : y = b := by simpa using hb
            exact .inl ⟨hne, hd⟩
          case succ w => exact .inr ⟨w, a, b, ha, hb, hne, hd⟩
        · rintro (⟨hne, hd⟩ | ⟨w, h⟩)
          case inl => exact ⟨0, x, y, rfl, rfl, hne, hd⟩
          case inr => exact ⟨w + 1, h⟩
      rw [hs, ← ht, ← hi, differingWords]
      split
      case isTrue h  => simp [h]
      case isFalse h => simp [h]

theorem mem_getDifferingWordUnions (h : b.words.length = other.words.length) {d : Nat × Word} :
    d ∈ b.getDifferingWordUnions other ↔ d.1 < b.words.length ∧ b.words.getD d.1 0 ≠ other.words.getD d.1 0 ∧
      d.2 = b.words.getD d.1 0 ||| other.words.getD d.1 0 := by
  rw [getDifferingWordUnions, mem_differingWords]
  constructor
  · rintro ⟨w, x, y, hx, hy, hne, rfl⟩
    obtain ⟨hw, rfl⟩ := List.getElem?_eq_some_iff.mp hx
    obtain ⟨hw', rfl⟩ := List.getElem?_eq_some_iff.mp hy
    simp [hw, hw', hne]
  · rintro ⟨hw, hne, hd⟩
    have hw' : d.1 < other.words.length := h ▸ hw
    refine ⟨d.1, b.words[d.1], other.words[d.1], by simp, by simp, ?_, ?_⟩
    · simpa [hw, hw'] using hne
    · refine Prod.ext (by simp) ?_
      simpa [hw, hw'] using hd

-- The words in which two bit sets differ suffice to turn a superset of one of them into a superset of both.
theorem get_orUpdatePartial_unions {c : BitSet} (h : b.words.length = other.words.length)
    (hc : c.words.length = b.words.length) (hs : b.get i = true → c.get i = true) :
    (c.orUpdatePartial (b.getDifferingWordUnions other)).get i = true ↔ c.get i = true ∨ other.get i = true := by
  have hd : ∀ d ∈ b.getDifferingWordUnions other, d.1 < c.words.length :=
    fun d hd => hc ▸ ((mem_getDifferingWordUnions h).mp hd).1
  rw [get_orUpdatePartial hd]
  constructor
  · rintro (hg | ⟨d, hd, hw, hb⟩)
    case inl => exact .inl hg
    case inr =>
      obtain ⟨_, _, hu⟩ := (mem_getDifferingWordUnions h).mp hd
      rw [hu, BitVec.getLsbD_or, hw, ← get_eq, ← get_eq, Bool.or_eq_true] at hb
      exact hb.imp hs id
  · rintro (hg | ho)
    case inl => exact .inl hg
    case inr =>
      by_cases hw : b.words.getD (i / 64) 0 = other.words.getD (i / 64) 0
      case pos =>
        refine .inl (hs ?_)
        rwa [get_eq, hw, ← get_eq]
      case neg =>
        have hl : i / 64 < b.words.length := h ▸ Nat.div_lt_of_lt_mul (get_lt ho)
        refine .inr ⟨(i / 64, b.words.getD (i / 64) 0 ||| other.words.getD (i / 64) 0),
          (mem_getDifferingWordUnions h).mpr ⟨hl, hw, rfl⟩, rfl, ?_⟩
        rw [BitVec.getLsbD_or, ← get_eq, ← get_eq, ho, Bool.or_true]

theorem getDifferingWordUnions_comm (h : b.words.length = other.words.length) {d : Nat × Word} :
    d ∈ b.getDifferingWordUnions other ↔ d ∈ other.getDifferingWordUnions b := by
  rw [mem_getDifferingWordUnions h, mem_getDifferingWordUnions h.symm, h, ne_comm, BitVec.or_comm]

end Differing

end Hlo.BitSet
