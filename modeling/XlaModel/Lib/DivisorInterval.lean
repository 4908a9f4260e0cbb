import Mathlib.Algebra.BigOperators.Group.List.Basic
import Mathlib.Tactic

-- Lists of factors that are grouped consecutively into the elements of another list.
namespace ConsecutiveFactors

variable {M : Type u} [Monoid M]

inductive Groups : List M → List M → Prop
  | nil : Groups [] []
  | cons {fs xs : List M} (g : List M) : Groups fs xs → Groups (g ++ fs) (g.prod :: xs)

-- The coarsest list of factors that is grouped into both lists.
structure IsCoarsest (xs ys fs : List M) : Prop where
  left     : Groups fs xs
  right    : Groups fs ys
  coarsest : ∀ gs, Groups gs xs → Groups gs ys → Groups gs fs

variable {fs gs xs ys : List M} {x : M}

theorem groups_iff : Groups fs xs ↔ ∃ gs : List (List M), gs.flatten = fs ∧ gs.map List.prod = xs := by
  constructor
  case mp =>
    intro h
    induction h
    case nil => exact ⟨[], rfl, rfl⟩
    case cons g _ hi =>
      obtain ⟨gs, rfl, rfl⟩ := hi
      exact ⟨g :: gs, rfl, rfl⟩
  case mpr =>
    rintro ⟨gs, rfl, rfl⟩
    induction gs
    case nil          => exact .nil
    case cons g gs hi => exact .cons g hi

namespace Groups

theorem exists_append (h : Groups fs (x :: xs)) : ∃ g gs, fs = g ++ gs ∧ g.prod = x ∧ Groups gs xs := by
  cases h
  case cons g h => exact ⟨g, _, rfl, rfl, h⟩

theorem eq_nil (h : Groups fs []) : fs = [] := by
  cases h
  rfl

theorem append (h : Groups fs xs) (h' : Groups gs ys) : Groups (fs ++ gs) (xs ++ ys) := by
  induction h
  case nil => exact h'
  case cons g _ hi =>
    rw [List.append_assoc]
    exact .cons g hi

-- Additional factors are put into the first group.
theorem append_left (g : List M) (h : Groups fs (x :: xs)) : Groups (g ++ fs) (g.prod * x :: xs) := by
  obtain ⟨g', gs, rfl, rfl, hgs⟩ := h.exists_append
  rw [←List.append_assoc, ←List.prod_append]
  exact .cons _ hgs

theorem prod_eq (h : Groups fs xs) : fs.prod = xs.prod := by
  induction h
  case nil         => rfl
  case cons g _ hi => rw [List.prod_append, List.prod_cons, hi]

-- Every element that is not one has a factor.
theorem length_le (h : Groups fs xs) (h₁ : 1 ∉ xs) : xs.length ≤ fs.length := by
  induction h
  case nil => exact le_rfl
  case cons g _ hi =>
    rw [List.mem_cons, not_or] at h₁
    have := hi h₁.2
    have : 0 < g.length := List.length_pos_of_ne_nil fun hg => h₁.1 (hg ▸ rfl)
    rw [List.length_append, List.length_cons]
    omega

theorem eq_of_length_eq (h : Groups fs xs) (h₁ : 1 ∉ xs) (hl : fs.length = xs.length) : fs = xs := by
  induction h
  case nil => rfl
  case cons g h hi =>
    rw [List.mem_cons, not_or] at h₁
    have hle := h.length_le h₁.2
    have hg : 0 < g.length := List.length_pos_of_ne_nil fun hg => h₁.1 (hg ▸ rfl)
    rw [List.length_append, List.length_cons] at hl
    obtain ⟨x, rfl⟩ := List.length_eq_one_iff.mp (show g.length = 1 by omega)
    rw [hi h₁.2 (by omega), List.prod_singleton]
    rfl

end Groups

-- A coarsest list of factors is the only shortest one.
theorem IsCoarsest.shortest (h : IsCoarsest xs ys fs) (h₁ : 1 ∉ fs) (hx : Groups gs xs) (hy : Groups gs ys) :
    fs.length ≤ gs.length ∧ (gs.length = fs.length → gs = fs) :=
  have hg := h.coarsest gs hx hy
  ⟨hg.length_le h₁, hg.eq_of_length_eq h₁⟩

end ConsecutiveFactors

-- A factorization of a number corresponds to a chain of its divisors, and a range of consecutive factors
-- to the interval between two of them.
@[ext]
structure DivisorInterval where
  lo     : ℕ
  hi     : ℕ
  lo_pos : 0 < lo
  hi_pos : 0 < hi
  dvd    : lo ∣ hi

namespace DivisorInterval

variable {I J K O : DivisorInterval} {x y : ℕ}

def Comparable (x y : ℕ) : Prop :=
  x ∣ y ∨ y ∣ x

theorem Comparable.symm (h : Comparable x y) : Comparable y x :=
  Or.symm h

theorem Comparable.dvd_of_le (h : Comparable x y) (hx : 0 < x) (hle : x ≤ y) : x ∣ y := by
  cases h
  case inl h => exact h
  case inr h => exact (hle.antisymm (Nat.le_of_dvd hx h)).dvd

theorem le (I : DivisorInterval) : I.lo ≤ I.hi :=
  Nat.le_of_dvd I.hi_pos I.dvd

-- The intervals can be part of the same factorization.
structure Compatible (I J : DivisorInterval) : Prop where
  lo_lo : Comparable I.lo J.lo
  lo_hi : Comparable I.lo J.hi
  hi_lo : Comparable I.hi J.lo
  hi_hi : Comparable I.hi J.hi

def Separated (I J : DivisorInterval) : Prop :=
  I.hi ≤ J.lo ∨ J.hi ≤ I.lo

theorem Compatible.symm (h : Compatible I J) : Compatible J I where
  lo_lo := h.lo_lo.symm
  lo_hi := h.hi_lo.symm
  hi_lo := h.lo_hi.symm
  hi_hi := h.hi_hi.symm

-- The interval of all factors is compatible with the ones of its parts.
theorem compatible_of_dvd (hl : I.lo ∣ J.lo) (hh : J.hi ∣ I.hi) : Compatible I J where
  lo_lo := .inl hl
  lo_hi := .inl (hl.trans J.dvd)
  hi_lo := .inr (J.dvd.trans hh)
  hi_hi := .inr hh

theorem compatible_comm : Compatible I J ↔ Compatible J I :=
  ⟨.symm, .symm⟩

theorem compatible_of_chain (h₁ : I.lo ∣ J.lo) (h₂ : J.lo ∣ I.hi) (h₃ : Comparable I.hi J.hi) : Compatible I J where
  lo_lo := .inl h₁
  lo_hi := .inl (h₁.trans J.dvd)
  hi_lo := .inr h₂
  hi_hi := h₃

theorem compatible_iff_of_le (hle : I.lo ≤ J.lo) (hJ : J.lo < J.hi) : Compatible I J ↔
    if J.lo < min I.hi J.hi then
      J.lo ∣ min I.hi J.hi ∧ I.lo ∣ J.lo ∧ min I.hi J.hi ∣ max I.hi J.hi
    else
      min I.hi J.hi ∣ J.lo := by
  cases Nat.le_total I.hi J.hi
  case inl hhi =>
    rw [min_eq_left hhi, max_eq_right hhi]
    split
    case isTrue hlt =>
      constructor
      case mp =>
        intro h
        have h₁ := h.hi_lo.symm.dvd_of_le J.lo_pos hlt.le
        exact ⟨h₁, h.lo_lo.dvd_of_le I.lo_pos hle, h.hi_hi.dvd_of_le I.hi_pos hhi⟩
      case mpr => exact fun ⟨h₁, h₂, h₃⟩ => compatible_of_chain h₂ h₁ (.inl h₃)
    case isFalse hn =>
      constructor
      case mp => exact fun h => h.hi_lo.dvd_of_le I.hi_pos (not_lt.mp hn)
      case mpr =>
        intro h
        have hlo := I.dvd.trans h
        exact ⟨.inl hlo, .inl (hlo.trans J.dvd), .inl h, .inl (h.trans J.dvd)⟩
  case inr hhi =>
    rw [min_eq_right hhi, max_eq_left hhi, if_pos hJ]
    constructor
    case mp => exact fun h => ⟨J.dvd, h.lo_lo.dvd_of_le I.lo_pos hle, h.hi_hi.symm.dvd_of_le J.hi_pos hhi⟩
    case mpr => exact fun ⟨_, h₂, h₃⟩ => compatible_of_dvd h₂ h₃

-- Overlapping intervals consist of three factors, other intervals are separated by a factor.
theorem compatible_iff (hI : I.lo < I.hi) (hJ : J.lo < J.hi) : Compatible I J ↔
    if max I.lo J.lo < min I.hi J.hi then
      max I.lo J.lo ∣ min I.hi J.hi ∧ min I.lo J.lo ∣ max I.lo J.lo ∧ min I.hi J.hi ∣ max I.hi J.hi
    else
      min I.hi J.hi ∣ max I.lo J.lo := by
  cases Nat.le_total I.lo J.lo
  case inl h => rw [max_eq_right h, min_eq_left h, compatible_iff_of_le h hJ]
  case inr h => rw [max_eq_left h, min_eq_right h, min_comm, max_comm, compatible_comm, compatible_iff_of_le h hI]

-- The factors of `J` are the first factors of `I`.
structure Leading (J I : DivisorInterval) : Prop where
  lo_eq : J.lo = I.lo
  dvd   : J.hi ∣ I.hi

namespace Leading

theorem le (h : Leading J I) : J.hi ≤ I.hi :=
  Nat.le_of_dvd I.hi_pos h.dvd

theorem separated (h : Leading J I) (hd : Separated I K) : Separated J K :=
  hd.imp h.le.trans fun hle => h.lo_eq ▸ hle

theorem compatible (h : Leading J I) (hc : Compatible I K) (hd : Separated I K) : Compatible J K := by
  cases hd
  case inl hle =>
    have hK := hc.hi_lo.dvd_of_le I.hi_pos hle
    have hJ := h.dvd.trans hK
    exact {
      lo_lo := .inl (J.dvd.trans hJ)
      lo_hi := .inl (J.dvd.trans hJ |>.trans K.dvd)
      hi_lo := .inl hJ
      hi_hi := .inl (hJ.trans K.dvd)
    }
  case inr hle =>
    have hI := hc.lo_hi.symm.dvd_of_le K.hi_pos hle
    have hJ := h.lo_eq ▸ hI
    exact {
      lo_lo := .inr (K.dvd.trans hJ)
      lo_hi := .inr hJ
      hi_lo := .inr (K.dvd.trans hJ |>.trans J.dvd)
      hi_hi := .inr (hJ.trans J.dvd)
    }

end Leading

section Cut

variable (hc : Compatible I O) (hlo : I.lo < O.lo)

-- The part of `I` that precedes `O`.
def cut : DivisorInterval where
  lo     := I.lo
  hi     := O.lo
  lo_pos := I.lo_pos
  hi_pos := O.lo_pos
  dvd    := hc.lo_lo.dvd_of_le I.lo_pos hlo.le

theorem cut_leading (hhi : O.lo < I.hi) : Leading (cut hc hlo) I where
  lo_eq := rfl
  dvd   := hc.hi_lo.symm.dvd_of_le O.lo_pos hhi.le

theorem cut_separated : Separated (cut hc hlo) O :=
  .inl le_rfl

theorem cut_compatible (hI : Compatible I K) (hO : Compatible O K) : Compatible (cut hc hlo) K where
  lo_lo := hI.lo_lo
  lo_hi := hI.lo_hi
  hi_lo := hO.lo_lo
  hi_hi := hO.lo_hi

theorem cut_compatible_self : Compatible (cut hc hlo) O :=
  cut_compatible hc hlo hc (compatible_of_dvd dvd_rfl dvd_rfl)

-- No longer part of `I` is separated from `O`.
theorem Leading.of_separated (h : Leading J I) (hJ : Compatible J O) (hd : Separated J O) :
    Leading J (cut hc hlo) where
  lo_eq := h.lo_eq
  dvd   := by
    have hle : J.hi ≤ O.lo := by
      cases hd
      case inl hle => exact hle
      case inr hle =>
        have := O.le
        have := h.lo_eq
        omega
    exact hJ.hi_lo.dvd_of_le J.hi_pos hle

end Cut

theorem not_separated_of_le (hne : J.lo < J.hi) (hlo : O.lo ≤ J.lo) (hhi : J.lo < O.hi) : ¬Separated J O := by
  intro hd
  cases hd <;> omega

section Gaps

def size (I : DivisorInterval) : ℕ :=
  I.hi / I.lo

theorem lo_mul_size (I : DivisorInterval) : I.lo * I.size = I.hi :=
  Nat.mul_div_cancel' I.dvd

-- `Gs` are the gaps between the intervals `Is` in the range from `lo` to `hi`, which ends with the last interval.
inductive Gaps : ℕ → List DivisorInterval → List DivisorInterval → ℕ → Prop
  | nil (n : ℕ) : Gaps n [] [] n
  | meet {I : DivisorInterval} {Is Gs : List DivisorInterval} {n : ℕ} :
    Gaps I.hi Is Gs n → Gaps I.lo (I :: Is) Gs n
  | gap {G I : DivisorInterval} {Is Gs : List DivisorInterval} {n : ℕ} :
    G.hi = I.lo → G.lo < G.hi → Gaps I.hi Is Gs n → Gaps G.lo (I :: Is) (G :: Gs) n

namespace Gaps

variable {m n : ℕ} {Is Gs : List DivisorInterval}

-- The intervals and the gaps are a factorization.
theorem prod_size (h : Gaps m Is Gs n) : m * ((Is.map size).prod * (Gs.map size).prod) = n := by
  induction h
  case nil => simp
  case meet I Is Gs n _ h =>
    rw [List.map_cons, List.prod_cons, ←h, ←I.lo_mul_size]
    ring
  case gap G I Is Gs n he _ _ h =>
    rw [List.map_cons, List.map_cons, List.prod_cons, List.prod_cons, ←h, ←I.lo_mul_size, ←he, ←G.lo_mul_size]
    ring

theorem le (h : Gaps m Is Gs n) : m ≤ n := by
  induction h
  case nil => rfl
  case meet I _ _ _ _ h => exact I.le.trans h
  case gap G I _ _ _ he hlt _ h => exact hlt.le.trans <| he ▸ I.le.trans h

theorem le_lo (h : Gaps m Is Gs n) : ∀ I ∈ Is, m ≤ I.lo := by
  induction h
  case nil => simp
  case meet I _ _ _ _ h =>
    exact List.forall_mem_cons.mpr ⟨le_rfl, fun J hJ => I.le.trans (h J hJ)⟩
  case gap G I _ _ _ he hlt _ h =>
    have hle : G.lo ≤ I.lo := he ▸ hlt.le
    exact List.forall_mem_cons.mpr ⟨hle, fun J hJ => hle.trans <| I.le.trans (h J hJ)⟩

theorem lo_le (h : Gaps m Is Gs n) : ∀ G ∈ Gs, m ≤ G.lo := by
  induction h
  case nil => simp
  case meet I _ _ _ _ h => exact fun G hG => I.le.trans (h G hG)
  case gap G I _ _ _ he hlt _ h =>
    have hle : G.lo ≤ I.lo := he ▸ hlt.le
    exact List.forall_mem_cons.mpr ⟨le_rfl, fun G' hG => hle.trans <| I.le.trans (h G' hG)⟩

theorem hi_le (h : Gaps m Is Gs n) : ∀ I ∈ Is, I.hi ≤ n := by
  induction h
  case nil        => simp
  case meet h hi  => exact List.forall_mem_cons.mpr ⟨h.le, hi⟩
  case gap h hi   => exact List.forall_mem_cons.mpr ⟨h.le, hi⟩

theorem separated (h : Gaps m Is Gs n) : ∀ G ∈ Gs, ∀ I ∈ Is, Separated G I := by
  induction h
  case nil => simp
  case meet I _ _ _ h hi =>
    exact fun G hG => List.forall_mem_cons.mpr ⟨.inr (h.lo_le G hG), hi G hG⟩
  case gap G I _ _ _ he _ h hi =>
    refine List.forall_mem_cons.mpr ⟨?_, fun G' hG => ?_⟩
    · refine List.forall_mem_cons.mpr ⟨.inl he.le, fun J hJ => .inl ?_⟩
      exact he.le.trans <| I.le.trans (h.le_lo J hJ)
    · exact List.forall_mem_cons.mpr ⟨.inr (h.lo_le G' hG), hi G' hG⟩

theorem hi_lt (h : Gaps m Is Gs n) (hne : ∀ I ∈ Is, I.lo < I.hi) : ∀ G ∈ Gs, G.hi < n := by
  induction h
  case nil => simp
  case meet h => exact h (List.forall_mem_cons.mp hne).2
  case gap G I _ _ _ he _ h hi =>
    have ⟨hI, hne⟩ := List.forall_mem_cons.mp hne
    exact List.forall_mem_cons.mpr ⟨he ▸ hI.trans_le h.le, hi hne⟩

-- There is a factor between two gaps.
theorem pairwise (h : Gaps m Is Gs n) (hne : ∀ I ∈ Is, I.lo < I.hi) : Gs.Pairwise (·.hi < ·.lo) := by
  induction h
  case nil => exact .nil
  case meet h => exact h (List.forall_mem_cons.mp hne).2
  case gap G I _ _ _ he _ h hi =>
    have ⟨hI, hne⟩ := List.forall_mem_cons.mp hne
    exact .cons (fun G' hG => he ▸ hI.trans_le (h.lo_le G' hG)) (hi hne)

theorem dvd (h : Gaps m Is Gs n) (hm : m ∣ k) (hIs : ∀ I ∈ Is, I.hi ∣ k) : n ∣ k := by
  induction h
  case nil => exact hm
  case meet h =>
    have ⟨hI, hIs⟩ := List.forall_mem_cons.mp hIs
    exact h hI hIs
  case gap h =>
    have ⟨hI, hIs⟩ := List.forall_mem_cons.mp hIs
    exact h hI hIs

end Gaps

end Gaps

end DivisorInterval
