import Mathlib.Tactic

-- The floor division of integers is monotone, and it stays within the range of a signed integer type
-- except for the negation of the smallest value.
namespace SignedDivision

variable {x y d m : Int}

theorem fdiv_le_fdiv (hd : 0 < d) (h : x ≤ y) : x.fdiv d ≤ y.fdiv d := by
  rw [Int.fdiv_eq_ediv_of_nonneg _ hd.le, Int.fdiv_eq_ediv_of_nonneg _ hd.le]
  exact Int.ediv_le_ediv hd h

theorem fdiv_le_fdiv_of_neg (hd : d < 0) (h : x ≤ y) : y.fdiv d ≤ x.fdiv d := by
  rw [←Int.neg_fdiv_neg y, ←Int.neg_fdiv_neg x]
  exact fdiv_le_fdiv (by omega) (by omega)

theorem fdiv_neg_one : x.fdiv (-1) = -x := by
  rw [←Int.neg_fdiv_neg, neg_neg, Int.fdiv_one]

theorem fdiv_mem_of_pos (hm : 0 ≤ m) (hd : 0 < d) (hl : -m - 1 ≤ x) (hu : x ≤ m) :
    -m - 1 ≤ x.fdiv d ∧ x.fdiv d ≤ m := by
  rw [Int.fdiv_eq_ediv_of_nonneg _ hd.le, Int.le_ediv_iff_mul_le hd, Int.ediv_le_iff_le_mul hd]
  constructor <;> nlinarith

theorem fdiv_mem (hm : 0 ≤ m) (hd : d ≠ 0) (hl : -m - 1 ≤ x) (hu : x ≤ m) (hne : x = -m - 1 → d ≠ -1) :
    -m - 1 ≤ x.fdiv d ∧ x.fdiv d ≤ m := by
  obtain hd | hd := lt_or_gt_of_ne hd
  case inr => exact fdiv_mem_of_pos hm hd hl hu
  case inl =>
    by_cases hx : x = -m - 1
    case neg =>
      rw [←Int.neg_fdiv_neg]
      exact fdiv_mem_of_pos hm (by omega) (by omega) (by omega)
    case pos =>
      have hd : 2 ≤ -d := by
        have := hne hx
        omega
      rw [←Int.neg_fdiv_neg, Int.fdiv_eq_ediv_of_nonneg _ (by omega), Int.le_ediv_iff_mul_le (by omega),
        Int.ediv_le_iff_le_mul (by omega)]
      constructor <;> nlinarith

theorem neg_neg_fdiv_mem (hm : 0 < m) (hd : d ≠ 0) (hl : -m - 1 ≤ x) (hu : x ≤ m)
    (hne : x = -m - 1 → d ≠ -1) : -m - 1 ≤ -(-x).fdiv d ∧ -(-x).fdiv d ≤ m := by
  obtain hd | hd := lt_or_gt_of_ne hd
  case inr =>
    have hlow : -m ≤ (-x).fdiv d := by
      rw [Int.fdiv_eq_ediv_of_nonneg _ hd.le, Int.le_ediv_iff_mul_le hd]
      nlinarith
    have hupp : (-x).fdiv d ≤ m + 1 := by
      rw [Int.fdiv_eq_ediv_of_nonneg _ hd.le, Int.ediv_le_iff_le_mul hd]
      nlinarith
    omega
  case inl =>
    have hlow : -m ≤ (-x).fdiv d := by
      rw [←Int.neg_fdiv_neg, neg_neg, Int.fdiv_eq_ediv_of_nonneg _ (by omega), Int.le_ediv_iff_mul_le (by omega)]
      by_cases hx : x = -m - 1
      case neg =>
        have : -m ≤ x := by omega
        nlinarith
      case pos =>
        have : 2 ≤ -d := by
          have := hne hx
          omega
        nlinarith
    have hupp : (-x).fdiv d ≤ m + 1 := by
      rw [←Int.neg_fdiv_neg, neg_neg, Int.fdiv_eq_ediv_of_nonneg _ (by omega), Int.ediv_le_iff_le_mul (by omega)]
      nlinarith
    omega

end SignedDivision

namespace BinaryRounding

-- The digits of `n` that are dropped when `p` significant digits are kept.
def excess (p n : Nat) : Nat :=
  n.log2 + 1 - p

-- `n` rounded to `p` significant binary digits. Ties are rounded to even.
def round (p n : Nat) : Nat :=
  let unit := 2 ^ excess p n
  let q := n / unit
  let r := n % unit
  if unit < 2 * r ∨ (unit = 2 * r ∧ q % 2 = 1) then (q + 1) * unit else q * unit

variable {p n : Nat}

theorem unit_mul_le (hn : n ≠ 0) : 2 ^ excess p n * 2 ^ p ≤ 2 * n ∨ excess p n = 0 := by
  by_cases he : excess p n = 0
  case pos => exact .inr he
  case neg =>
    have hle : excess p n + p = n.log2 + 1 := by
      rw [excess] at he ⊢
      omega
    left
    rw [←pow_add, hle, pow_succ, mul_comm]
    exact Nat.mul_le_mul_left 2 (Nat.log2_self_le hn)

theorem round_of_excess (h : excess p n = 0) : round p n = n := by
  simp [round, h, Nat.mod_one]

-- The result is at most half a unit away.
theorem round_near : 2 * round p n ≤ 2 * n + 2 ^ excess p n ∧ 2 * n ≤ 2 * round p n + 2 ^ excess p n := by
  have hdiv := Nat.div_add_mod n (2 ^ excess p n)
  have hlt := Nat.mod_lt n (Nat.two_pow_pos (excess p n))
  rw [round]
  generalize 2 ^ excess p n = unit at *
  generalize n % unit = r at *
  rw [mul_comm] at hdiv
  split_ifs with hr
  case pos =>
    rw [Nat.add_mul, one_mul]
    omega
  case neg => omega

theorem round_le : 2 ^ p * round p n ≤ (2 ^ p + 1) * n := by
  by_cases hn : n = 0
  case pos => simp [hn, round]
  case neg =>
    obtain hu | he := @unit_mul_le p n hn
    case inl =>
      have hnear := Nat.mul_le_mul_left (2 ^ p) (round_near (p := p) (n := n)).1
      nlinarith
    case inr =>
      rw [round_of_excess he]
      nlinarith

theorem le_round : 2 ^ p * n ≤ 2 ^ p * round p n + n := by
  by_cases hn : n = 0
  case pos => simp [hn]
  case neg =>
    obtain hu | he := @unit_mul_le p n hn
    case inl =>
      have hnear := Nat.mul_le_mul_left (2 ^ p) (round_near (p := p) (n := n)).2
      nlinarith
    case inr =>
      rw [round_of_excess he]
      omega

end BinaryRounding
