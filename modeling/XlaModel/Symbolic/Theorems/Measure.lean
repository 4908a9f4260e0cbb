import Mathlib.Algebra.Order.BigOperators.Group.List
import Mathlib.Algebra.Order.Group.Synonym
import Mathlib.Algebra.Order.Monoid.Prod
import Mathlib.Data.Prod.Lex
import XlaModel.Symbolic.Theorems.Expr

-- The termination measure of `canonicalize`.
namespace Symbolic
namespace SymbolicExpr

-- A product outweighs the sum of the products it is distributed into.
def weight : SymbolicExpr → Nat
  | const _              => 1
  | var _                => 2
  | binary .add l r      => l.weight + r.weight + 1
  | binary .mul l r      => if l.isConst ∧ r.isConst then 2 else l.weight * r.weight
  | binary .floorDiv l r => 2 * l.weight + r.weight
  | binary .ceilDiv l r  => 2 * l.weight + r.weight + 9
  | binary .mod l r      => l.weight + r.weight
  | binary .min l r      => l.weight + r.weight + 2
  | binary .max l r      => l.weight + r.weight + 2

-- Cancelling a common factor only makes a divisor smaller.
def divisors : SymbolicExpr → Nat
  | const _       => 0
  | var _         => 0
  | binary op l r => l.divisors + (if op.isDivision then divisor r r.divisors else r.divisors)
where
  divisor : SymbolicExpr → Nat → Nat
    | const c, _ => c.natAbs
    | _,       n => n

-- Moving a constant factor outwards changes neither of the above.
def size : SymbolicExpr → Nat
  | const _         => 1
  | var _           => 2
  | binary .add l r => l.size + r.size + 2
  | binary .mul l r =>
    if l.isConst ∧ r.isConst then 3
    else if l.isConst then 2 * r.size + 1
    else if r.isConst then 2 * l.size + 1
    else l.size * r.size
  | binary _ l r    => l.size + r.size + 1

section Bounds

attribute [local simp] weight divisors size

theorem weight_pos (e : SymbolicExpr) : 0 < e.weight := by
  induction e
  case binary op l r hl hr =>
    cases op <;> simp only [weight] <;> try omega
    case mul => split <;> [omega; positivity]
  all_goals simp

theorem size_pos (e : SymbolicExpr) : 0 < e.size := by
  induction e
  case binary op l r hl hr =>
    cases op <;> simp only [size] <;> try omega
    case mul => split <;> [omega; split <;> [omega; split <;> [omega; positivity]]]
  all_goals simp

theorem two_le_weight {e : SymbolicExpr} (h : e.isConst = false) : 2 ≤ e.weight := by
  induction e
  case const => contradiction
  case var   => simp
  case binary op l r hl hr =>
    have := l.weight_pos
    have := r.weight_pos
    cases op <;> simp only [weight] <;> try omega
    case mul =>
      split
      case isTrue => omega
      case isFalse h =>
        cases h' : l.isConst
        case false => exact (hl h').trans (Nat.le_mul_of_pos_right _ ‹_›)
        case true  => exact (hr (by simp_all)).trans (Nat.le_mul_of_pos_left _ ‹_›)

theorem two_le_size {e : SymbolicExpr} (h : e.isConst = false) : 2 ≤ e.size := by
  induction e
  case const => contradiction
  case var   => simp
  case binary op l r hl hr =>
    have := l.size_pos
    have := r.size_pos
    cases op <;> simp only [size] <;> try omega
    case mul =>
      split <;> [omega; split <;> [omega; split <;> [omega; skip]]]
      exact (hl <| by simp_all).trans (Nat.le_mul_of_pos_right _ ‹_›)

end Bounds

abbrev Measure := ℕ ×ₗ ℕ ×ₗ ℕ

namespace Measure

variable {a a' b b' c c' : ℕ}

theorem mk_le_mk :
    (toLex (a, toLex (b, c)) : Measure) ≤ toLex (a', toLex (b', c')) ↔
      a < a' ∨ a = a' ∧ (b < b' ∨ b = b' ∧ c ≤ c') := by
  simp [Prod.Lex.toLex_le_toLex]

theorem mk_lt_mk :
    (toLex (a, toLex (b, c)) : Measure) < toLex (a', toLex (b', c')) ↔
      a < a' ∨ a = a' ∧ (b < b' ∨ b = b' ∧ c < c') := by
  simp [Prod.Lex.toLex_lt_toLex]

theorem mk_add_mk :
    (toLex (a, toLex (b, c)) + toLex (a', toLex (b', c')) : Measure) =
      toLex (a + a', toLex (b + b', c + c')) :=
  rfl

theorem zero_le (m : Measure) : 0 ≤ m :=
  mk_le_mk.mpr <| by omega

end Measure

def measure (e : SymbolicExpr) : Measure :=
  toLex (e.weight, toLex (e.divisors, e.size))

theorem measure_le_iff {e₁ e₂ : SymbolicExpr} :
    e₁.measure ≤ e₂.measure ↔
      e₁.weight < e₂.weight ∨ e₁.weight = e₂.weight ∧
        (e₁.divisors < e₂.divisors ∨ e₁.divisors = e₂.divisors ∧ e₁.size ≤ e₂.size) :=
  Measure.mk_le_mk

theorem measure_lt_iff {e₁ e₂ : SymbolicExpr} :
    e₁.measure < e₂.measure ↔
      e₁.weight < e₂.weight ∨ e₁.weight = e₂.weight ∧
        (e₁.divisors < e₂.divisors ∨ e₁.divisors = e₂.divisors ∧ e₁.size < e₂.size) :=
  Measure.mk_lt_mk

theorem measure_lt_of_weight_lt {e₁ e₂ : SymbolicExpr} (h : e₁.weight < e₂.weight) :
    e₁.measure < e₂.measure :=
  measure_lt_iff.mpr <| .inl h

theorem weight_le_of_measure_le {e₁ e₂ : SymbolicExpr} (h : e₁.measure ≤ e₂.measure) :
    e₁.weight ≤ e₂.weight := by
  cases measure_le_iff.mp h <;> omega

theorem measure_const_le (v : Int) (e : SymbolicExpr) : (const v).measure ≤ e.measure := by
  have := e.weight_pos
  have := e.size_pos
  rw [measure_le_iff]
  simp only [weight, divisors, size]
  omega

theorem isConst_of_measure_le {e e' : SymbolicExpr} (h : e'.measure ≤ e.measure) (hc : e.isConst) :
    e'.isConst := by
  by_contra hn
  have ⟨v, hv⟩ := eq_const_of_isConst hc
  have := two_le_weight (Bool.eq_false_iff.mpr hn)
  have := weight_le_of_measure_le h
  simp only [hv, weight] at this
  omega

theorem divisor_of_not_isConst {e : SymbolicExpr} (h : e.isConst = false) :
    divisors.divisor e n = n := by
  cases e
  case const => contradiction
  all_goals rfl

section Mul

variable {l r : SymbolicExpr}

theorem weight_mul (h : ¬(l.isConst ∧ r.isConst)) :
    (binary .mul l r).weight = l.weight * r.weight := by
  rw [weight, if_neg h]

theorem divisors_mul : (binary .mul l r).divisors = l.divisors + r.divisors := by
  simp [divisors, BinaryOp.isDivision]

theorem measure_mul_comm : (binary .mul l r).measure = (binary .mul r l).measure := by
  simp only [measure, weight, divisors_mul, size, and_comm, Nat.mul_comm, Nat.add_comm]
  cases l.isConst <;> cases r.isConst <;> simp

theorem measure_mul_const (h : l.isConst = false) :
    (binary .mul l (const c)).measure = toLex (l.weight, toLex (l.divisors, 2 * l.size + 1)) := by
  simp [measure, weight, divisors, BinaryOp.isDivision, size, h]

theorem measure_mul_const_congr (l : SymbolicExpr) (c d : Int) :
    (binary .mul l (const c)).measure = (binary .mul l (const d)).measure := by
  simp [measure, weight, divisors, BinaryOp.isDivision, size]

theorem measure_mul_of_not_isConst (hl : l.isConst = false) (hr : r.isConst = false) :
    (binary .mul l r).measure =
      toLex (l.weight * r.weight, toLex (l.divisors + r.divisors, l.size * r.size)) := by
  simp [measure, weight, divisors_mul, size, hl, hr]

theorem measure_mul_mono {l' r' : SymbolicExpr} (hl : l'.measure ≤ l.measure)
    (hr : r'.measure ≤ r.measure) (hr' : r'.isConst = false) :
    (binary .mul l' r').measure ≤ (binary .mul l r).measure := by
  have hrc : r.isConst = false := by
    cases h : r.isConst
    case false => rfl
    case true  => exact absurd (isConst_of_measure_le hr h) (by simp [hr'])
  cases hl' : l'.isConst
  case true =>
    obtain ⟨c, rfl⟩ := eq_const_of_isConst hl'
    rw [measure_mul_comm, measure_mul_const hr']
    cases hlc : l.isConst
    case true =>
      obtain ⟨d, rfl⟩ := eq_const_of_isConst hlc
      rw [measure_le_iff] at hr
      rw [measure_mul_comm, measure_mul_const hrc]
      simp only [Prod.Lex.toLex_le_toLex]
      omega
    case false =>
      have h : r'.weight < l.weight * r.weight := calc
        r'.weight ≤ r.weight            := weight_le_of_measure_le hr
        _         < 2 * r.weight        := by have := r.weight_pos; omega
        _         ≤ l.weight * r.weight := Nat.mul_le_mul_right _ (two_le_weight hlc)
      rw [measure_mul_of_not_isConst hlc hrc]
      simp [Prod.Lex.toLex_le_toLex, h]
  case false =>
    have hlc : l.isConst = false := by
      cases h : l.isConst
      case false => rfl
      case true  => exact absurd (isConst_of_measure_le hl h) (by simp [hl'])
    rw [measure_mul_of_not_isConst hlc hrc, measure_mul_of_not_isConst hl' hr']
    exact lex_mul_le l.weight_pos r.weight_pos hl hr
where
  lex_mul_le {a a' b b' d d' e e' s s' t t' : Nat} (ha : 0 < a) (hb : 0 < b)
      (hl : (toLex (a', toLex (d', s')) : Measure) ≤ toLex (a, toLex (d, s)))
      (hr : (toLex (b', toLex (e', t')) : Measure) ≤ toLex (b, toLex (e, t))) :
      (toLex (a' * b', toLex (d' + e', s' * t')) : Measure) ≤
        toLex (a * b, toLex (d + e, s * t)) := by
    simp only [Prod.Lex.toLex_le_toLex] at hl hr ⊢
    cases hl
    case inl hl => exact .inl <| Nat.mul_lt_mul_of_lt_of_le hl (by omega) hb
    case inr hl =>
      cases hr
      case inl hr => exact .inl <| Nat.mul_lt_mul_of_le_of_lt (by omega) hr ha
      case inr hr =>
        have : d' + e' = d + e → s' * t' ≤ s * t := by
          intro _
          exact Nat.mul_le_mul (by omega) (by omega)
        rw [hl.1, hr.1]
        omega

end Mul

-- Replacing the operands by smaller ones does not increase the measure. A constant divisor has to be
-- kept.
theorem measure_binary_mono (op : BinaryOp) {l l' r r' : SymbolicExpr}
    (hl : l'.measure ≤ l.measure) (hr : r'.measure ≤ r.measure)
    (hc : ¬(l'.isConst ∧ r'.isConst)) (hd : ∀ c, r = const c → r' = const c) :
    (binary op l' r').measure ≤ (binary op l r).measure := by
  cases op
  case mul =>
    cases hr' : r'.isConst
    case false => exact measure_mul_mono hl hr hr'
    case true =>
      rw [measure_mul_comm, @measure_mul_comm l]
      exact measure_mul_mono hr hl (by simp_all)
  all_goals
    rw [measure_le_iff] at hl hr ⊢
    simp only [weight, divisors, size, BinaryOp.isDivision, reduceIte, Bool.false_eq_true]
  case add => omega
  case min => omega
  case max => omega
  all_goals
    cases h : r.isConst
    case true =>
      obtain ⟨c, hr⟩ := eq_const_of_isConst h
      rw [hr, hd c hr]
      omega
    case false =>
      rw [divisor_of_not_isConst h]
      have := two_le_weight h
      cases h' : r'.isConst
      case true =>
        obtain ⟨c, hr'⟩ := eq_const_of_isConst h'
        have : r'.weight = 1 := hr' ▸ rfl
        omega
      case false =>
        rw [divisor_of_not_isConst h']
        omega

theorem measure_lt_mul_const (l : SymbolicExpr) (c : Int) :
    l.measure < (binary .mul l (const c)).measure := by
  cases h : l.isConst
  case true =>
    obtain ⟨d, rfl⟩ := eq_const_of_isConst h
    exact measure_lt_of_weight_lt (by simp [weight])
  case false =>
    rw [measure_mul_const h, measure]
    simp only [Prod.Lex.toLex_lt_toLex, lt_self_iff_false, true_and, false_or]
    omega

theorem measure_lt_binary_left (op : BinaryOp) (l r : SymbolicExpr) :
    l.measure < (binary op l r).measure := by
  have hl := l.weight_pos
  have hr := r.weight_pos
  cases op
  case mul =>
    cases h : r.isConst
    case true =>
      obtain ⟨c, rfl⟩ := eq_const_of_isConst h
      exact measure_lt_mul_const l c
    case false =>
      refine measure_lt_of_weight_lt ?_
      rw [weight_mul (by simp [h])]
      exact lt_mul_of_one_lt_right hl (two_le_weight h)
  all_goals
    refine measure_lt_of_weight_lt ?_
    simp only [weight]
    omega

theorem measure_lt_binary_right (op : BinaryOp) (l r : SymbolicExpr) :
    r.measure < (binary op l r).measure := by
  have hl := l.weight_pos
  cases op
  case mul => exact measure_mul_comm ▸ measure_lt_binary_left .mul r l
  all_goals
    refine measure_lt_of_weight_lt ?_
    simp only [weight]
    omega

theorem measure_comm {op : BinaryOp} (h : op.isCommutative) (l r : SymbolicExpr) :
    (binary op l r).measure = (binary op r l).measure := by
  cases op <;> simp only [BinaryOp.isCommutative, Bool.false_eq_true] at h
  case mul => exact measure_mul_comm
  all_goals simp [measure, weight, divisors, BinaryOp.isDivision, size, Nat.add_comm]

section Constructors

variable {l r : SymbolicExpr}

theorem measure_mulConst_le (e : SymbolicExpr) (c : Int) :
    (e.mulConst c).measure ≤ (binary .mul e (const c)).measure := by
  induction e generalizing c
  case const => exact measure_const_le ..
  case var id =>
    simp only [mulConst]
    split
    case isTrue  => exact measure_const_le ..
    case isFalse => split <;> [exact (measure_lt_mul_const ..).le; rfl]
  case binary op l r hl _ =>
    simp only [mulConst]
    split
    case isTrue  => exact measure_const_le ..
    case isFalse =>
      split
      case isTrue  => exact (measure_lt_mul_const ..).le
      case isFalse =>
        split
        case h_2    => rfl
        case h_1 c₁ _ =>
          exact (hl _).trans <| measure_mul_const_congr l _ c₁ ▸ (measure_lt_mul_const ..).le

theorem Created.measure_le (h : Created op l r e) : e.measure ≤ (binary op l r).measure := by
  cases h
  case raw            => rfl
  case swapped h _    => exact (measure_comm h r l).le
  case fold           => exact measure_const_le ..
  case left           => exact (measure_lt_binary_left ..).le
  case right          => exact (measure_lt_binary_right ..).le
  case mulConst ho hr => exact ho ▸ hr ▸ measure_mulConst_le ..
  case constMul ho hl => exact ho ▸ hl ▸ measure_mul_comm ▸ measure_mulConst_le ..

theorem measure_createBinaryOp_le (op : BinaryOp) (l r : SymbolicExpr) :
    (createBinaryOp op l r).measure ≤ (binary op l r).measure :=
  (createBinaryOp_cases op l r).measure_le

theorem weight_add_le (l r : SymbolicExpr) : (l.add r).weight ≤ l.weight + r.weight + 1 :=
  weight_le_of_measure_le <| measure_createBinaryOp_le .add l r

theorem weight_mul_le (l r : SymbolicExpr) : (l.mul r).weight ≤ l.weight * r.weight := by
  by_cases h : l.isConst ∧ r.isConst
  case pos =>
    have ⟨a, ha⟩ := eq_const_of_isConst h.1
    have ⟨b, hb⟩ := eq_const_of_isConst h.2
    simp [ha, hb, mul, createBinaryOp, BinaryOp.isCommutative, mulConst, weight]
  case neg =>
    exact weight_mul h ▸ weight_le_of_measure_le (measure_createBinaryOp_le .mul l r)

theorem measure_mod_le (l r : SymbolicExpr) : (l.mod r).measure ≤ (binary .mod l r).measure := by
  simp only [mod]
  split
  case h_2 => exact measure_createBinaryOp_le ..
  case h_1 => split <;> [exact measure_const_le ..; exact measure_createBinaryOp_le ..]

theorem measure_floorDiv_le (l r : SymbolicExpr) :
    (l.floorDiv r).measure ≤ (binary .floorDiv l r).measure := by
  simp only [floorDiv]
  split <;> [exact (measure_lt_binary_left ..).le; exact measure_createBinaryOp_le ..]

theorem measure_ceilDiv_le (l r : SymbolicExpr) :
    (l.ceilDiv r).measure ≤ (binary .ceilDiv l r).measure := by
  simp only [ceilDiv]
  split <;> [exact (measure_lt_binary_left ..).le; exact measure_createBinaryOp_le ..]

theorem weight_mod_le (l r : SymbolicExpr) : (l.mod r).weight ≤ l.weight + r.weight :=
  weight_le_of_measure_le <| measure_mod_le l r

theorem weight_floorDiv_le (l r : SymbolicExpr) : (l.floorDiv r).weight ≤ 2 * l.weight + r.weight :=
  weight_le_of_measure_le <| measure_floorDiv_le l r

theorem mul_eq_binary (hl : l.isConst = false) (hr : r.isConst = false) :
    l.mul r = binary .mul l r := by
  simp only [mul, createBinaryOp, hl, Bool.false_eq_true, and_false, ↓reduceIte]
  cases r
  case const => contradiction
  all_goals rfl

theorem measure_mul_swap (l r : SymbolicExpr) : (l.mul r).measure = (r.mul l).measure := by
  cases hl : l.isConst <;> cases hr : r.isConst
  case false.false => rw [mul_eq_binary hl hr, mul_eq_binary hr hl, measure_mul_comm]
  case false.true =>
    obtain ⟨c, rfl⟩ := eq_const_of_isConst hr
    simp [mul, createBinaryOp, hl, BinaryOp.isCommutative]
  case true.false =>
    obtain ⟨c, rfl⟩ := eq_const_of_isConst hl
    simp [mul, createBinaryOp, hr, BinaryOp.isCommutative]
  case true.true =>
    obtain ⟨c, rfl⟩ := eq_const_of_isConst hl
    obtain ⟨d, rfl⟩ := eq_const_of_isConst hr
    rfl

theorem measure_mul_const_le (e : SymbolicExpr) (c : Int) :
    (e.mul (const c)).measure ≤ toLex (e.weight, toLex (e.divisors, 2 * e.size + 1)) := by
  cases h : e.isConst
  case false => exact measure_mul_const h ▸ measure_createBinaryOp_le ..
  case true =>
    obtain ⟨v, rfl⟩ := eq_const_of_isConst h
    rw [show (const v).mul (const c) = const (c * v) from rfl]
    simp [measure, weight, divisors, size, Prod.Lex.toLex_le_toLex]

-- The measure decreases if a constant factor is moved to the right.
theorem measure_mul_assoc_lt (hl : l.isConst = false) (hr : r.isConst = false) :
    ((l.mul r).mul (const c)).measure < (binary .mul (binary .mul l (const c)) r).measure := by
  have hs := two_le_size hr
  refine (measure_mul_const_le ..).trans_lt ?_
  rw [mul_eq_binary hl hr, measure_mul_of_not_isConst isConst_binary hr]
  simp only [weight, divisors, BinaryOp.isDivision, size, hl, hr, isConst_const,
    Prod.Lex.toLex_lt_toLex, Bool.false_eq_true, false_and, and_true, ↓reduceIte, mul_one, add_zero, lt_self_iff_false,
    true_and, false_or]
  rw [add_mul, mul_assoc]
  omega

-- The measure decreases if a product is distributed over a sum.
theorem measure_distribute_lt {A B a b : SymbolicExpr} (hA : A.measure = (a.mul r).measure)
    (hB : B.measure = (b.mul r).measure) :
    (A.add B).measure < (binary .mul (binary .add a b) r).measure := by
  cases hr : r.isConst
  case false =>
    have hwA := weight_le_of_measure_le hA.le |>.trans <| weight_mul_le a r
    have hwB := weight_le_of_measure_le hB.le |>.trans <| weight_mul_le b r
    have hwr := two_le_weight hr
    refine measure_lt_of_weight_lt ?_
    rw [weight_mul (by simp), weight]
    calc
      (A.add B).weight
      _ ≤ A.weight + B.weight + 1                       := weight_add_le A B
      _ ≤ a.weight * r.weight + b.weight * r.weight + 1 := by omega
      _ < (a.weight + b.weight + 1) * r.weight          := by rw [add_mul, add_mul]; omega
  case true =>
    obtain ⟨c, rfl⟩ := eq_const_of_isConst hr
    have hA := hA ▸ measure_mul_const_le a c
    have hB := hB ▸ measure_mul_const_le b c
    refine (measure_createBinaryOp_le ..).trans_lt ?_
    rw [measure_mul_const (by simp)]
    simp only [measure, Prod.Lex.toLex_le_toLex, Prod.Lex.toLex_lt_toLex, weight, divisors, size,
      BinaryOp.isDivision, Bool.false_eq_true, ↓reduceIte] at hA hB ⊢
    omega

theorem measure_division_lt (ho : op.isDivision) (hl : l.measure ≤ r.measure)
    (hd : d'.natAbs < d.natAbs) :
    (binary op l (const d')).measure < (binary op r (const d)).measure := by
  rw [measure_le_iff] at hl
  rw [measure_lt_iff]
  cases op <;> simp only [BinaryOp.isDivision, Bool.false_eq_true] at ho
  all_goals
    simp only [weight, divisors, BinaryOp.isDivision, divisors.divisor, size, ↓reduceIte]
    omega

theorem measure_mod_mul_lt (hl : l.measure ≤ r.measure) (hd : d'.natAbs < d.natAbs) :
    ((l.mod (const d')).mul (const g)).measure < (binary .mod r (const d)).measure := by
  have hm := measure_mod_le l (const d')
  refine (measure_mul_const_le ..).trans_lt ?_
  rw [measure_le_iff] at hl hm
  simp only [weight, divisors, BinaryOp.isDivision, divisors.divisor, size, ↓reduceIte] at hm
  simp only [measure, weight, divisors, BinaryOp.isDivision, divisors.divisor, ↓reduceIte,
    Prod.Lex.toLex_lt_toLex]
  omega

end Constructors

end SymbolicExpr
end Symbolic
