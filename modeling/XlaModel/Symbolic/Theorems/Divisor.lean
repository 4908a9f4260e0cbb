import XlaModel.Symbolic.Theorems.Expr

namespace Symbolic

section Arithmetic

variable {a b c d : Int} {g : Nat}

theorem divideCeil_eq_fdiv (hd : 0 < d) : divideCeil a d = (a + d - 1).fdiv d := by
  rw [divideCeil, Int.fdiv_eq_ediv_of_nonneg _ hd.le, Int.fdiv_eq_ediv_of_nonneg _ hd.le]
  have h₁ := Int.mul_ediv_add_emod (-a) d
  have h₂ := Int.emod_nonneg (-a) hd.ne'
  have h₃ := Int.emod_lt_of_pos (-a) hd
  symm
  rw [Int.ediv_eq_iff_of_pos hd, Int.neg_mul]
  constructor <;> linarith

theorem divideCeil_neg : divideCeil a d = -a.fdiv (-d) := by
  rw [divideCeil, ← Int.neg_fdiv_neg, neg_neg]

theorem divideCeil_neg_one (a : Int) : divideCeil a (-1) = -a := by
  simp [divideCeil_neg]

theorem fdiv_neg_one (a : Int) : a.fdiv (-1) = -a := by
  rw [← Int.neg_fdiv_neg, neg_neg, Int.fdiv_one]

-- A common factor of the dividend and the divisor cancels out.
theorem fdiv_mul_gcd (hg : 0 < g) (hc : (g : Int) ∣ c) (hd : (g : Int) ∣ d) :
    (a * c.tdiv g).fdiv (d.tdiv g) = (a * c).fdiv d := by
  obtain ⟨c, rfl⟩ := hc
  obtain ⟨d, rfl⟩ := hd
  have hg : (0 : Int) < g := by omega
  rw [Int.mul_tdiv_cancel_left _ hg.ne', Int.mul_tdiv_cancel_left _ hg.ne', mul_left_comm,
    Int.mul_fdiv_mul_of_pos _ _ hg]

theorem divideCeil_mul_gcd (hg : 0 < g) (hc : (g : Int) ∣ c) (hd : (g : Int) ∣ d) :
    divideCeil (a * c.tdiv g) (d.tdiv g) = divideCeil (a * c) d := by
  simp only [divideCeil, ← Int.neg_mul]
  rw [fdiv_mul_gcd hg hc hd]

theorem modulo_mul_gcd (hg : 0 < g) (hd₀ : d ≠ 0) (hc : (g : Int) ∣ c) (hd : (g : Int) ∣ d) :
    modulo (a * c.tdiv g) (d.tdiv g) * g = modulo (a * c) d := by
  obtain ⟨c, rfl⟩ := hc
  obtain ⟨d, rfl⟩ := hd
  have hg : (0 : Int) < g := by omega
  rw [Int.mul_tdiv_cancel_left _ hg.ne', Int.mul_tdiv_cancel_left _ hg.ne',
    modulo_eq_emod (right_ne_zero_of_mul hd₀), modulo_eq_emod hd₀, mul_left_comm,
    Int.mul_emod_mul_of_pos _ _ hg, mul_comm]

theorem tdiv_ne_zero (hd₀ : d ≠ 0) (hd : (g : Int) ∣ d) : d.tdiv g ≠ 0 :=
  fun h => hd₀ <| Int.tdiv_mul_cancel hd ▸ by simp [h]

theorem modulo_add_of_dvd_left (hd : d ≠ 0) (h : d ∣ a) : modulo (a + b) d = modulo b d := by
  rw [modulo_eq_emod hd, modulo_eq_emod hd, Int.add_emod, Int.emod_eq_zero_of_dvd h]
  simp

theorem modulo_eq_zero (hd : d ≠ 0) (h : d ∣ a) : modulo a d = 0 := by
  rw [modulo_eq_emod hd, Int.emod_eq_zero_of_dvd h]

theorem modulo_modulo (hd : d ≠ 0) (hc : c ≠ 0) (h : d ∣ c) :
    modulo (modulo a c) d = modulo a d := by
  rw [modulo_eq_emod hd, modulo_eq_emod hc, modulo_eq_emod hd, Int.emod_emod_of_dvd _ h]

end Arithmetic

namespace SymbolicExpr

variable {pos : Prop} {ρ : Nat → Int} {e : SymbolicExpr}

theorem DivisorOk.ne_zero_const (h : DivisorOk pos ρ op (const d)) (ho : op.isDivision) : d ≠ 0 :=
  h.ne_zero ho

theorem DivisorOk.tdiv {g : Nat} (h : DivisorOk pos ρ op (const d)) (hd : (g : Int) ∣ d) :
    DivisorOk pos ρ op (const (d.tdiv g)) where
  ne_zero  := fun ho => tdiv_ne_zero (h.ne_zero ho) hd
  positive := fun hp ho => by
    have ⟨c, hc, he⟩ := h.positive hp ho
    cases he
    rw [← Int.tdiv_mul_cancel hd] at hc
    exact ⟨_, pos_of_mul_pos_left hc (Int.natCast_nonneg g), rfl⟩

theorem quotient_dvd {largest : Nat} {v : Int} (h : (largest : Int) ∣ v) (r : SymbolicExpr) :
    (getLargestKnownDivisor.quotient largest r : Int) ∣ v.fdiv (r.eval ρ) := by
  cases r
  case const d =>
    simp only [getLargestKnownDivisor.quotient]
    split
    case isFalse  => exact one_dvd _
    case isTrue hd =>
      obtain ⟨q, rfl⟩ := Nat.dvd_of_mod_eq_zero hd.2
      obtain ⟨k, rfl⟩ := h
      have hn : 0 < d.natAbs := Int.natAbs_pos.mpr hd.1
      have hv : d ∣ d.natAbs * (q * k) := Dvd.dvd.mul_right Int.dvd_natAbs_self _
      have hq : ((d.natAbs * (q * k)).fdiv d) * d = d.natAbs * (q * k) := by
        rw [mul_comm]
        exact Int.mul_fdiv_cancel_of_dvd hv
      rw [Nat.mul_div_cancel_left _ hn, Nat.cast_mul, mul_assoc, eval]
      cases Int.natAbs_eq d
      case inl hp => exact ⟨k, mul_right_cancel₀ hd.1 <| by rw [hq, ← hp]; ring⟩
      case inr hp =>
        refine ⟨-k, mul_right_cancel₀ hd.1 ?_⟩
        rw [hq, show (d.natAbs : Int) = -d by omega]
        ring
  all_goals exact one_dvd _

theorem getLargestKnownDivisor_dvd (h : e.Defined ρ) :
    (e.getLargestKnownDivisor : Int) ∣ e.eval ρ := by
  induction e
  case var   => simp [getLargestKnownDivisor]
  case const => simp [getLargestKnownDivisor, eval]
  case binary op l r hl hr =>
    obtain ⟨hdl, hdr, hd⟩ := h
    replace hl := hl hdl
    replace hr := hr hdr
    have hgl := (Int.gcd_dvd_left l.getLargestKnownDivisor r.getLargestKnownDivisor).trans hl
    have hgr := (Int.gcd_dvd_right l.getLargestKnownDivisor r.getLargestKnownDivisor).trans hr
    simp only [eval]
    cases op <;> simp only [getLargestKnownDivisor, BinaryOp.eval]
    case add => exact dvd_add hgl hgr
    case mul => exact mod_cast mul_dvd_mul hl hr
    case floorDiv => exact quotient_dvd hl r
    case ceilDiv =>
      rw [divideCeil, dvd_neg]
      exact quotient_dvd (hl.neg_right) r
    case mod =>
      rw [modulo_eq_emod (hd rfl)]
      exact (EuclideanDomain.dvd_mod_iff hgr).mpr hgl
    case max => cases max_choice (l.eval ρ) (r.eval ρ) <;> simp_all
    case min => cases min_choice (l.eval ρ) (r.eval ρ) <;> simp_all

theorem dvd_of_isMultipleOf (h : e.Defined ρ) (hm : e.isMultipleOf d) : d ∣ e.eval ρ := by
  have hd : (d.natAbs : Int) ∣ e.getLargestKnownDivisor := by
    simp only [isMultipleOf, decide_eq_true_eq] at hm
    exact mod_cast Nat.dvd_of_mod_eq_zero hm
  exact Int.natAbs_dvd.mp <| hd.trans <| getLargestKnownDivisor_dvd h

end SymbolicExpr
end Symbolic
