import XlaModel.Indexing.Theorems.Summands

namespace Indexing

open Symbolic SymbolicExpr Fallible

variable {ρ : Nat → Int} {e x : SymbolicExpr} {range : SymbolicExpr → Option Interval}
  {c m d n g : Int}

-- The ranges contain the values of the expressions.
def RangeSound (W : SymbolicExpr → Prop) (ρ : Nat → Int) (range : SymbolicExpr → Option Interval) :
    Prop :=
  ∀ e i, W e → range e = some i → e.eval ρ ∈ i

structure Simplifies (ρ : Nat → Int) (e e' : SymbolicExpr) : Prop where
  wf   : e'.Wf True ρ
  eval : e'.eval ρ = e.eval ρ

def Preserves (ρ : Nat → Int) (f : SymbolicExpr → Option SymbolicExpr) : Prop :=
  ∀ e, e.Wf True ρ → Ensures (f e) (Simplifies ρ e)

theorem Simplifies.refl (hw : e.Wf True ρ) : Simplifies ρ e e :=
  ⟨hw, rfl⟩

theorem RangeSound.mem (hr : RangeSound W ρ range) (hw : W e) :
    Ensures (range e) (e.eval ρ ∈ ·) :=
  fun i h => hr e i hw h

section ConstantRhs

structure ConstantRhs (W : SymbolicExpr → Prop) (ρ : Nat → Int) (e : SymbolicExpr) (op : BinaryOp)
    (c : Int) : Prop where
  wf     : W (getLhs e)
  eval   : e.eval ρ = op.eval ((getLhs e).eval ρ) c
  binary : ∃ l r, e = binary op l r ∧ r.eval ρ = c

theorem getConstantRhs_eq_some (h : getConstantRhs range e op = some (some c)) :
    ∃ l r rhs, e = binary op l r ∧ range r = some rhs ∧ rhs.isPoint ∧ rhs.lower = c := by
  fun_cases getConstantRhs range e op
  case case1 l r =>
    simp only [getConstantRhs, if_true] at h
    obtain ⟨rhs, hrhs, h⟩ := Option.bind_eq_some_iff.mp h
    split at h
    case isTrue hp => exact ⟨l, r, rhs, rfl, hrhs, hp, by simpa using h⟩
    case isFalse   => simp at h
  case case2 hn => simp [getConstantRhs, hn] at h
  case case3    => simp [getConstantRhs] at h

theorem ConstantRhs.pos (h : ConstantRhs W ρ e op c) (hw : e.Wf True ρ)
    (ho : op = .mod ∨ op = .floorDiv) : 0 < c := by
  obtain ⟨l, r, rfl, hc⟩ := h.binary
  exact hc ▸ IndexingMap.divisor_pos hw.2.2 ho

theorem getConstantRhs_ensures (hr : RangeSound W ρ range) (hW : Closed W) (hw : W e) (op : BinaryOp) :
    Ensures (getConstantRhs range e op) (fun c? => ∀ c, c? = some c → ConstantRhs W ρ e op c) := by
  fun_cases getConstantRhs range e op
  case case1 l r =>
    refine .bind (hr.mem (hW.rhs hw)) fun bound hb => .pure fun c hc => ?_
    split at hc
    case isFalse => contradiction
    case isTrue hp =>
      obtain rfl := Option.some.inj hc
      have hc := Interval.eq_of_isPoint hp hb
      exact ⟨hW.lhs hw, by simp [getLhs, hc], l, r, rfl, hc⟩
  case case2 => exact .pure (by simp)
  case case3 => exact .pure (by simp)

theorem remainder_ensures : Ensures (remainder a b) (fun r => r = 0 → b ∣ a) := by
  rw [remainder]
  split
  case isTrue  => exact .none
  case isFalse => exact .pure Int.dvd_of_tmod_eq_zero

theorem quotient_ensures : Ensures (quotient a b) (fun q => b ≠ 0 ∧ q = a.tdiv b) := by
  rw [quotient]
  split
  case isTrue    => exact .none
  case isFalse h => exact .pure ⟨h, rfl⟩

theorem extractMultiplier_ensures (hr : RangeSound (Wf True ρ) ρ range) (hw : e.Wf True ρ) :
    Ensures (extractMultiplier range e)
      (fun p => p.1.Wf True ρ ∧ e.eval ρ = p.1.eval ρ * p.2) := by
  refine .bind (getConstantRhs_ensures hr closed_wf hw .mul) fun c? hc => ?_
  cases c?
  case none   => exact .pure ⟨hw, by simp⟩
  case some c => exact .pure ⟨(hc c rfl).wf, (hc c rfl).eval⟩

end ConstantRhs

section SplitSum

-- The gcd is only negative if it is the only multiplier.
structure MultiplierGcd (range : SymbolicExpr → Option Interval) (xs : List SymbolicExpr)
    (g? : Option Int) : Prop where
  gcd      : ∀ x ∈ xs, ∀ c, getConstantRhs range x .mul = some (some c) →
    ∃ g, g? = some g ∧ (g = c ∨ 0 ≤ g ∧ g ∣ c)
  nonempty : g?.isSome → ∃ x ∈ xs, ∃ c, getConstantRhs range x .mul = some (some c)

theorem MultiplierGcd.dvd (h : MultiplierGcd range xs g?) (hx : x ∈ xs)
    (hc : getConstantRhs range x .mul = some (some c)) : g?.getD 1 ∣ c := by
  obtain ⟨g, rfl, hg⟩ := h.gcd x hx c hc
  cases hg
  case inl hg => exact hg ▸ dvd_rfl
  case inr hg => exact hg.2

theorem MultiplierGcd.concat_none (h : MultiplierGcd range xs g?)
    (hc : getConstantRhs range x .mul = some none) : MultiplierGcd range (xs ++ [x]) g? where
  gcd y hy d hd := by
    cases List.mem_append.mp hy
    case inl hy => exact h.gcd y hy d hd
    case inr hy =>
      obtain rfl := List.mem_singleton.mp hy
      simp [hc] at hd
  nonempty hg :=
    have ⟨y, hy, hd⟩ := h.nonempty hg
    ⟨y, List.mem_append_left _ hy, hd⟩

theorem MultiplierGcd.concat_some (h : MultiplierGcd range xs g?)
    (hc : getConstantRhs range x .mul = some (some c)) (hg : g = c ∨ 0 ≤ g ∧ g ∣ c)
    (ho : ∀ g₁ d, g? = some g₁ → g₁ ∣ d → 0 ≤ g ∧ g ∣ d) :
    MultiplierGcd range (xs ++ [x]) (some g) where
  gcd y hy d hd := by
    refine ⟨g, rfl, ?_⟩
    cases List.mem_append.mp hy
    case inl hy =>
      obtain ⟨g₁, hg₁, _⟩ := h.gcd y hy d hd
      have hdvd := h.dvd hy hd
      rw [hg₁, Option.getD_some] at hdvd
      exact .inr (ho g₁ d hg₁ hdvd)
    case inr hy =>
      obtain rfl := List.mem_singleton.mp hy
      obtain rfl : c = d := by simpa [hc] using hd
      exact hg
  nonempty _ := ⟨x, by simp, c, hc⟩

theorem multiplierGcd_ensures (sum : SymbolicExpr) :
    Ensures (multiplierGcd range sum) (MultiplierGcd range (summands sum)) := by
  refine visitSummands_ensures (MultiplierGcd range) ⟨by simp, by simp⟩ fun xs g? x _ hi => ?_
  refine .bind (.of_eq _) fun c? hc => ?_
  split
  case h_1 c g =>
    refine .pure <| hi.concat_some hc (.inr ⟨Int.natCast_nonneg _, Int.gcd_dvd_right ..⟩) ?_
    intro g₁ d hg hd
    exact ⟨Int.natCast_nonneg _, (Int.gcd_dvd_left ..).trans (Option.some.inj hg ▸ hd)⟩
  case h_2 c => exact .pure <| hi.concat_some hc (.inl rfl) (by simp)
  case h_3   => exact .pure <| hi.concat_none hc

theorem splitSumByGcd_ensures (hr : RangeSound W ρ range) (hW : Closed W) (hw : W e) :
    Ensures (splitSumByGcd range e) (fun p =>
      W p.1 ∧ W p.2.2 ∧ e.eval ρ = p.1.eval ρ * p.2.1 + p.2.2.eval ρ) := by
  refine .bind (multiplierGcd_ensures e) fun g? hg => ?_
  simp only
  split
  case isTrue => exact .pure ⟨hW.const 0, hw, by simp⟩
  case isFalse =>
    replace hg {x} {c : Int} := @MultiplierGcd.dvd x range c _ _ hg
    generalize g?.getD 1 = g at *
    let Inv (xs : List SymbolicExpr) (nm : SymbolicExpr) (v : Int) : Prop :=
      W nm ∧ value ρ xs = v * g + nm.eval ρ
    refine .bind (mapSummands_ensures Inv hW hw ⟨hW.const 0, by simp⟩ fun xs nm v x hx hi => ?_) fun p hp =>
      .pure ⟨hp.1, hp.2.1, by simpa using hp.2.2⟩
    have hwx := hW.summand hw hx
    refine .bind (.of_eq _) fun c? hc => ?_
    have hcr := getConstantRhs_ensures hr hW hwx .mul c? hc
    cases c?
    case none =>
      refine .pure ⟨hW.const 0, hW.add hi.1 hwx, ?_⟩
      simp [hi.2, add_assoc]
    case some c =>
      have hcr := hcr c rfl
      have hd := hg hx hc
      have hq := Int.tdiv_mul_cancel hd
      refine .bind quotient_ensures fun q he => .pure ⟨hW.mul hcr.wf (hW.const _), hi.1, ?_⟩
      simp only [value_append, value_singleton, hi.2, hcr.eval, BinaryOp.eval, eval_mul, eval_const, he.2]
      linear_combination -(getLhs x).eval ρ * hq

end SplitSum

section Mod

theorem removeMultiples_ensures (hr : RangeSound (Wf True ρ) ρ range) (hw : e.Wf True ρ) :
    Ensures (removeMultiples range e m) (fun e' => e'.Wf True ρ ∧ m ∣ e.eval ρ - e'.eval ρ) := by
  let Inv (xs : List SymbolicExpr) (extracted v : Int) : Prop := m ∣ value ρ xs - (v + extracted)
  refine .bind (mapSummands_ensures (ρ := ρ) Inv closed_wf hw (by simp [Inv]) fun xs k v x hx hi => ?_) fun p hp =>
    .pure ?_
  · have hwx := wf_of_mem_summands hw hx
    have hkeep : Inv (xs ++ [x]) k (v + x.eval ρ) := by
      simpa [Inv, add_right_comm] using hi
    obtain ⟨q, hq⟩ := hi
    split
    case h_1 c =>
      refine .pure ⟨trivial, q, ?_⟩
      simp only [value_append, value_singleton, eval_const]
      linear_combination hq
    case h_2 =>
      refine .bind (getConstantRhs_ensures hr closed_wf hwx .mul) fun c? hc => ?_
      cases c?
      case none   => exact .pure ⟨hwx, hkeep⟩
      case some c =>
        refine .bind remainder_ensures fun rem hrem => .pure ?_
        split
        case isFalse => exact ⟨hwx, hkeep⟩
        case isTrue h₀ =>
          obtain ⟨t, ht⟩ := hrem h₀
          refine ⟨trivial, q + (getLhs x).eval ρ * t, ?_⟩
          simp only [value_append, value_singleton, eval_const, (hc c rfl).eval, BinaryOp.eval, ht]
          linear_combination hq
  · obtain ⟨q, hq⟩ := hp.2
    rw [value_summands] at hq
    split
    case isTrue =>
      refine ⟨wf_add hp.1 trivial, q + p.1.fdiv m, ?_⟩
      simp only [eval_add, eval_const]
      linear_combination hq
    case isFalse h =>
      refine ⟨hp.1, q + p.1.fdiv m, ?_⟩
      linear_combination hq + not_not.mp h

-- A remainder that is smaller than a common factor does not affect the other summands.
theorem modulo_mul_add {g : Int} (hm : 0 < m) (hg : g ∣ m) (hn : 0 ≤ n) (hng : n < g) (a : Int) :
    modulo (a * g + n) m = modulo (a * g) m + n := by
  obtain ⟨k, rfl⟩ := hg
  have hg : 0 < g := by omega
  have hk : 0 < k := pos_of_mul_pos_right hm hg.le
  have hak := Int.mul_ediv_add_emod a k
  have h₀ := Int.emod_nonneg a hk.ne'
  have h₁ := Int.emod_lt_of_pos a hk
  have hr : a * g % (g * k) = g * (a % k) := by rw [mul_comm a, Int.mul_emod_mul_of_pos _ _ hg]
  have hlt : g * (a % k) + n < g * k := by nlinarith
  have he : a * g + n = g * (a % k) + n + g * k * (a / k) := by linear_combination -g * hak
  rw [modulo_eq_emod hm.ne', modulo_eq_emod hm.ne', hr, he, Int.add_mul_emod_self_left]
  exact Int.emod_eq_of_lt (by positivity) hlt

theorem tdiv_pos_of_dvd (hm : 0 < m) (hd : 0 < d) (h : d ∣ m) : 0 < m.tdiv d := by
  rw [← Int.tdiv_mul_cancel h] at hm
  exact pos_of_mul_pos_left hm hd.le

theorem divideMultipliers_ensures (hw : e.Wf True ρ) (hwx : x.Wf True ρ)
    (hv : e.eval ρ = x.eval ρ * m) (hd : 0 < d) :
    Ensures (divideMultipliers e x m d)
      (fun e' => e'.Wf True ρ ∧ e'.eval ρ = x.eval ρ * m.tdiv d) := by
  rw [divideMultipliers]
  split
  case isTrue hdm =>
    refine .pure ⟨hwx, ?_⟩
    rw [hdm, Int.tdiv_self (by omega), mul_one]
  case isFalse =>
    split
    case isTrue  => exact scaleSummands_ensures hwx
    case isFalse =>
      obtain rfl : d = 1 := by omega
      exact .pure ⟨hw, by rw [hv, Int.tdiv_one]⟩

theorem extractModFactor_ensures (hr : RangeSound (Wf True ρ) ρ range) (hw : e.Wf True ρ) (hm : 0 < m) :
    Ensures (extractModFactor range e (const m) m) (fun e? => ∀ e', e? = some e' →
      e'.Wf True ρ ∧ e'.eval ρ = modulo (e.eval ρ) m) := by
  refine .bind (splitSumByGcd_ensures hr closed_wf hw) fun p hp => ?_
  obtain ⟨multiplied, g, notMultiplied⟩ := p
  obtain ⟨hwm, hwn, hv⟩ := hp
  dsimp only at hwm hwn hv ⊢
  split
  case isFalse => exact .pure (by simp)
  case isTrue hg₁ =>
    refine .bind remainder_ensures fun rem hrem => ?_
    split
    case isFalse => exact .pure (by simp)
    case isTrue h₀ =>
      have hgm := hrem h₀
      refine .bind (hr.mem hwn) fun i hi => ?_
      split
      case isTrue hi₀ =>
        have hn : notMultiplied.eval ρ = 0 := by
          rw [hi₀, Interval.mem_def] at hi
          exact le_antisymm hi.2 hi.1
        rw [hn, add_zero] at hv
        have hG : 0 < g.gcd m := Int.gcd_pos_of_ne_zero_right _ hm.ne'
        have hGg := Int.gcd_dvd_left g m
        have hGm := Int.gcd_dvd_right g m
        have hmod := @modulo_mul_gcd (multiplied.eval ρ) g m _ hG hm.ne' hGg hGm
        generalize g.gcd m = G at *
        have hG' : (0 : Int) < G := by omega
        refine .bind (divideMultipliers_ensures hw hwm hv hG') fun x hx => .pure fun e' he => ?_
        cases he
        refine ⟨wf_mul (wf_mod hx.1 <| .of_pos <| tdiv_pos_of_dvd hm hG' hGm) trivial, ?_⟩
        simp [hx.2, hmod, hv]
      case isFalse =>
        split
        case isFalse => exact .pure (by simp)
        case isTrue hc =>
          have hn := Interval.mem_of_contains hc hi
          rw [Interval.mem_def] at hn
          refine .pure fun e' he => ?_
          cases he
          refine ⟨wf_add (wf_mod (wf_mul hwm trivial) <| .of_pos hm) hwn, ?_⟩
          simp [hv, modulo_mul_add hm hgm hn.1 (Int.lt_of_le_sub_one hn.2)]

theorem modulo_eq_add_offset (hm : 0 < m) (hl : a ≤ v) (hu : v ≤ b) (h : b + a.fdiv m * -m < m) :
    modulo v m = v + a.fdiv m * -m := by
  rw [Int.fdiv_eq_ediv_of_nonneg _ hm.le] at h ⊢
  have ha := Int.mul_ediv_add_emod a m
  have h₀ := Int.emod_nonneg a hm.ne'
  have hv : v % m = (v + a / m * -m) % m := by
    rw [Int.mul_neg, ← Int.neg_mul, Int.add_mul_emod_self_right]
  rw [modulo_eq_emod hm.ne', hv]
  exact Int.emod_eq_of_lt (by nlinarith) (by omega)

theorem modulo_tdiv_mul (hm : 0 < m) (hc : 0 < c) (h : c ∣ m) (a : Int) :
    modulo a (m.tdiv c) * c = modulo (a * c) m := by
  lift c to Nat using hc.le
  have := @modulo_mul_gcd a c m c (by omega) hm.ne' dvd_rfl h
  rwa [Int.tdiv_self hc.ne', mul_one] at this

theorem rewriteModSum_ensures (hr : RangeSound (Wf True ρ) ρ range) (hw : (binary .mod l (const m)).Wf True ρ)
    (hx : Simplifies ρ l x) (hm : 0 < m) :
    Ensures (rewriteMod.rewriteModSum range l (const m) x m)
      (Simplifies ρ (binary .mod l (const m))) := by
  refine .bind (removeMultiples_ensures hr hx.wf) fun newLhs hn => ?_
  have hv : modulo (newLhs.eval ρ) m = modulo (l.eval ρ) m := by
    rw [modulo_eq_emod hm.ne', modulo_eq_emod hm.ne', ← hx.eval]
    exact (Int.emod_emod_of_dvd _ dvd_rfl ▸ Int.emod_emod_of_dvd _ dvd_rfl ▸
      Int.emod_eq_emod_iff_emod_sub_eq_zero.mpr (Int.emod_eq_zero_of_dvd hn.2)).symm
  refine .bind (extractModFactor_ensures hr hn.1 hm) fun e? he => ?_
  cases e?
  case some e' =>
    have ⟨hwe, hve⟩ := he e' rfl
    exact .pure ⟨hwe, by simp [hve, hv, BinaryOp.eval]⟩
  case none =>
    refine .pure ?_
    split
    case isTrue  => exact .refl hw
    case isFalse => exact ⟨wf_mod hn.1 (.of_pos hm), by simp [hv, BinaryOp.eval]⟩

theorem rewriteMod_ensures {once : SymbolicExpr → Option SymbolicExpr} (hr : RangeSound (Wf True ρ) ρ range)
    (ho : Preserves ρ once) (hw : (binary .mod l r).Wf True ρ) :
    Ensures (rewriteMod range once l r) (Simplifies ρ (binary .mod l r)) := by
  have ⟨m, hm, hrm⟩ := hw.2.2.positive trivial (.inl rfl)
  subst hrm
  refine .bind (hr.mem trivial) fun rhs hrhs => ?_
  split
  case isTrue  => exact .pure <| .refl hw
  case isFalse hp =>
    obtain rfl : m = rhs.lower := Interval.eq_of_isPoint (not_not.mp hp) hrhs
    split
    case isTrue  => omega
    case isFalse =>
      refine .bind (ho l hw.1) fun x hx => .bind (hr.mem hx.wf) fun lhs hlhs => ?_
      dsimp only
      split
      case isTrue hlt =>
        refine .pure ⟨wf_add hx.wf trivial, ?_⟩
        simp [BinaryOp.eval, ← hx.eval, modulo_eq_add_offset hm hlhs.1 hlhs.2 hlt]
      case isFalse =>
        refine .bind (getConstantRhs_ensures hr closed_wf hx.wf .mul) fun c? hc => ?_
        cases c?
        case none   => exact rewriteModSum_ensures hr hw hx hm
        case some c =>
          dsimp only
          split
          case isFalse => exact rewriteModSum_ensures hr hw hx hm
          case isTrue h =>
            have hd := Int.dvd_of_tmod_eq_zero h.2
            have hx' := hc c rfl
            refine .pure ⟨wf_mul (wf_mod hx'.wf <| .of_pos <| tdiv_pos_of_dvd hm h.1 hd) trivial, ?_⟩
            simp [BinaryOp.eval, ← hx.eval, hx'.eval, modulo_tdiv_mul hm h.1 hd]

end Mod

section FloorDiv

theorem fdiv_fdiv (hc : 0 < c) (hd : 0 < d) (a : Int) : (a.fdiv c).fdiv d = a.fdiv (c * d) := by
  rw [Int.fdiv_eq_ediv_of_nonneg _ hc.le, Int.fdiv_eq_ediv_of_nonneg _ hd.le,
    Int.fdiv_eq_ediv_of_nonneg _ (mul_pos hc hd).le, Int.ediv_ediv_of_nonneg hc.le]

theorem modulo_fdiv (hd : 0 < d) (hm : 0 < m.tdiv d) (h : d ∣ m) (a : Int) :
    modulo (a.fdiv d) (m.tdiv d) = (modulo a m).fdiv d := by
  obtain ⟨k, rfl⟩ := h
  rw [Int.mul_tdiv_cancel_left _ hd.ne'] at hm ⊢
  rw [modulo_eq_emod hm.ne', modulo_eq_emod (mul_pos hd hm).ne', Int.fdiv_eq_ediv_of_nonneg _ hd.le,
    Int.fdiv_eq_ediv_of_nonneg _ hd.le]
  rw [Int.emod_def a, ← Int.ediv_ediv_of_nonneg hd.le, mul_assoc, Int.sub_mul_ediv_left _ _ hd.ne',
    Int.emod_def]

theorem simplifyModDiv_ensures (hr : RangeSound (Wf True ρ) ρ range) (hw : e.Wf True ρ) (hd : 0 < d) :
    Ensures (simplifyModDiv range e d) (fun e? => ∀ e', e? = some e' →
      e'.Wf True ρ ∧ e'.eval ρ = (e.eval ρ).fdiv d) := by
  refine .bind (getConstantRhs_ensures hr closed_wf hw .mod) fun c? hc => ?_
  cases c?
  case none   => exact .pure (by simp)
  case some m =>
    have hm := hc m rfl
    refine .bind remainder_ensures fun rem hrem => ?_
    split
    case isFalse => exact .pure (by simp)
    case isTrue h₀ =>
      refine .pure fun e' he => ?_
      cases he
      have hdm := hrem h₀
      have hq := tdiv_pos_of_dvd (hm.pos hw <| .inl rfl) hd hdm
      refine ⟨wf_mod (wf_floorDiv hm.wf <| .of_pos hd) <| .of_pos hq, ?_⟩
      simp [hm.eval, BinaryOp.eval, modulo_fdiv hd hq hdm]

theorem simplifyDivDiv_ensures (hr : RangeSound (Wf True ρ) ρ range) (hw : e.Wf True ρ) (hd : 0 < d) :
    Ensures (simplifyDivDiv range e d) (fun e? => ∀ e', e? = some e' →
      e'.Wf True ρ ∧ e'.eval ρ = (e.eval ρ).fdiv d) := by
  refine .bind (getConstantRhs_ensures hr closed_wf hw .floorDiv) fun c? hc => ?_
  cases c?
  case none   => exact .pure (by simp)
  case some c =>
    have hc := hc c rfl
    have hc₀ := hc.pos hw <| .inr rfl
    refine .pure fun e' he => ?_
    cases he
    refine ⟨wf_floorDiv hc.wf <| .of_pos <| mul_pos hd hc₀, ?_⟩
    simp [hc.eval, BinaryOp.eval, fdiv_fdiv hc₀ hd, mul_comm]

theorem extractMultiples_ensures (hr : RangeSound (Wf True ρ) ρ range) (hw : e.Wf True ρ) :
    Ensures (extractMultiples range e d) (fun p => p.2.Wf True ρ ∧ p.1.Wf True ρ ∧
      e.eval ρ = p.2.eval ρ + d * p.1.eval ρ) := by
  let Inv (xs : List SymbolicExpr) (extracted : SymbolicExpr) (v : Int) : Prop :=
    extracted.Wf True ρ ∧ value ρ xs = v + d * extracted.eval ρ
  refine .imp (mapSummands_ensures (ρ := ρ) Inv closed_wf hw ⟨trivial, by simp⟩ fun xs extracted v x hx hi => ?_)
    fun p hp => ⟨hp.1, hp.2.1, by simpa using hp.2.2⟩
  have hwx := wf_of_mem_summands hw hx
  have hkeep : Inv (xs ++ [x]) extracted (v + x.eval ρ) :=
    ⟨hi.1, by simp [hi.2, add_right_comm]⟩
  refine .bind (getConstantRhs_ensures hr closed_wf hwx .mul) fun c? hc => ?_
  cases c?
  case some c =>
    have hc := hc c rfl
    refine .bind remainder_ensures fun rem hrem => ?_
    split
    case isFalse => exact .pure ⟨hwx, hkeep⟩
    case isTrue h₀ =>
      have hq := Int.tdiv_mul_cancel (hrem h₀)
      refine .pure ⟨trivial, wf_add hi.1 <| wf_mul hc.wf trivial, ?_⟩
      simp only [value_append, value_singleton, hi.2, hc.eval, BinaryOp.eval, eval_add, eval_mul,
        eval_const]
      linear_combination -(getLhs x).eval ρ * hq
  case none =>
    dsimp only
    split
    case h_2   => exact .pure ⟨hwx, hkeep⟩
    case h_1 c =>
      split
      case isFalse => exact .pure ⟨hwx, hkeep⟩
      case isTrue =>
        refine .pure ⟨trivial, wf_add hi.1 trivial, ?_⟩
        simp only [value_append, value_singleton, hi.2, eval_add, eval_const]
        ring

-- A common factor cancels out, if the rest is smaller than the factor.
theorem fdiv_mul_add {g : Nat} (hg : 0 < g) (hd₀ : 0 < d) (hc : (g : Int) ∣ c) (hd : (g : Int) ∣ d)
    (hn : 0 ≤ n) (hng : n < g) (a : Int) :
    (a * c.tdiv g).fdiv (d.tdiv g) = (a * c + n).fdiv d := by
  obtain ⟨c, rfl⟩ := hc
  obtain ⟨d, rfl⟩ := hd
  have hg : (0 : Int) < g := by omega
  have hd₁ : 0 < d := pos_of_mul_pos_right hd₀ hg.le
  rw [Int.mul_tdiv_cancel_left _ hg.ne', Int.mul_tdiv_cancel_left _ hg.ne', mul_left_comm,
    ← fdiv_fdiv hg hd₁, add_comm, Int.add_mul_fdiv_left _ _ hg.ne', Int.fdiv_eq_ediv_of_nonneg n hg.le,
    Int.ediv_eq_zero_of_lt hn hng, zero_add]

theorem fdiv_add_gcd {g : Nat} (hg : 0 < g) (hc : (g : Int) ∣ c) (hd : (g : Int) ∣ d)
    (hn : (g : Int) ∣ n) (a : Int) :
    (a * c.tdiv g + n.tdiv g).fdiv (d.tdiv g) = (a * c + n).fdiv d := by
  obtain ⟨c, rfl⟩ := hc
  obtain ⟨d, rfl⟩ := hd
  obtain ⟨n, rfl⟩ := hn
  have hg : (0 : Int) < g := by omega
  rw [Int.mul_tdiv_cancel_left _ hg.ne', Int.mul_tdiv_cancel_left _ hg.ne',
    Int.mul_tdiv_cancel_left _ hg.ne', mul_left_comm, ← mul_add, Int.mul_fdiv_mul_of_pos _ _ hg]

theorem cancelDivisorGcd_ensures (hr : RangeSound (Wf True ρ) ρ range) (hw : e.Wf True ρ) (hd : 0 < d) :
    Ensures (cancelDivisorGcd range e d) (fun p => p.1.Wf True ρ ∧ 0 < p.2 ∧
      (p.1.eval ρ).fdiv p.2 = (e.eval ρ).fdiv d) := by
  refine .bind (splitSumByGcd_ensures hr closed_wf hw) fun p hp => ?_
  obtain ⟨multiplied, g, notMultiplied⟩ := p
  obtain ⟨hwm, hwn, hv⟩ := hp
  dsimp only at hwm hwn hv ⊢
  refine .bind (hr.mem hwn) fun i hi => ?_
  have hG : 0 < d.gcd g := Int.gcd_pos_of_ne_zero_left _ hd.ne'
  have hGd := Int.gcd_dvd_left d g
  have hGg := Int.gcd_dvd_right d g
  generalize d.gcd g = G at *
  split
  case isTrue hc =>
    have hn := Interval.mem_of_contains hc.2 hi
    rw [Interval.mem_def] at hn
    refine .pure ⟨wf_mul hwm trivial, tdiv_pos_of_dvd hd (by omega) hGd, ?_⟩
    simp [hv, fdiv_mul_add hG hd hGg hGd hn.1 (Int.lt_of_le_sub_one hn.2)]
  case isFalse =>
    split
    case isFalse => exact .pure ⟨hw, hd, rfl⟩
    case isTrue hp =>
      have hn := Interval.eq_of_isPoint hp.1 hi
      have hH : 0 < i.lower.gcd G := Int.gcd_pos_of_ne_zero_left _ hp.2
      have hHn := Int.gcd_dvd_left i.lower G
      have hHG := Int.gcd_dvd_right i.lower G
      generalize i.lower.gcd G = H at *
      split
      case isFalse => exact .pure ⟨hw, hd, rfl⟩
      case isTrue =>
        have hHd := hHG.trans hGd
        refine .pure ⟨wf_add (wf_mul hwm trivial) trivial, tdiv_pos_of_dvd hd (by omega) hHd, ?_⟩
        simp [hv, hn, fdiv_add_gcd hH (hHG.trans hGg) hHd hHn]

-- The divisors of the summands that are divisions.
theorem innerDivisors_ensures (e : SymbolicExpr) :
    Ensures (innerDivisors range e)
      (· = (summands e).filterMap fun x => (getConstantRhs range x .floorDiv).join) := by
  refine visitSummands_ensures
    (fun xs ds => ds = xs.filterMap fun x => (getConstantRhs range x .floorDiv).join) rfl
    fun xs ds x _ hi => ?_
  refine .bind (.of_eq _) fun c? hc => ?_
  cases c?
  case none   => exact .pure (by simp [hi, hc])
  case some c => exact .pure (by simp [hi, hc])

theorem mergeInnerDivision_ensures (hr : RangeSound (Wf True ρ) ρ range) (hw : e.Wf True ρ) (hd : 0 < d) :
    Ensures (mergeInnerDivision range e d) (fun p => p.1.Wf True ρ ∧ 0 < p.2 ∧
      (p.1.eval ρ).fdiv p.2 = (e.eval ρ).fdiv d) := by
  refine .bind (innerDivisors_ensures e) fun ds hds => ?_
  split
  case h_2 => exact .pure ⟨hw, hd, rfl⟩
  case h_1 c =>
    -- The value of the new dividend is the old one times `c` plus the remainder of the inner division.
    let divisors (xs : List SymbolicExpr) :=
      xs.filterMap fun x => (getConstantRhs range x .floorDiv).join
    let Inv (xs : List SymbolicExpr) (_ : Unit) (v : Int) : Prop :=
      (divisors xs = [] → v = value ρ xs * c) ∧
      (divisors xs = [c] → 0 < c ∧ ∃ r, v = value ρ xs * c + r ∧ 0 ≤ r ∧ r < c)
    refine .bind (mapSummands_ensures (ρ := ρ) Inv closed_wf hw (by simp [Inv, divisors]) fun xs _ v x hx hi => ?_)
      fun p hp => .pure ?_
    · have hwx := wf_of_mem_summands hw hx
      refine .bind (.of_eq _) fun c? hc => ?_
      have hcr := getConstantRhs_ensures hr closed_wf hwx .floorDiv c? hc
      cases c?
      case none =>
        have hdiv : divisors (xs ++ [x]) = divisors xs := by simp [divisors, hc]
        refine .pure ⟨wf_mul hwx trivial, ?_⟩
        simp only [Inv, hdiv, value_append, value_singleton, eval_mul, eval_const]
        refine ⟨fun h => ?_, fun h => ⟨(hi.2 h).1, ?_⟩⟩
        · linear_combination hi.1 h
        · obtain ⟨r, hv, hr⟩ := (hi.2 h).2
          exact ⟨r, by linear_combination hv, hr⟩
      case some c₁ =>
        have hcr := hcr c₁ rfl
        have hc₁ := hcr.pos hwx <| .inr rfl
        have hdiv : divisors (xs ++ [x]) = divisors xs ++ [c₁] := by simp [divisors, hc]
        refine .pure ⟨hcr.wf, ?_⟩
        simp only [Inv, hdiv]
        refine ⟨by simp, fun h => ?_⟩
        have hnil : divisors xs = [] := by simpa using congrArg List.dropLast h
        obtain rfl : c₁ = c := by simpa [hnil] using h
        have hy := Int.mul_ediv_add_emod ((getLhs x).eval ρ) c₁
        refine ⟨hc₁, (getLhs x).eval ρ % c₁, ?_, Int.emod_nonneg _ hc₁.ne', Int.emod_lt_of_pos _ hc₁⟩
        simp only [value_append, value_singleton, hcr.eval, BinaryOp.eval,
          Int.fdiv_eq_ediv_of_nonneg _ hc₁.le]
        linear_combination hi.1 hnil - hy
    · obtain ⟨hc₀, r, hv, hr₀, hrc⟩ := hp.2.2 hds.symm
      rw [value_summands] at hv
      refine ⟨hp.1, mul_pos hd hc₀, ?_⟩
      rw [hv, mul_comm d, ← fdiv_fdiv hc₀ hd, add_comm, Int.add_mul_fdiv_right _ _ hc₀.ne',
        Int.fdiv_eq_ediv_of_nonneg r hc₀.le, Int.ediv_eq_zero_of_lt hr₀ hrc, zero_add]

theorem simplifySumDiv_ensures (hr : RangeSound (Wf True ρ) ρ range) (hw : e.Wf True ρ) (hd : 0 < d) :
    Ensures (simplifySumDiv range e d) (fun e? => ∀ e', e? = some e' →
      e'.Wf True ρ ∧ e'.eval ρ = (e.eval ρ).fdiv d) := by
  refine .bind (extractMultiples_ensures hr hw) fun p hp => ?_
  obtain ⟨extracted, newDividend⟩ := p
  refine .bind (cancelDivisorGcd_ensures hr hp.1 hd) fun q hq => ?_
  obtain ⟨newDividend₁, d₁⟩ := q
  refine .bind (mergeInnerDivision_ensures hr hq.1 hq.2.1) fun s hs => ?_
  obtain ⟨newDividend₂, d₂⟩ := s
  dsimp only at hp hq hs ⊢
  split
  case isFalse => exact .pure (by simp)
  case isTrue =>
    refine .pure fun e' he => ?_
    cases he
    refine ⟨wf_add (wf_floorDiv hs.1 <| .of_pos hs.2.1) hp.2.1, ?_⟩
    simp [hs.2.2, hq.2.2, hp.2.2, Int.add_mul_fdiv_left _ _ hd.ne']

theorem rewriteFloorDiv_ensures {once : SymbolicExpr → Option SymbolicExpr} (hr : RangeSound (Wf True ρ) ρ range)
    (ho : Preserves ρ once) (hc : ∀ c, Ensures (once (const c)) (· = const c))
    (hw : (binary .floorDiv l r).Wf True ρ) :
    Ensures (rewriteFloorDiv range once l r) (Simplifies ρ (binary .floorDiv l r)) := by
  have ⟨d, hd, hrd⟩ := hw.2.2.positive trivial (.inr rfl)
  subst hrd
  refine .bind (hr.mem trivial) fun rhs hrhs => .bind (ho l hw.1) fun x hx => ?_
  have hxd : Simplifies ρ (binary .floorDiv l (const d)) (x.floorDiv (const d)) :=
    ⟨wf_floorDiv hx.wf <| .of_pos hd, by simp [hx.eval, BinaryOp.eval]⟩
  split
  case isTrue =>
    refine .bind (hc d) fun y hy => .pure ?_
    exact hy ▸ hxd
  case isFalse hp =>
    obtain rfl : d = rhs.lower := Interval.eq_of_isPoint (not_not.mp hp) hrhs
    have hunchanged : Simplifies ρ (binary .floorDiv l (const rhs.lower))
        (if x ≠ l then x.floorDiv (const rhs.lower) else binary .floorDiv l (const rhs.lower)) := by
      split
      case isTrue  => exact hxd
      case isFalse => exact .refl hw
    have hrule {e'} (h : e'.Wf True ρ ∧ e'.eval ρ = (x.eval ρ).fdiv rhs.lower) :
        Simplifies ρ (binary .floorDiv l (const rhs.lower)) e' :=
      ⟨h.1, by simp [h.2, hx.eval, BinaryOp.eval]⟩
    dsimp only
    split
    case isFalse => exact .pure hunchanged
    case isTrue  =>
      refine .bind_option (simplifyModDiv_ensures hr hx.wf hd) (fun _ h => .pure <| hrule (h _ rfl)) ?_
      refine .bind_option (simplifyDivDiv_ensures hr hx.wf hd) (fun _ h => .pure <| hrule (h _ rfl)) ?_
      refine .bind_option (simplifySumDiv_ensures hr hx.wf hd) (fun _ h => .pure <| hrule (h _ rfl)) ?_
      exact .pure hunchanged

end FloorDiv

theorem rewriteMul_ensures {once : SymbolicExpr → Option SymbolicExpr} (hr : RangeSound (Wf True ρ) ρ range)
    (ho : Preserves ρ once) (hw : (binary .mul l r).Wf True ρ) :
    Ensures (rewriteMul range once l r) (Simplifies ρ (binary .mul l r)) := by
  refine .bind (hr.mem hw.2.1) fun rhs hrhs => ?_
  split
  case isTrue => exact .pure <| .refl hw
  case isFalse hp =>
    have hr := Interval.eq_of_isPoint (not_not.mp hp) hrhs
    refine .bind (ho l hw.1) fun x hx => ?_
    split
    case h_1 a b =>
      refine (scaleSummands_ensures hx.wf).imp fun e' he => ⟨he.1, ?_⟩
      rw [he.2, hx.eval, eval_binary, hr, BinaryOp.eval]
    case h_2 =>
      split
      case isTrue h₁ => exact .pure ⟨hx.wf, by simp [hx.eval, hr, h₁, BinaryOp.eval]⟩
      case isFalse =>
        split
        case isTrue  => exact .pure <| .refl hw
        case isFalse => exact .pure ⟨wf_mul hx.wf trivial, by simp [hx.eval, hr, BinaryOp.eval]⟩

end Indexing
