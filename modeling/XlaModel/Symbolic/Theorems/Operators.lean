import XlaModel.Lib.Fallible
import XlaModel.Symbolic.Theorems.Divisor
import XlaModel.Symbolic.Theorems.Measure

namespace Symbolic

open SymbolicExpr Fuel

variable {pos : Prop} {ρ : Nat → Int} {rec : Nat → SymbolicExpr → Option SymbolicExpr} {l r : SymbolicExpr}

structure Canon (pos : Prop) (ρ : Nat → Int) (e e' : SymbolicExpr) : Prop where
  eval    : e'.eval ρ = e.eval ρ
  wf      : e'.Wf pos ρ
  folded  : e'.Folded
  measure : e'.measure ≤ e.measure

-- The recursive calls on smaller expressions are correct.
def Recursive (pos : Prop) (ρ : Nat → Int) (rec : Nat → SymbolicExpr → Option SymbolicExpr) (e : SymbolicExpr) :
    Prop :=
  ∀ x, x.measure < e.measure → x.Wf pos ρ → Computes (rec · x) (Canon pos ρ x)

theorem Canon.const {e : SymbolicExpr} (h : v = e.eval ρ) : Canon pos ρ e (const v) where
  eval    := h
  wf      := trivial
  folded  := trivial
  measure := measure_const_le ..

theorem Canon.createBinaryOp (hd : (binary op l r).Wf pos ρ) (hf : (binary op l r).Folded) :
    Canon pos ρ (binary op l r) (createBinaryOp op l r) where
  eval    := eval_createBinaryOp ..
  wf      := wf_createBinaryOp hd
  folded  := folded_createBinaryOp hf.1 hf.2.1
  measure := measure_createBinaryOp_le ..

theorem Canon.left (hd : (binary op l r).Wf pos ρ) (hf : (binary op l r).Folded)
    (h : l.eval ρ = (binary op l r).eval ρ) : Canon pos ρ (binary op l r) l where
  eval    := h
  wf      := hd.1
  folded  := hf.1
  measure := (measure_lt_binary_left ..).le

theorem Canon.right (hd : (binary op l r).Wf pos ρ) (hf : (binary op l r).Folded)
    (h : r.eval ρ = (binary op l r).eval ρ) : Canon pos ρ (binary op l r) r where
  eval    := h
  wf      := hd.2.1
  folded  := hf.2.1
  measure := (measure_lt_binary_right ..).le

theorem Recursive.canon {e x : SymbolicExpr} (h : Recursive pos ρ rec e) (hm : x.measure < e.measure)
    (hd : x.Wf pos ρ) (he : x.eval ρ = e.eval ρ) : Computes (rec · x) (Canon pos ρ e) :=
  (h x hm hd).imp fun _ hc =>
    { hc with eval := hc.eval.trans he, measure := hc.measure.trans hm.le }

section Mul

theorem trySimplifyMulByConstantRhs_canon (hd : l.Wf pos ρ) (hf : l.Folded)
    (h : l.trySimplifyMulByConstantRhs c = some s) :
    Canon pos ρ (binary .mul l (const c)) s ∧ s.measure < (binary .mul l (const c)).measure := by
  have hm := measure_lt_mul_const l c
  have hc := (measure_const_le 0 l).trans_lt hm
  revert h
  fun_cases trySimplifyMulByConstantRhs l c <;> intro h <;> cases h
  case case1 h₀   => exact ⟨.const (by simp [BinaryOp.eval, h₀]), hc⟩
  case case2 h₁   => exact ⟨⟨by simp [BinaryOp.eval, h₁], hd, hf, hm.le⟩, hm⟩
  case case3 x c₁ =>
    have hm : (x.mulConst (c₁ * c)).measure < (binary .mul (binary .mul x (const c₁)) (const c)).measure :=
      (measure_mulConst_le ..).trans_lt <| measure_mul_const_congr x _ c₁ ▸ measure_lt_mul_const ..
    refine ⟨⟨?_, wf_mulConst _ hd.1, folded_mulConst _ hf.1, hm.le⟩, hm⟩
    simp [eval_mulConst, BinaryOp.eval, mul_assoc]

theorem canonicalizeMul_canon (h : Recursive pos ρ rec (binary .mul l r))
    (hd : (binary .mul l r).Wf pos ρ) (hf : (binary .mul l r).Folded) :
    Computes (fun n => canonicalizeMul (rec n) l r) (Canon pos ρ (binary .mul l r)) := by
  fun_cases canonicalizeMul (fun _ => none) l r
  all_goals simp only [canonicalizeMul, *, if_true, if_false]
  case case1 s _ hs =>
    obtain ⟨c, hc, hs⟩ := Option.bind_eq_some_iff.mp hs
    obtain rfl := constValue?_eq_some.mp hc
    exact .pure (trySimplifyMulByConstantRhs_canon hd.1 hf.1 hs).1
  case case2 s _ hs =>
    obtain ⟨c, hc, hs⟩ := Option.bind_eq_some_iff.mp hs
    obtain rfl := constValue?_eq_some.mp hc
    have ⟨hc, hm⟩ := trySimplifyMulByConstantRhs_canon hd.1 hf.1 hs
    exact h.canon hm hc.wf hc.eval
  case case3 x c hn =>
    -- A constant right-hand side would have been multiplied with the constant `c`.
    have hr : r.isConst = false := by
      cases r
      case const d =>
        simp only [constValue?, trySimplifyMulByConstantRhs, Option.bind_eq_bind,
          Option.bind_some] at hn
        split at hn <;> [cases hn; split at hn <;> cases hn]
      all_goals rfl
    have hx : x.isConst = false := Bool.eq_false_iff.mpr fun h => hf.1.2.2 ⟨h, rfl⟩
    refine h.canon ?_ (wf_mul (wf_mul hd.1.1 hd.2.1) hd.1.2.1) ?_
    · exact measure_mul_assoc_lt hx hr
    · simp [BinaryOp.eval, mul_right_comm]
  case case4 a b _ =>
    refine h.canon (measure_distribute_lt rfl rfl) ?_ ?_
    · exact wf_add (wf_mul hd.1.1 hd.2.1) (wf_mul hd.1.2.1 hd.2.1)
    · simp [BinaryOp.eval, add_mul]
  case case5 a b _ _ _ =>
    have hm := @measure_distribute_lt l _ _ _ _ (measure_mul_swap l a) (measure_mul_swap l b)
    refine h.canon (measure_mul_comm ▸ hm) ?_ ?_
    · exact wf_add (wf_mul hd.1 hd.2.1.1) (wf_mul hd.1 hd.2.1.2.1)
    · simp [BinaryOp.eval, mul_add]
  case case6 => exact .pure <| .createBinaryOp hd hf

end Mul

section MinMax

-- The constant difference is the one of the values.
theorem subtractAndGetConstDiff_spec (h : Recursive pos ρ rec e) (hl : l.Wf pos ρ) (hr : r.Wf pos ρ)
    (hw : l.weight + r.weight + 1 < e.weight) :
    Computes (fun n => subtractAndGetConstDiff (rec n) l r)
      (fun diff => ∀ d, diff = some d → l.eval ρ - r.eval ρ = d) := by
  have hw₁ := weight_mul_le r (const (-1))
  simp only [weight, mul_one] at hw₁
  have hn := h (r.mul (const (-1))) (measure_lt_of_weight_lt <| by omega) (wf_mul hr trivial)
  refine hn.bind fun negated hn => ?_
  have hw₂ := weight_le_of_measure_le hn.measure
  have hw₃ := weight_add_le l negated
  refine (h _ (measure_lt_of_weight_lt ?_) (wf_add hl hn.wf)).bind fun diff hd => ?_
  · omega
  refine .pure fun d he => ?_
  have heval := hd.eval
  rw [constValue?_eq_some.mp he, eval_add, hn.eval, eval_mul] at heval
  simp only [eval_const] at heval
  omega

theorem canonicalizeMin_canon (h : Recursive pos ρ rec (binary .min l r))
    (hd : (binary .min l r).Wf pos ρ) (hf : (binary .min l r).Folded) :
    Computes (fun n => canonicalizeMin (rec n) l r) (Canon pos ρ (binary .min l r)) := by
  have hs := subtractAndGetConstDiff_spec h hd.1 hd.2.1 (by simp [weight])
  refine hs.bind fun diff hdiff => ?_
  cases diff
  case none => exact .pure <| .createBinaryOp hd hf
  case some d =>
    have := hdiff d rfl
    refine .pure ?_
    split
    case isTrue  => exact .left hd hf <| by simp only [eval_binary, BinaryOp.eval]; omega
    case isFalse => exact .right hd hf <| by simp only [eval_binary, BinaryOp.eval]; omega

theorem canonicalizeMax_canon (h : Recursive pos ρ rec (binary .max l r))
    (hd : (binary .max l r).Wf pos ρ) (hf : (binary .max l r).Folded) :
    Computes (fun n => canonicalizeMax (rec n) l r) (Canon pos ρ (binary .max l r)) := by
  have hs := subtractAndGetConstDiff_spec h hd.1 hd.2.1 (by simp [weight])
  refine hs.bind fun diff hdiff => ?_
  cases diff
  case none => exact .pure <| .createBinaryOp hd hf
  case some d =>
    have := hdiff d rfl
    refine .pure ?_
    split
    case isTrue  => exact .left hd hf <| by simp only [eval_binary, BinaryOp.eval]; omega
    case isFalse => exact .right hd hf <| by simp only [eval_binary, BinaryOp.eval]; omega

end MinMax

section DivMod

theorem gcd_facts {c d : Int} (hd : d ≠ 0) (hg : ¬c.natAbs.gcd d.natAbs ≤ 1) :
    ((c.natAbs.gcd d.natAbs : Nat) : Int) ∣ c ∧ ((c.natAbs.gcd d.natAbs : Nat) : Int) ∣ d ∧
      (d.tdiv (c.natAbs.gcd d.natAbs)).natAbs < d.natAbs := by
  refine ⟨?_, ?_, ?_⟩
  · exact Int.natCast_dvd.mpr <| Nat.gcd_dvd_left ..
  · exact Int.natCast_dvd.mpr <| Nat.gcd_dvd_right ..
  · rw [Int.natAbs_tdiv, Int.natAbs_natCast]
    exact Nat.div_lt_self (Int.natAbs_pos.mpr hd) (by omega)

-- The specification of the rules that return the null expression if they do not apply.
theorem Recursive.some_canon {e x : SymbolicExpr} (h : Recursive pos ρ rec e)
    (hm : x.measure < e.measure) (hd : x.Wf pos ρ) (he : x.eval ρ = e.eval ρ) :
    Computes (fun n => some <$> rec n x) (fun e? => ∀ e', e? = some e' → Canon pos ρ e e') :=
  (h.canon hm hd he).map fun _ hc _ h => Option.some.inj h ▸ hc

theorem trySimplifyDivModByGcd_mul (ho : op.isDivision) (hok : DivisorOk pos ρ op (const d))
    (h : Recursive pos ρ rec (binary op (binary .mul a (const c)) (const d))) (hd : a.Wf pos ρ) :
    Computes (fun n => trySimplifyDivModByGcd (rec n) op (binary .mul a (const c)) d)
      (fun e? => ∀ e, e? = some e → Canon pos ρ (binary op (binary .mul a (const c)) (const d)) e) := by
  simp only [trySimplifyDivModByGcd]
  refine .ite (fun _ => .pure_none) fun hg => ?_
  have hd₀ := hok.ne_zero_const ho
  have ⟨hc, hd', hlt⟩ := gcd_facts hd₀ hg
  have hg := Nat.lt_of_lt_of_le Nat.zero_lt_one (Nat.not_le.mp hg).le
  generalize c.natAbs.gcd d.natAbs = g at *
  have hm : (a.mul (const (c.tdiv g))).measure ≤ (binary .mul a (const c)).measure :=
    measure_mul_const_congr a _ c ▸ measure_createBinaryOp_le ..
  have ha := wf_mul (r := const (c.tdiv g)) hd trivial
  have hn := hok.tdiv hd'
  cases op <;> simp only [BinaryOp.isDivision, Bool.false_eq_true] at ho
  case floorDiv =>
    refine h.some_canon ?_ (wf_floorDiv ha hn) ?_
    · exact (measure_floorDiv_le ..).trans_lt <| measure_division_lt rfl hm hlt
    · simpa [BinaryOp.eval] using fdiv_mul_gcd hg hc hd'
  case ceilDiv =>
    refine h.some_canon ?_ (wf_ceilDiv ha hn) ?_
    · exact (measure_ceilDiv_le ..).trans_lt <| measure_division_lt rfl hm hlt
    · simpa [BinaryOp.eval] using divideCeil_mul_gcd hg hc hd'
  case mod =>
    refine h.some_canon (measure_mod_mul_lt hm hlt) (wf_mul (wf_mod ha hn) trivial) ?_
    simpa [BinaryOp.eval] using modulo_mul_gcd hg hd₀ hc hd'

theorem trySimplifyDivModByGcd_spec (ho : op.isDivision) (hok : DivisorOk pos ρ op (const d))
    (h : Recursive pos ρ rec (binary op l (const d))) (hd : l.Wf pos ρ) :
    Computes (fun n => trySimplifyDivModByGcd (rec n) op l d)
      (fun e? => ∀ e, e? = some e → Canon pos ρ (binary op l (const d)) e) := by
  by_cases hl : ∃ a c, l = binary .mul a (const c)
  case pos =>
    obtain ⟨a, c, rfl⟩ := hl
    exact trySimplifyDivModByGcd_mul ho hok h hd.1
  case neg =>
    have hn (n : Nat) : trySimplifyDivModByGcd (rec n) op l d = some none := by
      fun_cases trySimplifyDivModByGcd (rec n) op l d <;> first | rfl | exact absurd ⟨_, _, rfl⟩ hl
    simp only [hn]
    exact .pure_none

theorem simplifyModAddOperand_spec (hok : DivisorOk pos ρ .mod (const d))
    (h : Recursive pos ρ rec (binary .mod (binary .add a b) (const d))) (ha : a.Wf pos ρ)
    (hb : b.Wf pos ρ) :
    Computes (fun n => simplifyModAddOperand (rec n) a b d)
      (fun e? => ∀ e, e? = some e → Canon pos ρ (binary .mod (binary .add a b) (const d)) e) := by
  have hd₀ := hok.ne_zero_const rfl
  have hwa := weight_mod_le a (const d)
  have hwb := weight_mod_le b (const d)
  simp only [weight] at hwa hwb
  refine .ite (fun hm => ?_) fun _ => .ite (fun hm => ?_) fun _ => .pure_none
  · refine h.some_canon (measure_lt_of_weight_lt ?_) (wf_mod hb hok) ?_
    · simp only [weight]
      omega
    · simpa [BinaryOp.eval] using (modulo_add_of_dvd_left hd₀ <| dvd_of_isMultipleOf (wf_iff.mp ha).1 hm).symm
  · refine h.some_canon (measure_lt_of_weight_lt ?_) (wf_mod ha hok) ?_
    · simp only [weight]
      have := a.weight_pos
      omega
    · simpa [BinaryOp.eval, Int.add_comm] using
        (modulo_add_of_dvd_left hd₀ <| dvd_of_isMultipleOf (wf_iff.mp hb).1 hm).symm

section FloorDivAdd

variable {e a b x : SymbolicExpr} {d : Int}

theorem simplifyFloorDivAddOperand_simplify (hok : DivisorOk pos ρ .floorDiv (const d)) (hx : x.Wf pos ρ) (hb : b.Wf pos ρ)
    (hw : 2 * (x.weight + b.weight + 1) < e.weight) (h : Recursive pos ρ rec e)
    (he : e.eval ρ = (x.eval ρ * c + b.eval ρ).fdiv d) :
    Computes (fun n => simplifyFloorDivAddOperand.simplify (rec n) b d x c)
      (fun e? => ∀ e', e? = some e' → Canon pos ρ e e') := by
  refine .ite (fun _ => .pure_none) fun hc => ?_
  have hw₁ := weight_mul_le x (const (c.tdiv d))
  have hw₂ := weight_floorDiv_le b (const d)
  have hw₃ := weight_add_le (x.mul (const (c.tdiv d))) (b.floorDiv (const d))
  simp only [weight, mul_one] at hw₁ hw₂
  refine h.some_canon (measure_lt_of_weight_lt <| by omega) ?_ ?_
  · exact wf_add (wf_mul hx trivial) (wf_floorDiv hb hok)
  · have hc : c.tdiv d * d = c := Int.tdiv_mul_cancel <| Int.dvd_of_tmod_eq_zero <| not_not.mp hc
    have hx : x.eval ρ * c = x.eval ρ * c.tdiv d * d := by rw [mul_assoc, hc]
    rw [he, hx, Int.mul_add_fdiv_right _ _ (hok.ne_zero_const rfl)]
    simp [Int.add_comm]

theorem simplifyFloorDivAddOperand_spec (hok : DivisorOk pos ρ .floorDiv (const d)) (ha : a.Wf pos ρ) (hb : b.Wf pos ρ)
    (hf : a.Folded) (hw : 2 * (a.weight + b.weight + 1) < e.weight) (h : Recursive pos ρ rec e)
    (he : e.eval ρ = (a.eval ρ + b.eval ρ).fdiv d) :
    Computes (fun n => simplifyFloorDivAddOperand (rec n) a b d)
      (fun e? => ∀ e', e? = some e' → Canon pos ρ e e') := by
  fun_cases simplifyFloorDivAddOperand (fun _ => none) a b d
  all_goals simp only [simplifyFloorDivAddOperand]
  case case1 x c =>
    have hx : ¬(x.isConst ∧ (const c).isConst) := hf.2.2
    refine simplifyFloorDivAddOperand_simplify hok ha.1 hb ?_ h (by simpa [BinaryOp.eval] using he)
    rw [weight_mul hx] at hw
    simpa [weight] using hw
  case case2 c =>
    exact simplifyFloorDivAddOperand_simplify hok trivial hb hw h (by simpa using he)
  case case3 => exact .pure_none

end FloorDivAdd

theorem neg_canon {e x : SymbolicExpr} (h : Recursive pos ρ rec e) (hx : x.Wf pos ρ)
    (hw : x.weight < e.weight) (he : e.eval ρ = -x.eval ρ) :
    Computes (fun n => neg (rec n) x) (Canon pos ρ e) := by
  have hw' := weight_mul_le x (const (-1))
  simp only [weight, mul_one] at hw'
  refine h.canon (measure_lt_of_weight_lt <| by omega) (wf_mul hx trivial) ?_
  simp [he]

theorem canonicalizeFloorDiv_canon (h : Recursive pos ρ rec (binary .floorDiv l r))
    (hd : (binary .floorDiv l r).Wf pos ρ) (hf : (binary .floorDiv l r).Folded) :
    Computes (fun n => canonicalizeFloorDiv (rec n) l r) (Canon pos ρ (binary .floorDiv l r)) := by
  refine .ite (fun h₀ => ?_) fun h₀ => ?_
  · exact .pure <| .left hd hf (by simp [h₀, BinaryOp.eval])
  cases r
  case const d =>
    have hd₀ := hd.2.2.ne_zero_const rfl
    refine .ite (absurd · hd₀) fun _ => .ite (fun h₁ => ?_) fun _ => .ite (fun h₂ => ?_) fun _ => ?_
    · exact .pure <| .left hd hf (by simp [h₁, BinaryOp.eval])
    · refine neg_canon h hd.1 ?_ (by simp [h₂, BinaryOp.eval, fdiv_neg_one])
      simp only [weight]
      omega
    refine (trySimplifyDivModByGcd_spec rfl hd.2.2 h hd.1).bind fun e? he => ?_
    cases e?
    case some e => exact .pure <| he e rfl
    case none   =>
      cases l
      case binary op a b =>
        cases op
        case add =>
          have hspec {x y : SymbolicExpr} (hx : x.Wf pos ρ) (hy : y.Wf pos ρ) (hfx : x.Folded)
              (hw : x.weight + y.weight = a.weight + b.weight)
              (he : x.eval ρ + y.eval ρ = a.eval ρ + b.eval ρ) :=
            simplifyFloorDivAddOperand_spec hd.2.2 hx hy hfx (by simp only [weight]; omega) h
              (by simp [he, BinaryOp.eval])
          refine (hspec hd.1.1 hd.1.2.1 hf.1.1 rfl rfl).bind fun e? he => ?_
          cases e?
          case some e => exact .pure <| he e rfl
          case none =>
            refine (hspec hd.1.2.1 hd.1.1 hf.1.2.1 (add_comm ..) (add_comm ..)).bind fun e? he => ?_
            cases e?
            case some e => exact .pure <| he e rfl
            case none   => exact .pure <| .createBinaryOp hd hf
        all_goals exact .pure <| .createBinaryOp hd hf
      all_goals exact .pure <| .createBinaryOp hd hf
  all_goals exact .pure <| .createBinaryOp hd hf

theorem canonicalizeCeilDiv_canon (h : Recursive pos ρ rec (binary .ceilDiv l r))
    (hd : (binary .ceilDiv l r).Wf pos ρ) (hf : (binary .ceilDiv l r).Folded) :
    Computes (fun n => canonicalizeCeilDiv (rec n) l r) (Canon pos ρ (binary .ceilDiv l r)) := by
  refine .ite (fun h₀ => ?_) fun h₀ => ?_
  · exact .pure <| .left hd hf (by simp [h₀, BinaryOp.eval, divideCeil])
  cases r
  case const d =>
    have hd₀ := hd.2.2.ne_zero_const rfl
    refine .ite (absurd · hd₀) fun _ => .ite (fun h₁ => ?_) fun _ => .ite (fun h₂ => ?_) fun _ => ?_
    · exact .pure <| .left hd hf (by simp [h₁, BinaryOp.eval])
    · refine neg_canon h hd.1 ?_ (by simp [h₂, BinaryOp.eval, divideCeil_neg_one])
      simp only [weight]
      omega
    refine (trySimplifyDivModByGcd_spec rfl hd.2.2 h hd.1).bind fun e? he => ?_
    cases e?
    case some e => exact .pure <| he e rfl
    case none   =>
      refine .ite (fun hp => ?_) fun hp => ?_
      · have hw₁ := weight_add_le l (const d)
        have hw₂ := weight_add_le (l.add (const d)) (const (-1))
        simp only [weight] at hw₁ hw₂
        have hsum := h ((l.add (const d)).add (const (-1)))
          (measure_lt_of_weight_lt <| by simp only [weight]; omega)
          (wf_add (wf_add hd.1 trivial) trivial)
        refine hsum.bind fun sum hsum => ?_
        have hw₃ := weight_le_of_measure_le hsum.measure
        have hw₄ := weight_floorDiv_le sum (const d)
        simp only [weight] at hw₄
        refine h.canon (measure_lt_of_weight_lt <| by simp only [weight]; omega)
          (wf_floorDiv hsum.wf <| .of_pos hp) ?_
        simp [hsum.eval, BinaryOp.eval, divideCeil_eq_fdiv hp, sub_eq_add_neg]
      · have hw₁ := weight_floorDiv_le l (const (-d))
        simp only [weight] at hw₁
        have hw₂ := weight_mul_le (l.floorDiv (const (-d))) (const (-1))
        simp only [weight, mul_one] at hw₂
        have hn := h ((l.floorDiv (const (-d))).mul (const (-1)))
          (measure_lt_of_weight_lt <| by simp only [weight]; omega)
          (wf_mul (wf_floorDiv hd.1 <| .of_pos <| by omega) trivial)
        refine hn.bind fun negated hn => ?_
        have hw₃ := weight_le_of_measure_le hn.measure
        refine h.canon (measure_lt_of_weight_lt <| by simp only [weight]; omega) hn.wf ?_
        simp [hn.eval, BinaryOp.eval, divideCeil_neg]
  all_goals exact .pure <| .createBinaryOp hd hf

theorem canonicalizeMod_canon (h : Recursive pos ρ rec (binary .mod l r))
    (hd : (binary .mod l r).Wf pos ρ) (hf : (binary .mod l r).Folded) :
    Computes (fun n => canonicalizeMod (rec n) l r) (Canon pos ρ (binary .mod l r)) := by
  refine .ite (fun h₀ => ?_) fun h₀ => .ite (fun he => ?_) fun hne => ?_
  · exact .pure <| .left hd hf (by simp [h₀, BinaryOp.eval, modulo_eq_emod (hd.2.2.ne_zero rfl)])
  · exact .pure <| .const (by simp [he, BinaryOp.eval, modulo_eq_emod (hd.2.2.ne_zero rfl)])
  cases r
  case const d =>
    have hd₀ := hd.2.2.ne_zero_const rfl
    refine .ite (absurd · hd₀) fun _ => .ite (fun h₁ => ?_) fun _ => .ite (fun hm => ?_) fun hm => ?_
    · refine .pure <| .const ?_
      cases h₁ <;> simp [*, BinaryOp.eval]
    · refine .pure <| .const ?_
      simp [BinaryOp.eval, modulo_eq_zero hd₀ <| dvd_of_isMultipleOf (wf_iff.mp hd.1).1 hm]
    refine (trySimplifyDivModByGcd_spec rfl hd.2.2 h hd.1).bind fun e? he => ?_
    cases e?
    case some e => exact .pure <| he e rfl
    case none   =>
      cases l
      case binary op x y =>
        cases op
        case mod =>
          cases y
          case const inner =>
            refine .ite (fun hi => ?_) fun _ => .pure <| .createBinaryOp hd hf
            have hw := weight_mod_le x (const d)
            simp only [weight] at hw
            refine h.canon (measure_lt_of_weight_lt <| by simp only [weight]; omega)
              (wf_mod hd.1.1 hd.2.2) ?_
            have hi₀ := hd.1.2.2.ne_zero_const rfl
            simp [BinaryOp.eval, modulo_modulo hd₀ hi₀ (Int.dvd_of_tmod_eq_zero hi)]
          all_goals exact .pure <| .createBinaryOp hd hf
        case add =>
          refine (simplifyModAddOperand_spec hd.2.2 h hd.1.1 hd.1.2.1).bind fun e? he => ?_
          cases e?
          case some e => exact .pure <| he e rfl
          case none   => exact .pure <| .createBinaryOp hd hf
        all_goals exact .pure <| .createBinaryOp hd hf
      all_goals exact .pure <| .createBinaryOp hd hf
  all_goals exact .pure <| .createBinaryOp hd hf

end DivMod
end Symbolic
