import XlaModel.Indexing.SumDivision
import XlaModel.Indexing.Theorems.Simplify

-- The rules keep the divisors positive constants, whatever the ranges are, and do not divide by zero.
namespace Indexing

open Symbolic SymbolicExpr Fallible

variable {σ : Type} {ρ : Nat → Int} {E : Fault → Prop} {e x l r : SymbolicExpr}
  {range : SymbolicExpr → Except Fault Interval} {c m d n : Int} {once simp' : SymbolicExpr → Except Fault SymbolicExpr}
  {ts : Terms}

structure RangeOk (E : Fault → Prop) (range : SymbolicExpr → Except Fault Interval) : Prop where
  const : ∀ c, range (const c) = .ok ⟨c, c⟩
  error : ∀ e f, range e = .error f → E f

theorem RangeOk.outcome (hr : RangeOk E range) (e : SymbolicExpr) : Outcome E (range e) (range e = .ok ·) :=
  .of_eq (hr.error e)

theorem quotient_outcome (h : d ≠ 0) : Outcome E (quotient n d) (fun _ => True) := by
  rw [quotient, if_neg h]
  exact .pure trivial

theorem remainder_outcome (h : d ≠ 0) : Outcome E (remainder n d) (fun rem => rem = n.tmod d) := by
  rw [remainder, if_neg h]
  exact .pure rfl

section Summands

theorem visitSummands_eq_foldlM {visit : σ → SymbolicExpr → Except Fault σ} {s : σ} :
    visitSummands visit s e = (summands e).foldlM visit s := by
  fun_induction visitSummands visit s e
  case case1 s l r hl hr =>
    rw [summands, List.foldlM_append, hl]
    simp only [hr]
  case case2 e hn =>
    rw [summands_of_not_add hn]
    simp

-- The invariant is given for the summands that have been visited.
theorem visitSummands_outcome {visit : σ → SymbolicExpr → Except Fault σ} {s : σ}
    (Inv : List SymbolicExpr → σ → Prop) (h : Inv [] s)
    (hv : ∀ pre x post s, summands e = pre ++ x :: post → Inv pre s →
      Outcome E (visit s x) (Inv (pre ++ [x]))) : Outcome E (visitSummands visit s e) (Inv (summands e)) := by
  rw [visitSummands_eq_foldlM]
  exact .foldlM Inv h hv

-- The predicates that a sum has if its summands have them.
structure SumClosed (W : SymbolicExpr → Prop) : Prop where
  sum : ∀ {l r}, W l → W r → W (binary .add l r)
  add : ∀ {l r}, W l → W r → W (l.add r)

theorem sumClosed_wf : SumClosed (Wf True ρ) where
  sum hl hr := ⟨hl, hr, .of_not_isDivision rfl⟩
  add hl hr := wf_add hl hr

theorem mapSummands_outcome {fn : σ → SymbolicExpr → Except Fault (σ × SymbolicExpr)} {W : SymbolicExpr → Prop}
    {s : σ} (Inv : σ → Prop) (hW : SumClosed W) (hs : Inv s)
    (hf : ∀ s x, x ∈ summands e → Inv s → Outcome E (fn s x) (fun p => W p.2 ∧ Inv p.1)) :
    Outcome E (mapSummands fn s e) (fun p => W p.2 ∧ Inv p.1) := by
  fun_induction mapSummands fn s e
  case case1 s l r hl hr =>
    simp only [summands, List.mem_append] at hf
    refine .bind (hl hs fun s x hx => hf s x (.inl hx)) fun p hp => ?_
    refine .bind (hr p.1 hp.2 fun s x hx => hf s x (.inr hx)) fun q hq => .pure ⟨?_, hq.2⟩
    dsimp only
    split
    case isTrue he  => exact hW.sum (he.1 ▸ hp.1) (he.2 ▸ hq.1)
    case isFalse    => exact hW.add hp.1 hq.1
  case case2 s e hn =>
    rw [summands_of_not_add hn] at hf
    exact hf s e (List.mem_singleton_self e) hs

theorem mapSummands_wf {fn : σ → SymbolicExpr → Except Fault (σ × SymbolicExpr)} {s : σ} (Inv : σ → Prop)
    (hw : e.Wf True ρ) (hs : Inv s)
    (hf : ∀ s x, x ∈ summands e → x.Wf True ρ → Inv s → Outcome E (fn s x) (fun p => p.2.Wf True ρ ∧ Inv p.1)) :
    Outcome E (mapSummands fn s e) (fun p => p.2.Wf True ρ ∧ Inv p.1) :=
  mapSummands_outcome Inv sumClosed_wf hs fun s x hx hi => hf s x hx (wf_of_mem_summands hw hx) hi

theorem scaleSummands_wf (hw : e.Wf True ρ) : Outcome E (scaleSummands e c) (Wf True ρ) :=
  .map (mapSummands_wf (fun _ => True) hw trivial fun _ _ _ hx _ => .pure ⟨wf_mul hx trivial, trivial⟩) fun _ hp => hp.1

end Summands

section ConstantRhs

structure ConstantRhsWf (ρ : Nat → Int) (e : SymbolicExpr) (op : BinaryOp) (c : Int) : Prop where
  wf  : (getLhs e).Wf True ρ
  pos : op = .mod ∨ op = .floorDiv → 0 < c

theorem getConstantRhs_wf (hr : RangeOk E range) (hw : e.Wf True ρ) (op : BinaryOp) :
    Outcome E (getConstantRhs range e op) (fun c? =>
      getConstantRhs range e op = .ok c? ∧ ∀ c, c? = some c → ConstantRhsWf ρ e op c) := by
  refine .with_eq ?_
  fun_cases getConstantRhs range e op
  case case2 => exact .pure (by simp)
  case case3 => exact .pure (by simp)
  case case1 l r =>
    refine .bind (hr.outcome r) fun bound hb => .pure fun c hc => ⟨hw.1, fun ho => ?_⟩
    obtain ⟨d, hd, rfl⟩ := hw.2.2.positive trivial ho
    obtain rfl := Except.ok.inj ((hr.const d).symm.trans hb)
    obtain rfl : d = c := by simpa [Interval.isPoint] using hc
    exact hd

theorem summands_of_mem (hx : x ∈ summands e) : summands x = [x] := by
  fun_induction summands e
  case case1 hl hr => exact (List.mem_append.mp hx).elim hl hr
  case case2 e hn  =>
    obtain rfl := List.mem_singleton.mp hx
    exact summands_of_not_add hn

-- No summand has the multiplier zero.
def NoZero (range : SymbolicExpr → Except Fault Interval) (e : SymbolicExpr) : Prop :=
  ∀ x ∈ summands e, getConstantRhs range x .mul ≠ .ok (some 0)

theorem noZero_const (c : Int) : NoZero range (const c) := by
  simp [NoZero, summands, getConstantRhs, pure, Except.pure]

theorem noZero_binary_add (hl : NoZero range l) (hr : NoZero range r) : NoZero range (binary .add l r) :=
  fun x hx => (List.mem_append.mp hx).elim (hl x) (hr x)

theorem noZero_add (hl : NoZero range l) (hr : NoZero range r) : NoZero range (l.add r) := by
  have h := createBinaryOp_cases .add l r
  rw [add]
  generalize createBinaryOp .add l r = e at h
  cases h
  case raw            => exact noZero_binary_add hl hr
  case swapped        => exact noZero_binary_add hr hl
  case fold           => exact noZero_const _
  case left           => exact hl
  case right          => exact hr
  case mulConst ho _  => contradiction
  case constMul ho _  => contradiction

theorem sumClosed_noZero (ρ : Nat → Int) (range : SymbolicExpr → Except Fault Interval) :
    SumClosed (fun e => e.Wf True ρ ∧ NoZero range e) where
  sum hl hr := ⟨sumClosed_wf.sum hl.1 hr.1, noZero_binary_add hl.2 hr.2⟩
  add hl hr := ⟨wf_add hl.1 hr.1, noZero_add hl.2 hr.2⟩

theorem noZero_of_mem (hx : x ∈ summands e) (h : getConstantRhs range x .mul ≠ .ok (some 0)) : NoZero range x := by
  intro y hy
  obtain rfl : y = x := by simpa [summands_of_mem hx] using hy
  exact h

theorem splitSumByGcd_wf (hr : RangeOk E range) (hw : e.Wf True ρ) (hz : NoZero range e) :
    Outcome E (splitSumByGcd range e) (fun p => p.2.1 ≠ 0 ∧ p.1.Wf True ρ ∧ p.2.2.Wf True ρ) := by
  have hgcd : Outcome E (multiplierGcd range e) (fun g? => ∀ g, g? = some g → g ≠ 0) := by
    refine visitSummands_outcome (fun _ g? => ∀ g, g? = some g → g ≠ 0) (by simp) fun pre x post g? heq hi => ?_
    have hx : x ∈ summands e := by simp [heq]
    refine .bind (getConstantRhs_wf hr (wf_of_mem_summands hw hx) .mul) fun c? hc => ?_
    cases c?
    case none   => cases g? <;> exact .pure hi
    case some c =>
      have hne : c ≠ 0 := fun h => hz x hx (h ▸ hc.1)
      cases g?
      case none   => exact .pure (by simpa using hne)
      case some g => exact .pure (by simpa using fun _ => hne)
  refine .bind hgcd fun g? hg => ?_
  simp only
  split
  case isTrue => exact .pure ⟨one_ne_zero, trivial, hw⟩
  case isFalse =>
    have hne : g?.getD 1 ≠ 0 := by
      cases g?
      case none   => simp
      case some g => exact hg _ rfl
    refine .bind (mapSummands_wf (Wf True ρ) hw trivial fun nm x _ hx hn => ?_) fun p hp => .pure ⟨hne, hp⟩
    refine .bind (getConstantRhs_wf hr hx .mul) fun c? hc => ?_
    cases c?
    case none   => exact .pure ⟨trivial, wf_add hn hx⟩
    case some c => exact .bind (quotient_outcome hne) fun q _ => .pure ⟨wf_mul (hc.2 c rfl).wf trivial, hn⟩

end ConstantRhs

section Mod

theorem removeMultiples_wf (hr : RangeOk E range) (hw : e.Wf True ρ) (hm : m ≠ 0) :
    Outcome E (removeMultiples range e m) (fun e' => e'.Wf True ρ ∧ NoZero range e') := by
  refine .bind (mapSummands_outcome (fun _ => True) (sumClosed_noZero ρ range) trivial fun extracted x hx _ => ?summand)
    fun p hp => .pure ?sum
  case summand =>
    have hxw := wf_of_mem_summands hw hx
    split
    case h_1 c => exact .pure ⟨⟨trivial, noZero_const 0⟩, trivial⟩
    case h_2 =>
      refine .bind (getConstantRhs_wf hr hxw .mul) fun c? hc => ?_
      cases c?
      case none   => exact .pure ⟨⟨hxw, noZero_of_mem hx (by simp [hc.1])⟩, trivial⟩
      case some c =>
        refine .bind (remainder_outcome hm) fun rem hrem => .pure ⟨?_, trivial⟩
        split
        case isTrue     => exact ⟨trivial, noZero_const 0⟩
        case isFalse hn =>
          have hne : c ≠ 0 := fun h => hn (by simp [hrem, h])
          exact ⟨hxw, noZero_of_mem hx (by simpa [hc.1] using hne)⟩
  case sum =>
    split
    case isTrue  => exact ⟨wf_add hp.1.1 trivial, noZero_add hp.1.2 (noZero_const _)⟩
    case isFalse => exact hp.1

theorem divideMultipliers_wf (hw : e.Wf True ρ) (hx : x.Wf True ρ) :
    Outcome E (divideMultipliers e x m d) (Wf True ρ) := by
  rw [divideMultipliers]
  split_ifs
  · exact .pure hx
  · exact scaleSummands_wf hx
  · exact .pure hw

theorem extractModFactor_wf (hr : RangeOk E range) (hw : e.Wf True ρ) (hz : NoZero range e) (hm : 0 < m) :
    Outcome E (extractModFactor range e (const m) m) (fun e? => ∀ e', e? = some e' → e'.Wf True ρ) := by
  refine .bind (splitSumByGcd_wf hr hw hz) fun p hp => ?_
  obtain ⟨multiplied, g, notMultiplied⟩ := p
  obtain ⟨hne, hp⟩ := hp
  dsimp only at hp ⊢
  split
  case isFalse => exact .pure (by simp)
  case isTrue =>
    refine .bind (remainder_outcome hne) fun rem hrem => ?_
    split
    case isFalse => exact .pure (by simp)
    case isTrue h₀ =>
      refine .bind (hr.outcome _) fun i _ => ?_
      split
      case isTrue =>
        have hG : 0 < g.gcd m := Int.gcd_pos_of_ne_zero_right _ hm.ne'
        have hGm := Int.gcd_dvd_right g m
        refine .bind (divideMultipliers_wf hw hp.1) fun x hx => .pure fun e' he => ?_
        cases he
        exact wf_mul (wf_mod hx <| .of_pos <| tdiv_pos_of_dvd hm (by omega) hGm) trivial
      case isFalse =>
        split
        case isFalse => exact .pure (by simp)
        case isTrue  =>
          refine .pure fun e' he => ?_
          cases he
          exact wf_add (wf_mod (wf_mul hp.1 trivial) <| .of_pos hm) hp.2

theorem rewriteModSum_wf (hr : RangeOk E range) (hw : (binary .mod l (const m)).Wf True ρ) (hx : x.Wf True ρ)
    (hm : 0 < m) : Outcome E (rewriteMod.rewriteModSum range l (const m) x m) (Wf True ρ) := by
  refine .bind (removeMultiples_wf hr hx hm.ne') fun newLhs hn => .bind (extractModFactor_wf hr hn.1 hn.2 hm) fun e? he => ?_
  cases e?
  case some e' => exact .pure (he e' rfl)
  case none =>
    refine .pure ?_
    split
    case isTrue  => exact hw
    case isFalse => exact wf_mod hn.1 (.of_pos hm)

theorem rewriteMod_wf (hr : RangeOk E range) (hw : (binary .mod l (const m)).Wf True ρ) (hm : 0 < m)
    (ho : Outcome E (once l) (Wf True ρ)) : Outcome E (rewriteMod range once l (const m)) (Wf True ρ) := by
  simp only [rewriteMod, hr.const m]
  refine .bind (.pure rfl : Outcome E (.ok _) (· = Interval.mk m m)) fun rhs hrhs => ?_
  subst hrhs
  split
  case isTrue => exact .pure hw
  case isFalse =>
    split
    case isTrue  => exact .pure trivial
    case isFalse =>
      refine .bind ho fun x hx => .bind (hr.outcome x) fun lhs _ => ?_
      split
      case isTrue  => exact .pure (wf_add hx trivial)
      case isFalse =>
        refine .bind (getConstantRhs_wf hr hx .mul) fun c? hc => ?_
        cases c?
        case none   => exact rewriteModSum_wf hr hw hx hm
        case some c =>
          dsimp only
          split
          case isFalse => exact rewriteModSum_wf hr hw hx hm
          case isTrue h =>
            have hq := tdiv_pos_of_dvd hm h.1 (Int.dvd_of_tmod_eq_zero h.2)
            exact .pure (wf_mul (wf_mod (hc.2 c rfl).wf <| .of_pos hq) trivial)

end Mod

section FloorDiv

theorem simplifyModDiv_wf (hr : RangeOk E range) (hw : e.Wf True ρ) (hd : 0 < d) :
    Outcome E (simplifyModDiv range e d) (fun e? => ∀ e', e? = some e' → e'.Wf True ρ) := by
  refine .bind (getConstantRhs_wf hr hw .mod) fun c? hc => ?_
  cases c?
  case none   => exact .pure (by simp)
  case some m =>
    have hc := hc.2 m rfl
    refine .bind (remainder_outcome hd.ne') fun rem hrem => ?_
    split
    case isFalse => exact .pure (by simp)
    case isTrue h₀ =>
      refine .pure fun e' he => ?_
      cases he
      have hq := tdiv_pos_of_dvd (hc.pos <| .inl rfl) hd (Int.dvd_of_tmod_eq_zero (hrem ▸ h₀))
      exact wf_mod (wf_floorDiv hc.wf <| .of_pos hd) <| .of_pos hq

theorem simplifyDivDiv_wf (hr : RangeOk E range) (hw : e.Wf True ρ) (hd : 0 < d) :
    Outcome E (simplifyDivDiv range e d) (fun e? => ∀ e', e? = some e' → e'.Wf True ρ) := by
  refine .bind (getConstantRhs_wf hr hw .floorDiv) fun c? hc => ?_
  cases c?
  case none   => exact .pure (by simp)
  case some c =>
    have hc := hc.2 c rfl
    refine .pure fun e' he => ?_
    cases he
    exact wf_floorDiv hc.wf <| .of_pos <| mul_pos hd <| hc.pos <| .inr rfl

theorem extractMultiples_wf (hr : RangeOk E range) (hw : e.Wf True ρ) (hd : 0 < d) :
    Outcome E (extractMultiples range e d) (fun p => (p.2.Wf True ρ ∧ NoZero range p.2) ∧ p.1.Wf True ρ) := by
  refine mapSummands_outcome (Wf True ρ) (sumClosed_noZero ρ range) trivial fun extracted x hx hi => ?_
  have hxw := wf_of_mem_summands hw hx
  refine .bind (getConstantRhs_wf hr hxw .mul) fun c? hc => ?_
  cases c?
  case some c =>
    refine .bind (remainder_outcome hd.ne') fun rem hrem => ?_
    split
    case isTrue     => exact .pure ⟨⟨trivial, noZero_const 0⟩, wf_add hi <| wf_mul (hc.2 c rfl).wf trivial⟩
    case isFalse hn =>
      have hne : c ≠ 0 := fun h => hn (by simp [hrem, h])
      exact .pure ⟨⟨hxw, noZero_of_mem hx (by simpa [hc.1] using hne)⟩, hi⟩
  case none =>
    have hz : NoZero range x := noZero_of_mem hx (by simp [hc.1])
    dsimp only
    split
    case h_2   => exact .pure ⟨⟨hxw, hz⟩, hi⟩
    case h_1 c =>
      split
      case isFalse => exact .pure ⟨⟨trivial, hz⟩, hi⟩
      case isTrue  => exact .pure ⟨⟨trivial, noZero_const _⟩, wf_add hi trivial⟩

theorem cancelDivisorGcd_wf (hr : RangeOk E range) (hw : e.Wf True ρ) (hz : NoZero range e) (hd : 0 < d) :
    Outcome E (cancelDivisorGcd range e d) (fun p => p.1.Wf True ρ ∧ 0 < p.2) := by
  refine .bind (splitSumByGcd_wf hr hw hz) fun p hp => ?_
  obtain ⟨multiplied, g, notMultiplied⟩ := p
  obtain ⟨_, hp⟩ := hp
  dsimp only at hp ⊢
  refine .bind (hr.outcome _) fun i _ => ?_
  have hG : 0 < d.gcd g := Int.gcd_pos_of_ne_zero_left _ hd.ne'
  have hGd := Int.gcd_dvd_left d g
  generalize d.gcd g = G at *
  split
  case isTrue => exact .pure ⟨wf_mul hp.1 trivial, tdiv_pos_of_dvd hd (by omega) hGd⟩
  case isFalse =>
    split
    case isFalse => exact .pure ⟨hw, hd⟩
    case isTrue hn =>
      have hH : 0 < i.lower.gcd G := Int.gcd_pos_of_ne_zero_left _ hn.2
      have hHd := (Int.gcd_dvd_right i.lower G).trans hGd
      split
      case isFalse => exact .pure ⟨hw, hd⟩
      case isTrue  => exact .pure ⟨wf_add (wf_mul hp.1 trivial) trivial, tdiv_pos_of_dvd hd (by omega) hHd⟩

theorem innerDivisors_pos (hr : RangeOk E range) (hw : e.Wf True ρ) :
    Outcome E (innerDivisors range e) (fun ds => ∀ d ∈ ds, 0 < d) := by
  refine visitSummands_outcome (fun _ ds => ∀ d ∈ ds, 0 < d) (by simp) fun pre x post ds heq hi => ?_
  refine .bind (getConstantRhs_wf hr (wf_of_mem_summands hw (by simp [heq])) .floorDiv) fun c? hc => ?_
  cases c?
  case none   => exact .pure hi
  case some c =>
    refine .pure fun d hd => ?_
    obtain hd | hd := List.mem_append.mp hd
    case inl => exact hi d hd
    case inr => exact List.mem_singleton.mp hd ▸ (hc.2 c rfl).pos (.inr rfl)

theorem mergeInnerDivision_wf (hr : RangeOk E range) (hw : e.Wf True ρ) (hd : 0 < d) :
    Outcome E (mergeInnerDivision range e d) (fun p => p.1.Wf True ρ ∧ 0 < p.2) := by
  refine .bind (innerDivisors_pos hr hw) fun ds hds => ?_
  split
  case h_2   => exact .pure ⟨hw, hd⟩
  case h_1 c =>
    refine .bind (mapSummands_wf (fun _ => True) hw trivial fun _ x _ hx _ => ?_) fun p hp =>
      .pure ⟨hp.1, mul_pos hd (hds c List.mem_cons_self)⟩
    refine .bind (getConstantRhs_wf hr hx .floorDiv) fun c? hc => ?_
    cases c?
    case none   => exact .pure ⟨wf_mul hx trivial, trivial⟩
    case some c => exact .pure ⟨(hc.2 c rfl).wf, trivial⟩

theorem simplifySumDiv_wf (hr : RangeOk E range) (hw : e.Wf True ρ) (hd : 0 < d) :
    Outcome E (simplifySumDiv range e d) (fun e? => ∀ e', e? = some e' → e'.Wf True ρ) := by
  refine .bind (extractMultiples_wf hr hw hd) fun p hp => ?_
  obtain ⟨extracted, newDividend⟩ := p
  refine .bind (cancelDivisorGcd_wf hr hp.1.1 hp.1.2 hd) fun q hq => ?_
  obtain ⟨newDividend₁, d₁⟩ := q
  refine .bind (mergeInnerDivision_wf hr hq.1 hq.2) fun s hs => ?_
  obtain ⟨newDividend₂, d₂⟩ := s
  dsimp only at hp hs ⊢
  split
  case isFalse => exact .pure (by simp)
  case isTrue  =>
    refine .pure fun e' he => ?_
    cases he
    exact wf_add (wf_floorDiv hs.1 <| .of_pos hs.2) hp.2

theorem rewriteFloorDiv_wf (hr : RangeOk E range) (hw : (binary .floorDiv l (const d)).Wf True ρ) (hd : 0 < d)
    (ho : Outcome E (once l) (Wf True ρ)) : Outcome E (rewriteFloorDiv range once l (const d)) (Wf True ρ) := by
  simp only [rewriteFloorDiv, hr.const d]
  refine .bind (.pure rfl : Outcome E (.ok _) (· = Interval.mk d d)) fun rhs hrhs => ?_
  subst hrhs
  refine .bind ho fun x hx => ?_
  have hunchanged : (if x ≠ l then x.floorDiv (const d) else binary .floorDiv l (const d)).Wf True ρ := by
    split
    case isTrue  => exact wf_floorDiv hx <| .of_pos hd
    case isFalse => exact hw
  split
  case isTrue hp => exact absurd (by simp [Interval.isPoint]) hp
  case isFalse =>
    dsimp only
    split
    case isFalse => exact .pure hunchanged
    case isTrue  =>
      refine .bind_option (simplifyModDiv_wf hr hx hd) (fun _ h => .pure <| h _ rfl) ?_
      refine .bind_option (simplifyDivDiv_wf hr hx hd) (fun _ h => .pure <| h _ rfl) ?_
      refine .bind_option (simplifySumDiv_wf hr hx hd) (fun _ h => .pure <| h _ rfl) ?_
      exact .pure hunchanged

end FloorDiv

theorem rewriteMul_wf (hr : RangeOk E range) (hw : (binary .mul l r).Wf True ρ)
    (ho : ∀ i, range r = .ok i → i.isPoint → Outcome E (once l) (Wf True ρ)) :
    Outcome E (rewriteMul range once l r) (Wf True ρ) := by
  refine .bind (hr.outcome r) fun rhs hrhs => ?_
  split
  case isTrue     => exact .pure hw
  case isFalse hp =>
    refine .bind (ho rhs hrhs (not_not.mp hp)) fun x hx => ?_
    split
    case h_1 a b => exact scaleSummands_wf hx
    case h_2 =>
      split_ifs
      · exact .pure hx
      · exact .pure hw
      · exact .pure (wf_mul hx trivial)

end Indexing
