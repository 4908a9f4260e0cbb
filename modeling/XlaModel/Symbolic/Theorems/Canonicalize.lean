import XlaModel.Symbolic.Theorems.Add
import XlaModel.Lib.Fallible

namespace Symbolic

open SymbolicExpr Fuel

variable {pos : Prop} {ρ : Nat → Int} {rec : Nat → SymbolicExpr → Option SymbolicExpr} {e l r l' r' : SymbolicExpr}

theorem canonicalizeOp_const (o : IterationOrder) (rec : SymbolicExpr → Option SymbolicExpr)
    (h : op.isDivision → b ≠ 0) :
    canonicalizeOp o rec op (const a) (const b) = some (const (op.eval a b)) :=
  if_neg fun ⟨ho, hb⟩ => h ho hb

theorem canonicalizeByType_canon (o : IterationOrder) (h : Recursive pos ρ rec (binary op l r))
    (hd : (binary op l r).Wf pos ρ) (hf : (binary op l r).Folded) :
    Computes (fun n => canonicalizeByType o (rec n) op l r) (Canon pos ρ (binary op l r)) := by
  cases op
  case add      => exact canonicalizeAdd_canon o h hd hf
  case mul      => exact canonicalizeMul_canon h hd hf
  case min      => exact canonicalizeMin_canon h hd hf
  case max      => exact canonicalizeMax_canon h hd hf
  case floorDiv => exact canonicalizeFloorDiv_canon h hd hf
  case ceilDiv  => exact canonicalizeCeilDiv_canon h hd hf
  case mod      => exact canonicalizeMod_canon h hd hf

theorem canonicalizeOp_canon (o : IterationOrder) (h : Recursive pos ρ rec (binary op l r))
    (hd : (binary op l r).Wf pos ρ) (hf : (binary op l r).Folded) :
    Computes (fun n => canonicalizeOp o (rec n) op l r) (Canon pos ρ (binary op l r)) := by
  have hc (a b) (hl : l = const a) (hr : r = const b) : False := hf.2.2 ⟨hl ▸ rfl, hr ▸ rfl⟩
  simp only [canonicalizeOp]
  refine .ite (fun hs => ?_) fun _ => canonicalizeByType_canon o h hd hf
  -- The operands of a commutative operation have been swapped.
  have hd' : (binary op r l).Wf pos ρ :=
    ⟨hd.2.1, hd.1, .of_not_isDivision <| BinaryOp.isDivision_of_isCommutative hs.1⟩
  have hm := measure_comm hs.1 r l
  have h' : Recursive pos ρ rec (binary op r l) := fun x hx => h x (hm ▸ hx)
  refine (canonicalizeByType_canon o h' hd' ⟨hf.2.1, hf.1, fun h => hf.2.2 h.symm⟩).imp fun _ hc => ?_
  exact { hc with
    eval    := hc.eval.trans <| BinaryOp.eval_comm hs.1 ..
    measure := hm ▸ hc.measure
  }

theorem canonicalize_canon (o : IterationOrder) (e : SymbolicExpr) (hd : e.Wf pos ρ) :
    Computes (canonicalize o · e) (Canon pos ρ e) := by
  induction h : e.measure using WellFoundedLT.induction generalizing e
  case ind m hi =>
    subst h
    replace hi : Recursive pos ρ (canonicalize o) e := fun x hm hd => hi _ hm x hd rfl
    refine .of_succ ?_
    cases e
    case var   => exact .pure ⟨rfl, trivial, trivial, le_rfl⟩
    case const => exact .pure ⟨rfl, trivial, trivial, le_rfl⟩
    case binary op l r =>
      refine (hi l (measure_lt_binary_left ..) hd.1).bind fun l' hl => ?_
      refine (hi r (measure_lt_binary_right ..) hd.2.1).bind fun r' hr => ?_
      have hconst c (hc : r = const c) : r' = const c := by
        have ⟨d, hd⟩ := eq_const_of_isConst <| isConst_of_measure_le hr.measure (hc ▸ rfl)
        have heval : d = c := by simpa [hd, hc] using hr.eval
        rw [hd, heval]
      have hd' : DivisorOk pos ρ op r' := {
        ne_zero  := hr.eval ▸ hd.2.2.ne_zero
        positive := fun hp ho =>
          have ⟨c, hc, he⟩ := hd.2.2.positive hp ho
          ⟨c, hc, hconst c he⟩
      }
      by_cases hc : l'.isConst ∧ r'.isConst
      case pos =>
        obtain ⟨a, rfl⟩ := eq_const_of_isConst hc.1
        obtain ⟨b, rfl⟩ := eq_const_of_isConst hc.2
        simp only [canonicalizeOp_const o _ hd'.ne_zero_const]
        exact .pure <| .const <| by simp [← hl.eval, ← hr.eval]
      case neg =>
        have hm := measure_binary_mono op hl.measure hr.measure hc hconst
        have hi' : Recursive pos ρ (canonicalize o) (binary op l' r') :=
          fun x hx => hi x (hx.trans_le hm)
        have hop := canonicalizeOp_canon o hi' ⟨hl.wf, hr.wf, hd'⟩
          ⟨hl.folded, hr.folded, hc⟩
        refine hop.imp fun _ h => { h with
          eval    := h.eval.trans <| by simp [hl.eval, hr.eval]
          measure := h.measure.trans hm
        }

theorem canonicalize_preserves_eval (o : IterationOrder) (e : SymbolicExpr) (ρ : Nat → Int)
    (h : e.Defined ρ) :
    ∃ e', (∃ N, ∀ n ≥ N, canonicalize o n e = some e') ∧ e'.Defined ρ ∧ e'.eval ρ = e.eval ρ :=
  have ⟨e', hr, hc⟩ := canonicalize_canon o e <| wf_iff.mpr ⟨h, False.elim⟩
  ⟨e', Returns.iff_exists.mp hr, (wf_iff.mp hc.wf).1, hc.eval⟩

-- The division and the remainder are combined to the variable.
theorem canonicalize_preserves_eval_divMod :
    let e := binary .add (binary .mul (binary .floorDiv (var 0) (const 3)) (const 3))
      (binary .mod (var 0) (const 3))
    canonicalize ⟨id, fun _ => .refl _⟩ 8 e = some (var 0) ∧
      ∃ e', (∃ N, ∀ n ≥ N, canonicalize ⟨id, fun _ => .refl _⟩ n e = some e') ∧
        e'.Defined (fun _ => -4) ∧ e'.eval (fun _ => -4) = e.eval fun _ => -4 :=
  ⟨by decide +kernel, canonicalize_preserves_eval _ _ _ (by simp [Defined, eval, BinaryOp.isDivision])⟩

end Symbolic

-- The result of the canonicalization does not depend on the fuel.
namespace Symbolic

open SymbolicExpr Fallible Fuel

variable {rec rec' : SymbolicExpr → Option SymbolicExpr}

section Add

theorem combineFloorDivAndMod_refines (h : ∀ e, Refines (rec e) (rec' e)) (bs : List SymbolicExpr)
    (s : Combined) : Refines (combineFloorDivAndMod rec bs s) (combineFloorDivAndMod rec' bs s) := by
  induction bs generalizing s
  case nil => exact .refl
  case cons hi =>
    simp only [combineFloorDivAndMod]
    split
    case h_2 => exact hi _
    case h_1 =>
      split
      case isFalse => exact hi _
      case isTrue  =>
        refine .bind (h _) fun _ => ?_
        split
        case isTrue  => exact .bind (h _) fun _ => hi _
        case isFalse => exact hi _

theorem scaleTerms_refines (h : ∀ e, Refines (rec e) (rec' e)) (ts : Terms) :
    Refines (scaleTerms rec ts) (scaleTerms rec' ts) := by
  induction ts
  case nil => exact .refl
  case cons t ts hi =>
    simp only [scaleTerms]
    split
    case isTrue  => exact .bind (h _) fun _ => .bind hi fun _ => .refl
    case isFalse => exact hi

theorem canonicalizeAdd_refines (o : IterationOrder) (h : ∀ e, Refines (rec e) (rec' e))
    (l r : SymbolicExpr) : Refines (canonicalizeAdd o rec l r) (canonicalizeAdd o rec' l r) := by
  refine .bind (.bind (combineFloorDivAndMod_refines h _ _) fun _ =>
    .bind (scaleTerms_refines h _) fun _ => .refl) fun p => ?_
  obtain ⟨exprs, changed⟩ := p
  cases changed
  case false => exact .refl
  case true  => exact h _

end Add

section Operators

theorem canonicalizeMul_refines (h : ∀ e, Refines (rec e) (rec' e)) (l r : SymbolicExpr) :
    Refines (canonicalizeMul rec l r) (canonicalizeMul rec' l r) := by
  simp only [canonicalizeMul]
  repeat' split
  all_goals first | exact .refl | exact h _

theorem subtractAndGetConstDiff_refines (h : ∀ e, Refines (rec e) (rec' e)) (l r : SymbolicExpr) :
    Refines (subtractAndGetConstDiff rec l r) (subtractAndGetConstDiff rec' l r) :=
  .bind (h _) fun _ => .bind (h _) fun _ => .refl

theorem trySimplifyDivModByGcd_refines (h : ∀ e, Refines (rec e) (rec' e)) (op : BinaryOp)
    (l : SymbolicExpr) (d : Int) :
    Refines (trySimplifyDivModByGcd rec op l d) (trySimplifyDivModByGcd rec' op l d) := by
  simp only [trySimplifyDivModByGcd]
  repeat' split
  all_goals first | exact .refl | exact .map (h _)

theorem simplifyModAddOperand_refines (h : ∀ e, Refines (rec e) (rec' e)) (a b : SymbolicExpr)
    (d : Int) : Refines (simplifyModAddOperand rec a b d) (simplifyModAddOperand rec' a b d) := by
  simp only [simplifyModAddOperand]
  repeat' split
  all_goals first | exact .refl | exact .map (h _)

theorem simplifyFloorDivAddOperand_refines (h : ∀ e, Refines (rec e) (rec' e)) (a b : SymbolicExpr)
    (d : Int) :
    Refines (simplifyFloorDivAddOperand rec a b d) (simplifyFloorDivAddOperand rec' a b d) := by
  simp only [simplifyFloorDivAddOperand, simplifyFloorDivAddOperand.simplify]
  repeat' split
  all_goals first | exact .refl | exact .map (h _)

theorem canonicalizeFloorDiv_refines (h : ∀ e, Refines (rec e) (rec' e)) (l r : SymbolicExpr) :
    Refines (canonicalizeFloorDiv rec l r) (canonicalizeFloorDiv rec' l r) := by
  have ha := simplifyFloorDivAddOperand_refines h
  simp only [canonicalizeFloorDiv]
  repeat' split
  all_goals first | exact .refl | exact h _ | skip
  all_goals refine .bind_option (trySimplifyDivModByGcd_refines h _ _ _) (fun _ => .refl) ?_
  case h_1 => exact .bind_option (ha _ _ _) (fun _ => .refl) <| .bind_option (ha _ _ _) (fun _ => .refl) .refl
  case h_2 => exact .refl

theorem canonicalizeCeilDiv_refines (h : ∀ e, Refines (rec e) (rec' e)) (l r : SymbolicExpr) :
    Refines (canonicalizeCeilDiv rec l r) (canonicalizeCeilDiv rec' l r) := by
  simp only [canonicalizeCeilDiv]
  repeat' split
  all_goals first | exact .refl | exact h _ | skip
  all_goals
    refine .bind_option (trySimplifyDivModByGcd_refines h _ _ _) (fun _ => .refl) ?_
    exact .bind (h _) fun _ => h _

theorem canonicalizeMod_refines (h : ∀ e, Refines (rec e) (rec' e)) (l r : SymbolicExpr) :
    Refines (canonicalizeMod rec l r) (canonicalizeMod rec' l r) := by
  have ha := simplifyModAddOperand_refines h
  simp only [canonicalizeMod]
  repeat' split
  all_goals first | exact .refl | skip
  all_goals refine .bind_option (trySimplifyDivModByGcd_refines h _ _ _) (fun _ => .refl) ?_
  all_goals first | exact .refl | exact h _ | exact .bind_option (ha _ _ _) (fun _ => .refl) .refl

theorem canonicalizeByType_refines (o : IterationOrder) (h : ∀ e, Refines (rec e) (rec' e))
    (op : BinaryOp) (l r : SymbolicExpr) :
    Refines (canonicalizeByType o rec op l r) (canonicalizeByType o rec' op l r) := by
  cases op
  case add      => exact canonicalizeAdd_refines o h l r
  case mul      => exact canonicalizeMul_refines h l r
  case min      => exact .bind (subtractAndGetConstDiff_refines h l r) fun _ => .refl
  case max      => exact .bind (subtractAndGetConstDiff_refines h l r) fun _ => .refl
  case floorDiv => exact canonicalizeFloorDiv_refines h l r
  case ceilDiv  => exact canonicalizeCeilDiv_refines h l r
  case mod      => exact canonicalizeMod_refines h l r

theorem canonicalizeOp_refines (o : IterationOrder) (h : ∀ e, Refines (rec e) (rec' e))
    (op : BinaryOp) (l r : SymbolicExpr) :
    Refines (canonicalizeOp o rec op l r) (canonicalizeOp o rec' op l r) := by
  simp only [canonicalizeOp]
  repeat' split
  all_goals first | exact .refl | exact canonicalizeByType_refines o h _ _ _

end Operators

theorem canonicalize_refines (o : IterationOrder) (h : n ≤ m) (e : SymbolicExpr) :
    Refines (canonicalize o n e) (canonicalize o m e) := by
  induction n generalizing m e
  case zero => exact .none
  case succ n hi =>
    obtain ⟨m, rfl⟩ := Nat.exists_eq_succ_of_ne_zero (Nat.ne_zero_of_lt h)
    replace hi e := hi (Nat.le_of_succ_le_succ h) e
    cases e
    case var   => exact .refl
    case const => exact .refl
    case binary op l r =>
      exact .bind (hi l) fun _ => .bind (hi r) fun _ => canonicalizeOp_refines o hi _ _ _

theorem canonicalize_ensures (o : IterationOrder) (n : Nat) (hd : e.Wf pos ρ) :
    Ensures (canonicalize o n e) (Canon pos ρ e) := by
  intro e' he
  have ⟨e₁, hr, hc⟩ := canonicalize_canon o e hd
  have ⟨N, hN⟩ := Returns.iff_exists.mp hr
  have h := canonicalize_refines o (le_max_left n N) e _ he
  rw [hN _ (le_max_right n N)] at h
  exact Option.some.inj h ▸ hc

end Symbolic
