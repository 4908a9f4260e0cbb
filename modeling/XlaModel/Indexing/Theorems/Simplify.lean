import XlaModel.Indexing.Theorems.Simplifier
import XlaModel.Symbolic.Theorems.Canonicalize

namespace Indexing

open Symbolic SymbolicExpr Fallible

variable {ρ : Nat → Int} {range : SymbolicExpr → Option Interval} {e : SymbolicExpr}
  {once simp' : SymbolicExpr → Option SymbolicExpr} {m ts : Terms}

section Terms

def TermsWf (ρ : Nat → Int) (ts : Terms) : Prop :=
  ∀ b ∈ ts.bases, b.Wf True ρ

theorem TermsWf.nil : TermsWf ρ [] := by
  simp [TermsWf]

theorem TermsWf.concat (h : TermsWf ρ ts) (hb : b.Wf True ρ) : TermsWf ρ (ts ++ [(b, c)]) := by
  simpa [TermsWf, or_imp, forall_and, hb] using h

theorem termsWf_cons : TermsWf ρ (t :: ts) ↔ t.1.Wf True ρ ∧ TermsWf ρ ts := by
  simp [TermsWf]

-- The maps that are modified by `addTo`.
structure TermMap (ρ : Nat → Int) (m : Terms) : Prop where
  wf    : TermsWf ρ m
  nodup : m.bases.Nodup

theorem TermMap.addTo (h : TermMap ρ m) (hb : b.Wf True ρ) (c : Int) : TermMap ρ (m.addTo b c) := by
  have hbs := Terms.bases_addTo m b c
  split at hbs
  case isTrue     => exact ⟨by simpa [TermsWf, hbs] using h.wf, hbs ▸ h.nodup⟩
  case isFalse hn =>
    refine ⟨?_, ?_⟩
    · simpa [TermsWf, hbs, or_imp, forall_and, hb] using h.wf
    · rw [hbs, List.nodup_append]
      exact ⟨h.nodup, List.nodup_singleton b, by simpa using fun a ha => ne_of_mem_of_not_mem ha hn⟩

theorem TermMap.eval_addTo (h : TermMap ρ m) :
    (m.addTo b c).eval ρ = m.eval ρ + b.eval ρ * c :=
  Terms.eval_addTo h.nodup

end Terms

-- The terms have the value `v` in total.
structure SumTerms.Represents (ρ : Nat → Int) (v : Int) (ts : SumTerms) : Prop where
  mods     : TermsWf ρ ts.mods
  divs     : TermsWf ρ ts.divs
  summands : TermMap ρ ts.summands
  eval     : ts.mods.eval ρ + ts.divs.eval ρ + ts.summands.eval ρ = v

namespace SumTerms.Represents

variable {ts : SumTerms}

theorem concat_mod (h : ts.Represents ρ v) (hb : b.Wf True ρ) (c : Int) :
    Represents ρ (v + b.eval ρ * c) { ts with mods := ts.mods ++ [(b, c)] } where
  mods     := h.mods.concat hb
  divs     := h.divs
  summands := h.summands
  eval     := by simp [← h.eval]; ring

theorem concat_div (h : ts.Represents ρ v) (hb : b.Wf True ρ) (c : Int) :
    Represents ρ (v + b.eval ρ * c) { ts with divs := ts.divs ++ [(b, c)] } where
  mods     := h.mods
  divs     := h.divs.concat hb
  summands := h.summands
  eval     := by simp [← h.eval]; ring

theorem addTo (h : ts.Represents ρ v) (hb : b.Wf True ρ) (c : Int) :
    Represents ρ (v + b.eval ρ * c) { ts with summands := ts.summands.addTo b c } where
  mods     := h.mods
  divs     := h.divs
  summands := h.summands.addTo hb c
  eval     := by simp [← h.eval, h.summands.eval_addTo]; ring

end SumTerms.Represents

theorem collectTerms_ensures (hr : RangeSound (Wf True ρ) ρ range) (ho : Preserves ρ once) (hw : e.Wf True ρ) :
    Ensures (collectTerms range once e) (SumTerms.Represents ρ (e.eval ρ)) := by
  let Inv (xs : List SymbolicExpr) (ts : SumTerms) : Prop := ts.Represents ρ (value ρ xs)
  refine (visitSummands_ensures Inv ?_ fun xs ts x hx hi => ?_).imp fun ts h => by simpa [Inv] using h
  · exact ⟨.nil, .nil, ⟨.nil, by simp⟩, rfl⟩
  · refine .bind (ho x <| wf_of_mem_summands hw hx) fun y hy => ?_
    refine .bind (extractMultiplier_ensures hr hy.wf) fun p hp => ?_
    obtain ⟨b, c⟩ := p
    have hv : value ρ (xs ++ [x]) = value ρ xs + b.eval ρ * c := by
      simp [← hp.2, hy.eval]
    simp only [Inv, hv]
    split
    case h_1 => exact .pure <| hi.concat_mod hp.1 c
    case h_2 => exact .pure <| hi.concat_div hp.1 c
    case h_3 => exact .pure <| hi.addTo hp.1 c

section Combine

theorem eraseDiv_ensures (d : SymbolicExpr) (hw : TermsWf ρ ts) :
    Ensures (eraseDiv d modMul modC ts) (fun ts? => ∀ ts', ts? = some ts' →
      TermsWf ρ ts' ∧ ts.eval ρ = Terms.eval ρ ts' + d.eval ρ * (modMul * modC)) := by
  induction ts
  case nil => exact .pure (by simp)
  case cons t ts hi =>
    obtain ⟨div, divMul⟩ := t
    rw [termsWf_cons] at hw
    have hkeep : Ensures (do return (← eraseDiv d modMul modC ts).map ((div, divMul) :: ·))
        (fun ts? => ∀ ts', ts? = some ts' → TermsWf ρ ts' ∧
          Terms.eval ρ ((div, divMul) :: ts) = Terms.eval ρ ts' + d.eval ρ * (modMul * modC)) := by
      refine .bind (hi hw.2) fun ts? h => .pure fun ts' he => ?_
      obtain ⟨ts₁, rfl, rfl⟩ := Option.map_eq_some_iff.mp he
      have ⟨hw₁, hv⟩ := h ts₁ rfl
      exact ⟨termsWf_cons.mpr ⟨hw.1, hw₁⟩, by simp [hv, add_assoc]⟩
    simp only [eraseDiv]
    split
    case isTrue => exact hkeep
    case isFalse he =>
      refine .bind remainder_ensures fun rem hrem => .bind quotient_ensures fun q hq => ?_
      split
      case isTrue => exact hkeep
      case isFalse hc =>
        rw [not_or, not_not, not_not] at hc
        rw [not_not] at he
        have hmul := Int.mul_tdiv_cancel' (hrem hc.1)
        refine .pure fun ts' he' => ?_
        cases he'
        refine ⟨hw.2, ?_⟩
        simp [← he, ← hc.2, hq.2, hmul, add_comm]

theorem modulo_add_fdiv_mul (hc : 0 < c) (a : Int) : modulo a c + a.fdiv c * c = a := by
  rw [modulo_eq_emod hc.ne', Int.fdiv_eq_ediv_of_nonneg _ hc.le, mul_comm, Int.emod_add_mul_ediv]

theorem combineMods_ensures {terms : SumTerms} (hr : RangeSound (Wf True ρ) ρ range) (hs : Preserves ρ simp')
    (hw : TermsWf ρ ts) (h : terms.Represents ρ v) :
    Ensures (combineMods range simp' ts terms) (SumTerms.Represents ρ (v + ts.eval ρ)) := by
  induction ts generalizing terms v
  case nil => exact .pure <| by simpa using h
  case cons t ts hi =>
    obtain ⟨mod, modMul⟩ := t
    rw [termsWf_cons] at hw
    have hkeep := hi hw.2 <| h.concat_mod hw.1 modMul
    rw [add_assoc] at hkeep
    rw [Terms.eval_cons]
    refine .bind_option (getConstantRhs_ensures hr closed_wf hw.1 .mod) (fun c hc => ?_) hkeep
    have hc := hc c rfl
    have hc₀ := hc.pos hw.1 <| .inl rfl
    refine .bind (hs _ <| wf_floorDiv hc.wf <| .of_pos hc₀) fun div hdiv => ?_
    refine .bind_option (eraseDiv_ensures div h.divs) (fun divs hd => ?_) hkeep
    have ⟨hwd, hd⟩ := hd divs rfl
    have hx := modulo_add_fdiv_mul hc₀ ((getLhs mod).eval ρ)
    have h' : SumTerms.Represents ρ (v - div.eval ρ * (modMul * c)) { terms with divs := divs } :=
      { h with divs := hwd, eval := by simp [← h.eval, hd]; ring }
    have hv : v - div.eval ρ * (modMul * c) + (getLhs mod).eval ρ * modMul + Terms.eval ρ ts =
        v + (mod.eval ρ * modMul + Terms.eval ρ ts) := by
      simp only [hdiv.eval, eval_floorDiv, eval_const, hc.eval, BinaryOp.eval]
      linear_combination -modMul * hx
    exact hv ▸ hi hw.2 (h'.addTo hc.wf modMul)

theorem visitSummands_addTo {x : SymbolicExpr} (hm : TermMap ρ m) (hw : x.Wf True ρ) (c : Int) :
    Ensures (visitSummands (fun m x => some (Terms.addTo m x c)) m x)
      (fun m' => TermMap ρ m' ∧ Terms.eval ρ m' = m.eval ρ + x.eval ρ * c) := by
  refine (visitSummands_ensures (fun xs m' => TermMap ρ m' ∧ Terms.eval ρ m' = m.eval ρ + value ρ xs * c)
    ⟨hm, by simp⟩ fun xs m' y hy hi => .pure ?_).imp fun m' h => by simpa using h
  refine ⟨hi.1.addTo (wf_of_mem_summands hw hy) c, ?_⟩
  simp [hi.1.eval_addTo, hi.2, add_mul, add_assoc]

theorem expandDivs_ensures {terms : SumTerms} (hr : RangeSound (Wf True ρ) ρ range) (hw : TermsWf ρ ts)
    (h : terms.Represents ρ v) :
    Ensures (expandDivs range ts terms) (SumTerms.Represents ρ (v + ts.eval ρ)) := by
  induction ts generalizing terms v
  case nil => exact .pure <| by simpa using h
  case cons t ts hi =>
    obtain ⟨div, divMul⟩ := t
    rw [termsWf_cons] at hw
    have hkeep := hi hw.2 <| h.concat_div hw.1 divMul
    rw [add_assoc] at hkeep
    rw [Terms.eval_cons]
    simp only [expandDivs]
    split
    case isTrue => exact hkeep
    case isFalse =>
      refine .bind_option (getConstantRhs_ensures hr closed_wf hw.1 .floorDiv) (fun c hc => ?_) hkeep
      have hc := hc c rfl
      have hc₀ := hc.pos hw.1 <| .inr rfl
      dsimp only
      split
      case isTrue => exact hkeep
      case isFalse =>
        refine .bind remainder_ensures fun rem hrem => ?_
        split
        case isTrue => exact hkeep
        case isFalse h₀ =>
          have hb := Int.tdiv_mul_cancel (hrem <| not_not.mp h₀)
          have hx := modulo_add_fdiv_mul hc₀ ((getLhs div).eval ρ)
          refine .bind (visitSummands_addTo h.summands hc.wf _) fun m hm => ?_
          have h' : SumTerms.Represents ρ (v + (getLhs div).eval ρ * divMul.tdiv c)
              { terms with summands := m } :=
            { h with summands := hm.1, eval := by simp [← h.eval, hm.2]; ring }
          have hv : v + (getLhs div).eval ρ * divMul.tdiv c +
              ((getLhs div).mod (const c)).eval ρ * -divMul.tdiv c + Terms.eval ρ ts =
              v + (div.eval ρ * divMul + Terms.eval ρ ts) := by
            simp only [eval_mod, eval_const, hc.eval, BinaryOp.eval]
            linear_combination -divMul.tdiv c * hx + ((getLhs div).eval ρ).fdiv c * hb
          exact hv ▸ hi hw.2 (h'.concat_mod (wf_mod hc.wf <| .of_pos hc₀) _)

theorem rewriteDivs_ensures {terms : SumTerms} (hr : RangeSound (Wf True ρ) ρ range) (hs : Preserves ρ simp')
    (h : terms.Represents ρ v) :
    Ensures (rewriteDivs range simp' terms) (SumTerms.Represents ρ v) := by
  simp only [rewriteDivs]
  split
  case isTrue => exact .pure h
  case isFalse =>
    have h₁ : SumTerms.Represents ρ (v - terms.mods.eval ρ) { terms with mods := [] } :=
      { h with mods := .nil, eval := by simp [← h.eval]; ring }
    refine .bind (combineMods_ensures hr hs h.mods h₁) fun terms₁ h₂ => ?_
    rw [sub_add_cancel] at h₂
    have h₃ : SumTerms.Represents ρ (v - terms₁.divs.eval ρ) { terms₁ with divs := [] } :=
      { h₂ with divs := .nil, eval := by simp [← h₂.eval]; ring }
    simpa using expandDivs_ensures hr h₂.divs h₃

end Combine

section SumTerms

theorem foldl_addTo (hm : TermMap ρ m) (hw : TermsWf ρ ts) :
    TermMap ρ (ts.foldl (fun m t => Terms.addTo m t.1 t.2) m) ∧
      Terms.eval ρ (ts.foldl (fun m t => Terms.addTo m t.1 t.2) m) = m.eval ρ + ts.eval ρ := by
  induction ts generalizing m
  case nil => exact ⟨hm, by simp⟩
  case cons t ts hi =>
    rw [termsWf_cons] at hw
    have ⟨hm', hv⟩ := hi (hm.addTo hw.1 t.2) hw.2
    exact ⟨hm', by simp only [List.foldl_cons, hv, hm.eval_addTo, Terms.eval_cons]; ring⟩

theorem foldl_add {xs : List SymbolicExpr} (hx : x.Wf True ρ) (hw : ∀ y ∈ xs, y.Wf True ρ) :
    (xs.foldl add x).Wf True ρ ∧ (xs.foldl add x).eval ρ = x.eval ρ + value ρ xs := by
  induction xs generalizing x
  case nil => exact ⟨hx, by simp⟩
  case cons y xs hi =>
    have ⟨hw', hv⟩ := hi (wf_add hx <| hw y List.mem_cons_self) fun z hz => hw z (.tail _ hz)
    exact ⟨hw', by simp [hv, value, add_assoc]⟩

theorem value_perm {xs ys : List SymbolicExpr} (h : xs.Perm ys) : value ρ xs = value ρ ys :=
  (h.map _).sum_eq

theorem sumTerms_spec {terms : SumTerms} (h : terms.Represents ρ v) :
    (sumTerms terms).Wf True ρ ∧ (sumTerms terms).eval ρ = v := by
  have ⟨h₁, hv₁⟩ := foldl_addTo h.summands h.mods
  have ⟨h₂, hv₂⟩ := foldl_addTo h₁ h.divs
  simp only [sumTerms]
  generalize terms.divs.foldl _ _ = m at h₂ hv₂ ⊢
  have hp := List.perm_insertionSort (fun a b => ¬b.lt a) (m.map fun t => t.1.mul (const t.2))
  have hs := foldl_add (x := const 0) trivial fun y hy => by
    obtain ⟨t, ht, rfl⟩ := List.mem_map.mp (hp.mem_iff.mp hy)
    exact wf_mul (h₂.wf _ <| List.mem_map_of_mem ht) trivial
  have hm : value ρ (m.map fun t => t.1.mul (const t.2)) = m.eval ρ := by
    simp [value, Terms.eval, Function.comp_def]
  refine ⟨hs.1, ?_⟩
  rw [hs.2, value_perm hp, hm, hv₂, hv₁, ← h.eval, eval_const]
  ring

end SumTerms

theorem rewriteSum_ensures (hr : RangeSound (Wf True ρ) ρ range) (ho : Preserves ρ once) (hs : Preserves ρ simp')
    (hw : e.Wf True ρ) : Ensures (rewriteSum range once simp' e) (Simplifies ρ e) := by
  refine .bind (collectTerms_ensures hr ho hw) fun terms ht => ?_
  refine .bind (rewriteDivs_ensures hr hs ht) fun terms ht => .pure ?_
  exact ⟨(sumTerms_spec ht).1, (sumTerms_spec ht).2⟩

end Indexing

-- The simplifier is monotone in the range evaluator.
namespace Indexing

open Symbolic SymbolicExpr Fallible

section Summands

variable {σ : Type}

theorem mapSummands_refines {f f' : σ → SymbolicExpr → Option (σ × SymbolicExpr)}
    (h : ∀ s e, Refines (f s e) (f' s e)) (s : σ) (e : SymbolicExpr) :
    Refines (mapSummands f s e) (mapSummands f' s e) := by
  fun_induction mapSummands f s e
  case case1 hl hr => exact .bind hl fun p => .bind (hr p.1) fun _ => .refl
  case case2 hn    => simpa only [mapSummands] using h _ _

theorem visitSummands_refines {f f' : σ → SymbolicExpr → Option σ}
    (h : ∀ s e, Refines (f s e) (f' s e)) (s : σ) (e : SymbolicExpr) :
    Refines (visitSummands f s e) (visitSummands f' s e) := by
  fun_induction visitSummands f s e
  case case1 hl hr => exact .bind hl fun s => hr s
  case case2 hn    => simpa only [visitSummands] using h _ _

end Summands

variable {range range' : SymbolicExpr → Option Interval} {once once' simp' simp'' : SymbolicExpr → Option SymbolicExpr}

theorem getConstantRhs_refines (h : ∀ e, Refines (range e) (range' e)) (e : SymbolicExpr)
    (op : BinaryOp) : Refines (getConstantRhs range e op) (getConstantRhs range' e op) := by
  simp only [getConstantRhs]
  repeat' split
  all_goals first | exact .refl | exact .bind (h _) fun _ => .refl

theorem extractMultiplier_refines (h : ∀ e, Refines (range e) (range' e)) (e : SymbolicExpr) :
    Refines (extractMultiplier range e) (extractMultiplier range' e) :=
  .bind (getConstantRhs_refines h e .mul) fun _ => .refl

theorem splitSumByGcd_refines (h : ∀ e, Refines (range e) (range' e)) (e : SymbolicExpr) :
    Refines (splitSumByGcd range e) (splitSumByGcd range' e) := by
  have hc e := getConstantRhs_refines h e .mul
  refine .bind (visitSummands_refines (fun _ _ => .bind (hc _) fun _ => .refl) _ _) fun _ => ?_
  dsimp only
  split
  case isTrue  => exact .refl
  case isFalse =>
    exact .bind (mapSummands_refines (fun _ _ => .bind (hc _) fun _ => .refl) _ _) fun _ => .refl

section Mod

theorem removeMultiples_refines (h : ∀ e, Refines (range e) (range' e)) (e : SymbolicExpr) (m : Int) :
    Refines (removeMultiples range e m) (removeMultiples range' e m) := by
  refine .bind (mapSummands_refines (fun _ _ => ?_) _ _) fun _ => .refl
  split
  case h_1 => exact .refl
  case h_2 => exact .bind (getConstantRhs_refines h _ _) fun _ => .refl

theorem extractModFactor_refines (h : ∀ e, Refines (range e) (range' e)) (e r : SymbolicExpr)
    (m : Int) : Refines (extractModFactor range e r m) (extractModFactor range' e r m) := by
  refine .bind (splitSumByGcd_refines h e) fun p => ?_
  obtain ⟨multiplied, g, notMultiplied⟩ := p
  dsimp only
  split
  case isFalse => exact .refl
  case isTrue  =>
    refine .bind .refl fun rem => ?_
    split
    case isFalse => exact .refl
    case isTrue  => exact .bind (h _) fun _ => .refl

theorem rewriteMod_refines (h : ∀ e, Refines (range e) (range' e))
    (ho : ∀ e, Refines (once e) (once' e)) (l r : SymbolicExpr) :
    Refines (rewriteMod range once l r) (rewriteMod range' once' l r) := by
  have hsum (x m) : Refines (rewriteMod.rewriteModSum range l r x m)
      (rewriteMod.rewriteModSum range' l r x m) :=
    .bind (removeMultiples_refines h x m) fun y => .bind (extractModFactor_refines h y r m) fun _ => .refl
  refine .bind (h r) fun rhs => ?_
  repeat' split
  case isTrue => exact .refl
  case isFalse.isTrue => exact .refl
  case isFalse.isFalse =>
    refine .bind (ho l) fun x => .bind (h x) fun lhs => ?_
    dsimp only
    split
    case isTrue  => exact .refl
    case isFalse =>
      refine .bind_option (getConstantRhs_refines h x .mul) (fun c => ?_) (hsum x _)
      dsimp only
      split
      case isTrue  => exact .refl
      case isFalse => exact hsum x _

end Mod

section FloorDiv

theorem simplifySumDiv_refines (h : ∀ e, Refines (range e) (range' e)) (e : SymbolicExpr) (d : Int) :
    Refines (simplifySumDiv range e d) (simplifySumDiv range' e d) := by
  have hm e := getConstantRhs_refines h e .mul
  have hd e := getConstantRhs_refines h e .floorDiv
  refine .bind (mapSummands_refines (fun _ _ => .bind (hm _) fun _ => .refl) _ _) fun p => ?_
  refine .bind (.bind (splitSumByGcd_refines h _) fun _ => .bind (h _) fun _ => .refl) fun q => ?_
  refine .bind (.bind (visitSummands_refines (fun _ _ => .bind (hd _) fun _ => .refl) _ _) fun ds => ?_)
    fun _ => .refl
  split
  case h_1 => exact .bind (mapSummands_refines (fun _ _ => .bind (hd _) fun _ => .refl) _ _) fun _ => .refl
  case h_2 => exact .refl

theorem rewriteFloorDiv_refines (h : ∀ e, Refines (range e) (range' e))
    (ho : ∀ e, Refines (once e) (once' e)) (l r : SymbolicExpr) :
    Refines (rewriteFloorDiv range once l r) (rewriteFloorDiv range' once' l r) := by
  refine .bind (h r) fun rhs => .bind (ho l) fun x => ?_
  split
  case isTrue  => exact .bind (ho r) fun _ => .refl
  case isFalse =>
    dsimp only
    split
    case isFalse => exact .refl
    case isTrue  =>
      refine .bind_option (.bind (getConstantRhs_refines h _ _) fun _ => .refl) (fun _ => .refl) ?_
      refine .bind_option (.bind (getConstantRhs_refines h _ _) fun _ => .refl) (fun _ => .refl) ?_
      exact .bind_option (simplifySumDiv_refines h _ _) (fun _ => .refl) .refl

end FloorDiv

theorem rewriteMul_refines (h : ∀ e, Refines (range e) (range' e))
    (ho : ∀ e, Refines (once e) (once' e)) (l r : SymbolicExpr) :
    Refines (rewriteMul range once l r) (rewriteMul range' once' l r) := by
  refine .bind (h r) fun rhs => ?_
  split
  case isTrue  => exact .refl
  case isFalse => exact .bind (ho l) fun _ => .refl

section Sum

theorem combineMods_refines (h : ∀ e, Refines (range e) (range' e))
    (hs : ∀ e, Refines (simp' e) (simp'' e)) (ts : Terms) (terms : SumTerms) :
    Refines (combineMods range simp' ts terms) (combineMods range' simp'' ts terms) := by
  induction ts generalizing terms
  case nil => exact .refl
  case cons t ts hi =>
    refine .bind_option (getConstantRhs_refines h _ _) (fun c => ?_) (hi _)
    exact .bind (hs _) fun _ => .bind_option .refl (fun _ => hi _) (hi _)

theorem expandDivs_refines (h : ∀ e, Refines (range e) (range' e)) (ts : Terms) (terms : SumTerms) :
    Refines (expandDivs range ts terms) (expandDivs range' ts terms) := by
  induction ts generalizing terms
  case nil => exact .refl
  case cons t ts hi =>
    simp only [expandDivs]
    split
    case isTrue  => exact hi _
    case isFalse =>
      refine .bind_option (getConstantRhs_refines h _ _) (fun c => ?_) (hi _)
      dsimp only
      split
      case isTrue  => exact hi _
      case isFalse =>
        refine .bind .refl fun rem => ?_
        split
        case isTrue  => exact hi _
        case isFalse => exact .bind .refl fun _ => hi _

theorem rewriteSum_refines (h : ∀ e, Refines (range e) (range' e))
    (ho : ∀ e, Refines (once e) (once' e)) (hs : ∀ e, Refines (simp' e) (simp'' e))
    (e : SymbolicExpr) :
    Refines (rewriteSum range once simp' e) (rewriteSum range' once' simp'' e) := by
  refine .bind (visitSummands_refines (fun _ x => ?_) _ _) fun terms => .bind ?_ fun _ => .refl
  · exact .bind (ho x) fun y => .bind (extractMultiplier_refines h y) fun _ => .refl
  · simp only [rewriteDivs]
    split
    case isTrue  => exact .refl
    case isFalse => exact .bind (combineMods_refines h hs _ _) fun _ => expandDivs_refines h _ _

end Sum

theorem simplifyOnceWith_refines (h : ∀ e, Refines (range e) (range' e))
    (ho : ∀ e, Refines (once e) (once' e)) (hs : ∀ e, Refines (simp' e) (simp'' e))
    (mode : SimplifyPointDimensions) (e : SymbolicExpr) :
    Refines (simplifyOnceWith range once simp' mode e) (simplifyOnceWith range' once' simp'' mode e) := by
  have hr e : Refines (rewrite range once simp' e) (rewrite range' once' simp'' e) := by
    simp only [rewrite]
    split
    case h_1 => exact rewriteMul_refines h ho _ _
    case h_2 => exact rewriteSum_refines h ho hs _
    case h_3 => exact rewriteMod_refines h ho _ _
    case h_4 => exact rewriteFloorDiv_refines h ho _ _
    case h_5 => exact .refl
  simp only [simplifyOnceWith]
  split
  case h_1 => exact .refl
  case h_2 =>
    split
    case isFalse => exact hr _
    case isTrue  =>
      refine .bind (h _) fun bounds => ?_
      split
      case isTrue  => exact .refl
      case isFalse => exact hr _

theorem simplify_refines (h : ∀ e, Refines (range e) (range' e)) (o : IterationOrder)
    (mode : SimplifyPointDimensions) (n : Nat) :
    (∀ e, Refines (simplifyOnce o range mode n e) (simplifyOnce o range' mode n e)) ∧
    (∀ e, Refines (simplify o range mode n e) (simplify o range' mode n e)) := by
  induction n
  case zero => exact ⟨fun _ => .refl, fun _ => .refl⟩
  case succ n hi =>
    refine ⟨fun e => ?_, fun e => ?_⟩
    · exact simplifyOnceWith_refines h hi.1 hi.2 mode e
    · refine .bind .refl fun c => .bind (hi.1 c) fun s => ?_
      split
      case isTrue  => exact .refl
      case isFalse => exact hi.2 s

end Indexing

namespace Indexing

open Symbolic SymbolicExpr Fallible

variable {ρ : Nat → Int} {range : SymbolicExpr → Option Interval} {e : SymbolicExpr}
  {once simp' : SymbolicExpr → Option SymbolicExpr}

theorem rewrite_ensures (hr : RangeSound (Wf True ρ) ρ range) (ho : Preserves ρ once)
    (hc : ∀ c, Ensures (once (const c)) (· = const c)) (hs : Preserves ρ simp') :
    Preserves ρ (rewrite range once simp') := by
  intro e hw
  fun_cases rewrite (fun _ => none) (fun _ => none) (fun _ => none) e
  case case1 => exact rewriteMul_ensures hr ho hw
  case case2 => exact rewriteSum_ensures hr ho hs hw
  case case3 => exact rewriteMod_ensures hr ho hw
  case case4 => exact rewriteFloorDiv_ensures hr ho hc hw
  case case5 =>
    simp only [rewrite]
    exact .pure <| .refl hw

theorem simplifyOnceWith_ensures (hr : RangeSound (Wf True ρ) ρ range) (ho : Preserves ρ once)
    (hc : ∀ c, Ensures (once (const c)) (· = const c)) (hs : Preserves ρ simp')
    (mode : SimplifyPointDimensions) : Preserves ρ (simplifyOnceWith range once simp' mode) := by
  intro e hw
  have hrw := rewrite_ensures hr ho hc hs e hw
  simp only [simplifyOnceWith]
  split
  case h_1 => exact .pure <| .refl hw
  case h_2 =>
    split
    case isFalse => exact hrw
    case isTrue  =>
      refine .bind (hr.mem hw) fun bounds hb => ?_
      split
      case isTrue hp => exact .pure ⟨trivial, (Interval.eq_of_isPoint hp hb).symm⟩
      case isFalse   => exact hrw

theorem simplifyOnce_const (o : IterationOrder) (mode : SimplifyPointDimensions) (n : Nat) (c : Int) :
    Ensures (simplifyOnce o range mode n (const c)) (· = const c) := by
  cases n
  case zero => exact .none
  case succ => exact .pure rfl

-- By induction on the fuel, as the functions call each other with smaller fuel.
theorem simplify_ensures (hr : RangeSound (Wf True ρ) ρ range) (o : IterationOrder)
    (mode : SimplifyPointDimensions) (n : Nat) :
    Preserves ρ (simplifyOnce o range mode n) ∧ Preserves ρ (simplify o range mode n) := by
  induction n
  case zero => exact ⟨fun _ _ => .none, fun _ _ => .none⟩
  case succ n hi =>
    refine ⟨fun e hw => ?_, fun e hw => ?_⟩
    · exact simplifyOnceWith_ensures hr hi.1 (simplifyOnce_const o mode n) hi.2 mode e hw
    · refine .bind (canonicalize_ensures o n hw) fun c hc => .bind (hi.1 c hc.wf) fun s hs => ?_
      split
      case isTrue  => exact .pure ⟨hc.wf, hc.eval⟩
      case isFalse => exact (hi.2 s hs.wf).imp fun e' he => ⟨he.wf, by rw [he.eval, hs.eval, hc.eval]⟩

theorem simplify_preserves_eval (o : IterationOrder) (m : IndexingMap) (useConstraints : Bool)
    (mode : SimplifyPointDimensions) (n : Nat) (e e' : SymbolicExpr) (ρ : Nat → Int)
    (hp : e.PositiveDivisors) (hd : e.Defined ρ) (hb : m.InBounds ρ)
    (hc : useConstraints → m.ConstraintsSatisfied ρ)
    (h : simplify o (m.computeExpressionRange useConstraints) mode n e = some e')
    (hf : simplify o (m.checkedRange useConstraints) mode n e ≠ none) :
    e'.eval ρ = e.eval ρ := by
  have hr : RangeSound (Wf True ρ) ρ (m.checkedRange useConstraints) :=
    fun e i hw hi => IndexingMap.mem_checkedRange hb hc (IndexingMap.modPositive_of_wf hw) hi
  -- The checked simplifier has the same result.
  have heq := (simplify_refines (m.checkedRange_refines useConstraints) o mode n).2 e |>.eq hf
  have hw : e.Wf True ρ := wf_iff.mpr ⟨hd, fun _ => hp⟩
  exact ((simplify_ensures hr o mode n).2 e hw e' (heq ▸ h)).eval

-- The division and the remainder are simplified by the bounds of the variables.
theorem simplify_preserves_eval_bounds :
    let m : IndexingMap := {
      symbolicMap  := ⟨1, 1, []⟩
      dimVars      := [⟨0, 9⟩]
      rangeVars    := [⟨0, 3⟩]
      rtVars       := []
      constraints  := []
      isKnownEmpty := false
    }
    let o : IterationOrder := ⟨id, fun _ => .refl _⟩
    let x := binary .add (binary .mul (var 0) (const 4)) (var 1)
    let e := binary .add (binary .mul (binary .floorDiv x (const 4)) (const 2)) (binary .mod x (const 4))
    let e' := binary .add (binary .mul (var 0) (const 2)) (var 1)
    let ρ := fun id => if id = 0 then 7 else 3
    simplify o (m.computeExpressionRange true) .replace 12 e = some e' ∧ e'.eval ρ = e.eval ρ := by
  intro m o x e e' ρ
  have h : simplify o (m.computeExpressionRange true) .replace 12 e = some e' := by decide +kernel
  refine ⟨h, simplify_preserves_eval _ _ true _ 12 _ _ _ ?_ ?_ ?_ (fun _ => ?_) h ?_⟩
  · simp [e, x, PositiveDivisors]
  · simp [e, x, Defined, BinaryOp.isDivision]
  · decide
  · decide
  · decide +kernel

end Indexing
