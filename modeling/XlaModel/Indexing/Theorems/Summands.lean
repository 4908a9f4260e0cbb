import XlaModel.Indexing.Simplifier
import XlaModel.Indexing.Theorems.RangeEvaluator
import XlaModel.Symbolic.Theorems.Canonicalize

namespace Indexing

open Symbolic SymbolicExpr Fallible

variable {σ : Type} {ρ : Nat → Int} {e x : SymbolicExpr}

-- The predicates on expressions that are preserved by the rules.
structure Closed (W : SymbolicExpr → Prop) : Prop where
  const : ∀ c, W (const c)
  add   : ∀ {l r}, W l → W r → W (l.add r)
  mul   : ∀ {l r}, W l → W r → W (l.mul r)
  lhs   : ∀ {op l r}, W (binary op l r) → W l
  rhs   : ∀ {op l r}, W (binary op l r) → W r

theorem closed_wf : Closed (Wf pos ρ) where
  const _   := trivial
  add hl hr := wf_add hl hr
  mul hl hr := wf_mul hl hr
  lhs h     := h.1
  rhs h     := h.2.1

def summands : SymbolicExpr → List SymbolicExpr
  | binary .add l r => summands l ++ summands r
  | e               => [e]

def value (ρ : Nat → Int) (xs : List SymbolicExpr) : Int :=
  (xs.map (eval ρ)).sum

@[simp]
theorem value_nil : value ρ [] = 0 := rfl

@[simp]
theorem value_append : value ρ (xs ++ ys) = value ρ xs + value ρ ys := by
  simp [value]

@[simp]
theorem value_singleton : value ρ [x] = x.eval ρ := by
  simp [value]

@[simp]
theorem value_summands (e : SymbolicExpr) : value ρ (summands e) = e.eval ρ := by
  fun_induction summands e
  case case1 hl hr => simp [hl, hr, BinaryOp.eval]
  case case2       => simp

theorem Closed.summand (hW : Closed W) (h : W e) (hx : x ∈ summands e) : W x := by
  fun_induction summands e
  case case1 hl hr =>
    cases List.mem_append.mp hx
    case inl hx => exact hl (hW.lhs h) hx
    case inr hx => exact hr (hW.rhs h) hx
  case case2 => exact List.mem_singleton.mp hx ▸ h

theorem wf_of_mem_summands (h : e.Wf pos ρ) (hx : x ∈ summands e) : x.Wf pos ρ :=
  closed_wf.summand h hx

theorem summands_of_not_add (h : ∀ l r, e = binary .add l r → False) : summands e = [e] := by
  fun_cases summands e
  case case1 l r => exact (h l r rfl).elim
  case case2     => rfl

-- The invariant is given for the summands that have been visited.
theorem visitSummands_ensures_append {visit : σ → SymbolicExpr → Option σ}
    (Inv : List SymbolicExpr → σ → Prop)
    (hv : ∀ xs s x, x ∈ summands e → Inv xs s → Ensures (visit s x) (Inv (xs ++ [x])))
    (h : Inv xs s) : Ensures (visitSummands visit s e) (Inv (xs ++ summands e)) := by
  fun_induction visitSummands visit s e generalizing xs
  case case1 l r hl hr =>
    simp only [summands, List.mem_append] at hv
    refine .bind (hl (fun xs s x hx => hv xs s x (.inl hx)) h) fun s hs => ?_
    rw [summands, ← List.append_assoc]
    exact hr s (fun xs s x hx => hv xs s x (.inr hx)) hs
  case case2 e hn =>
    rw [summands_of_not_add hn] at hv ⊢
    exact hv xs _ e (List.mem_singleton_self e) h

theorem visitSummands_ensures {visit : σ → SymbolicExpr → Option σ}
    (Inv : List SymbolicExpr → σ → Prop) (h : Inv [] s)
    (hv : ∀ xs s x, x ∈ summands e → Inv xs s → Ensures (visit s x) (Inv (xs ++ [x]))) :
    Ensures (visitSummands visit s e) (Inv (summands e)) :=
  visitSummands_ensures_append Inv hv h

-- The invariant is given for the summands that have been mapped and the value of the results.
theorem mapSummands_ensures_append {fn : σ → SymbolicExpr → Option (σ × SymbolicExpr)}
    (Inv : List SymbolicExpr → σ → Int → Prop)
    (hf : ∀ xs s v x, x ∈ summands e → Inv xs s v →
      Ensures (fn s x) (fun p => W p.2 ∧ Inv (xs ++ [x]) p.1 (v + p.2.eval ρ)))
    (hW : Closed W) (hw : W e) (h : Inv xs s v) :
    Ensures (mapSummands fn s e)
      (fun p => W p.2 ∧ Inv (xs ++ summands e) p.1 (v + p.2.eval ρ)) := by
  fun_induction mapSummands fn s e generalizing xs v
  case case1 s l r hl hr =>
    simp only [summands, List.mem_append] at hf
    refine .bind (hl (fun xs s v x hx => hf xs s v x (.inl hx)) (hW.lhs hw) h) fun p hp => ?_
    refine .bind (hr p.1 (fun xs s v x hx => hf xs s v x (.inr hx)) (hW.rhs hw) hp.2) fun q hq => ?_
    have hs := List.append_assoc xs (summands l) (summands r)
    refine .pure ?_
    split
    case isTrue he =>
      refine ⟨hw, ?_⟩
      simpa [summands, BinaryOp.eval, ← he.1, ← he.2, hs, add_assoc] using hq.2
    case isFalse =>
      refine ⟨hW.add hp.1 hq.1, ?_⟩
      simpa [summands, hs, add_assoc] using hq.2
  case case2 s e hn =>
    rw [summands_of_not_add hn] at hf ⊢
    exact hf xs s v e (List.mem_singleton_self e) h

theorem mapSummands_ensures {fn : σ → SymbolicExpr → Option (σ × SymbolicExpr)}
    (Inv : List SymbolicExpr → σ → Int → Prop) (hW : Closed W) (hw : W e)
    (h : Inv [] s 0)
    (hf : ∀ xs s v x, x ∈ summands e → Inv xs s v →
      Ensures (fn s x) (fun p => W p.2 ∧ Inv (xs ++ [x]) p.1 (v + p.2.eval ρ))) :
    Ensures (mapSummands fn s e)
      (fun p => W p.2 ∧ Inv (summands e) p.1 (p.2.eval ρ)) :=
  mapSummands_ensures_append Inv hf hW hw h |>.imp fun _ hp => by simpa using hp

theorem scaleSummands_ensures (hw : e.Wf pos ρ) :
    Ensures (scaleSummands e c) (fun e' => e'.Wf pos ρ ∧ e'.eval ρ = e.eval ρ * c) := by
  have h : Ensures (mapSummands (fun _ summand => some ((), summand.mul (const c))) () e)
      (fun p => p.2.Wf pos ρ ∧ p.2.eval ρ = value ρ (summands e) * c) :=
    mapSummands_ensures (fun xs _ v => v = value ρ xs * c) closed_wf hw (by simp) fun xs _ v x hx hv =>
      .pure ⟨wf_mul (wf_of_mem_summands hw hx) trivial, by simp [hv, add_mul]⟩
  intro e' he
  have ⟨p, hp, he⟩ := Option.map_eq_some_iff.mp he
  simpa [he] using h p hp

end Indexing
