import XlaModel.Indexing.SumDivision
import XlaModel.Indexing.Theorems.ConstantDivisors

namespace Indexing

open Symbolic SymbolicExpr Fallible

variable {ρ : Nat → Int} {E : Fault → Prop} {e x q : SymbolicExpr} {range : SymbolicExpr → Except Fault Interval}
  {c m v : Int} {once simp' : SymbolicExpr → Except Fault SymbolicExpr} {ts divs : Terms} {terms : SumTerms}

def Returned (x : Except Fault α) : Prop :=
  ∃ a, x = .ok a

section EraseDiv

theorem eq_mul_iff {a : Int} (hm : m ≠ 0) : ¬(a.tmod m ≠ 0 ∨ a.tdiv m ≠ c) ↔ a = m * c := by
  rw [not_or, not_not, not_not]
  constructor
  case mp =>
    rintro ⟨hr, rfl⟩
    exact (Int.mul_tdiv_cancel' (Int.dvd_of_tmod_eq_zero hr)).symm
  case mpr =>
    rintro rfl
    exact ⟨Int.mul_tmod_right m c, Int.mul_tdiv_cancel_left c hm⟩

theorem eraseDiv_of_ne_zero (hm : m ≠ 0) : eraseDiv q m c ts =
    Except.ok (ε := Fault) (if (q, m * c) ∈ ts then some (ts.erase (q, m * c)) else none) := by
  induction ts
  case nil => rfl
  case cons t ts hi =>
    obtain ⟨div, divMul⟩ := t
    have hskip (hne : (q, m * c) ≠ (div, divMul)) :
        (eraseDiv q m c ts >>= fun divs? => .ok (divs?.map ((div, divMul) :: ·))) = Except.ok (ε := Fault)
          (if (q, m * c) ∈ (div, divMul) :: ts then some (((div, divMul) :: ts).erase (q, m * c)) else none) := by
      rw [hi, List.erase_cons_tail (by simpa using Ne.symm hne)]
      by_cases hmem : (q, m * c) ∈ ts
      case pos => simp [bind, Except.bind, hmem]
      case neg => simpa [bind, Except.bind, hmem] using fun h₁ h₂ => hne (by rw [h₁, h₂])
    rw [eraseDiv]
    by_cases hq : q ≠ div
    case pos =>
      rw [if_pos hq]
      exact hskip fun he => hq (congrArg Prod.fst he)
    case neg =>
      rw [if_neg hq]
      simp only [remainder, quotient, if_neg hm, bind, Except.bind, pure, Except.pure]
      by_cases hc : divMul.tmod m ≠ 0 ∨ divMul.tdiv m ≠ c
      case pos =>
        rw [if_pos hc]
        exact hskip fun he => (eq_mul_iff hm).mpr (congrArg Prod.snd he).symm hc
      case neg =>
        rw [if_neg hc]
        obtain rfl : q = div := not_not.mp hq
        obtain rfl : divMul = m * c := (eq_mul_iff hm).mp hc
        simp

theorem eraseDiv_zero : eraseDiv q 0 c ts =
    if q ∈ Terms.bases ts then Except.error Fault.divisionByZero else .ok none := by
  induction ts
  case nil => rfl
  case cons t ts hi =>
    rw [eraseDiv]
    by_cases hq : q ≠ t.1
    case pos =>
      rw [if_pos hq, hi]
      by_cases hmem : q ∈ Terms.bases ts
      case pos => simp [bind, Except.bind, hmem]
      case neg => simp [bind, Except.bind, pure, Except.pure, hmem, hq]
    case neg =>
      rw [if_neg hq]
      simp [remainder, bind, Except.bind, divisionByZero, not_not.mp hq]

end EraseDiv

section SumTermsWf

structure SumTermsWf (ρ : Nat → Int) (terms : SumTerms) : Prop where
  mods     : TermsWf ρ terms.mods
  divs     : TermsWf ρ terms.divs
  summands : TermMap ρ terms.summands

namespace SumTermsWf

theorem concat_mod (h : SumTermsWf ρ terms) (hb : b.Wf True ρ) (c : Int) :
    SumTermsWf ρ { terms with mods := terms.mods ++ [(b, c)] } where
  mods     := h.mods.concat hb
  divs     := h.divs
  summands := h.summands

theorem concat_div (h : SumTermsWf ρ terms) (hb : b.Wf True ρ) (c : Int) :
    SumTermsWf ρ { terms with divs := terms.divs ++ [(b, c)] } where
  mods     := h.mods
  divs     := h.divs.concat hb
  summands := h.summands

theorem addTo (h : SumTermsWf ρ terms) (hb : b.Wf True ρ) (c : Int) :
    SumTermsWf ρ { terms with summands := terms.summands.addTo b c } where
  mods     := h.mods
  divs     := h.divs
  summands := h.summands.addTo hb c

end SumTermsWf

theorem wf_getLhs (h : e.Wf True ρ) : (getLhs e).Wf True ρ := by
  fun_cases getLhs e
  case case1 => exact h.1
  case case2 => exact h

end SumTermsWf

section CombineMods

variable (range : SymbolicExpr → Except Fault Interval) (simp' : SymbolicExpr → Except Fault SymbolicExpr)

-- The quotient that belongs to a remainder and the modulus, if it is constant.
def modQuotient (mod : SymbolicExpr) : Except Fault (Option (SymbolicExpr × Int)) := do
  match ← getConstantRhs range mod .mod with
  | none   => return none
  | some c => return some (← simp' ((getLhs mod).floorDiv (const c)), c)

-- The division that a remainder with a multiplier is combined with.
def partner (t : SymbolicExpr × Int) : Option (SymbolicExpr × Int) :=
  match modQuotient range simp' t.1 with
  | .ok (some (q, c)) => if t.2 = 0 then none else some (q, t.2 * c)
  | _                 => none

-- The source divides by the multiplier of a remainder, if the division by its modulus is among those left over.
def DividesByZero (mods divs : Terms) : Prop :=
  ∃ pre mod post q c, mods = pre ++ (mod, 0) :: post ∧ (∀ t ∈ pre, Returned (modQuotient range simp' t.1)) ∧
    modQuotient range simp' mod = .ok (some (q, c)) ∧ q ∈ Terms.bases (divs.diff (pre.filterMap (partner range simp')))

variable {range simp'} {t : SymbolicExpr × Int}

theorem DividesByZero.cons (h : Returned (modQuotient range simp' t.1))
    (hd : DividesByZero range simp' ts (divs.diff (partner range simp' t).toList)) :
    DividesByZero range simp' (t :: ts) divs := by
  obtain ⟨pre, mod, post, q, c, rfl, hpre, hq, hmem⟩ := hd
  refine ⟨t :: pre, mod, post, q, c, rfl, List.forall_mem_cons.mpr ⟨h, hpre⟩, hq, ?_⟩
  cases hp : partner range simp' t <;> simpa [List.filterMap_cons, hp] using hmem

theorem combineMods_cons (range : SymbolicExpr → Except Fault Interval) (simp' : SymbolicExpr → Except Fault SymbolicExpr)
    (mod : SymbolicExpr) (modMul : Int) (ts : Terms) (terms : SumTerms) :
    combineMods range simp' ((mod, modMul) :: ts) terms = (do
      let kept := { terms with mods := terms.mods ++ [(mod, modMul)] }
      match ← modQuotient range simp' mod with
      | none        => combineMods range simp' ts kept
      | some (q, c) =>
        match ← eraseDiv q modMul c terms.divs with
        | none      => combineMods range simp' ts kept
        | some divs =>
          combineMods range simp' ts { terms with
            divs     := divs
            summands := terms.summands.addTo (getLhs mod) modMul
          }) := by
  rw [combineMods, modQuotient]
  cases getConstantRhs range mod .mod
  case error => rfl
  case ok c? =>
    cases c?
    case none   => rfl
    case some c =>
      simp only [bind, Except.bind]
      cases simp' ((getLhs mod).floorDiv (const c)) <;> rfl

-- The first remainder of the loop, if its quotient is simplified.
inductive CombinesMod (range : SymbolicExpr → Except Fault Interval) (simp' : SymbolicExpr → Except Fault SymbolicExpr)
    (t : SymbolicExpr × Int) (ts : Terms) (terms : SumTerms) : Prop
  | divides (mod q : SymbolicExpr) (c : Int) (term : t = (mod, 0))
      (quotient : modQuotient range simp' mod = .ok (some (q, c))) (base : q ∈ Terms.bases terms.divs)
      (error : combineMods range simp' (t :: ts) terms = .error .divisionByZero)
  | combines (terms' : SumTerms) (eq : combineMods range simp' (t :: ts) terms = combineMods range simp' ts terms')
      (divs : terms'.divs = terms.divs.diff (partner range simp' t).toList)
      (wf : ∀ ρ, t.1.Wf True ρ → SumTermsWf ρ terms → SumTermsWf ρ terms')

theorem combinesMod (h : Returned (modQuotient range simp' t.1)) (ts : Terms) (terms : SumTerms) :
    CombinesMod range simp' t ts terms := by
  obtain ⟨mod, modMul⟩ := t
  obtain ⟨q?, hq⟩ := h
  dsimp only at hq
  have hcombine := combineMods_cons range simp' mod modMul ts terms
  simp only [hq, bind, Except.bind] at hcombine
  cases q?
  case none => exact .combines _ hcombine (by simp [partner, hq]) fun ρ hw ht => ht.concat_mod hw modMul
  case some p =>
    obtain ⟨q, c⟩ := p
    by_cases hz : modMul = 0
    case pos =>
      subst hz
      simp only [eraseDiv_zero] at hcombine
      by_cases hmem : q ∈ Terms.bases terms.divs
      case pos =>
        rw [if_pos hmem] at hcombine
        exact .divides mod q c rfl hq hmem hcombine
      case neg =>
        rw [if_neg hmem] at hcombine
        exact .combines _ hcombine (by simp [partner, hq]) fun ρ hw ht => ht.concat_mod hw 0
    case neg =>
      have hp : partner range simp' (mod, modMul) = some (q, modMul * c) := by simp [partner, hq, hz]
      simp only [eraseDiv_of_ne_zero hz] at hcombine
      by_cases hmem : (q, modMul * c) ∈ terms.divs
      case pos =>
        rw [if_pos hmem] at hcombine
        refine .combines _ hcombine (by simp [hp, List.diff_cons]) fun ρ hw ht =>
          ⟨ht.mods, fun b hb => ?others, ?combined⟩
        case others =>
          obtain ⟨u, hu, rfl⟩ := List.mem_map.mp hb
          exact ht.divs _ (List.mem_map_of_mem (List.mem_of_mem_erase hu))
        case combined => exact ht.summands.addTo (wf_getLhs hw) modMul
      case neg =>
        rw [if_neg hmem] at hcombine
        exact .combines _ hcombine (by simp [hp, List.diff_cons, List.erase_of_not_mem hmem])
          fun ρ hw ht => ht.concat_mod hw modMul

-- The divisions of the nested calls and the ones by a multiplier are the only ones.
theorem combineMods_wf (hr : RangeOk E range) (hw : TermsWf ρ ts) (h : SumTermsWf ρ terms)
    (hs : ∀ pre mod modMul post c, ts = pre ++ (mod, modMul) :: post →
      (∀ t ∈ pre, Returned (modQuotient range simp' t.1)) → getConstantRhs range mod .mod = .ok (some c) →
      ((getLhs mod).floorDiv (const c)).Wf True ρ → Outcome E (simp' ((getLhs mod).floorDiv (const c))) (Wf True ρ))
    (hd : DividesByZero range simp' ts terms.divs → E .divisionByZero) :
    Outcome E (combineMods range simp' ts terms) (SumTermsWf ρ) := by
  induction ts generalizing terms
  case nil => exact .pure h
  case cons t ts hi =>
    obtain ⟨hw₁, hw⟩ := termsWf_cons.mp hw
    cases hq : modQuotient range simp' t.1
    case ok q? =>
      cases combinesMod ⟨q?, hq⟩ ts terms
      case divides mod q c ht hq hmem herror =>
        rw [herror]
        exact .error (hd ⟨[], mod, ts, q, c, by simp [ht], by simp, hq, by simpa using hmem⟩)
      case combines terms' heq hdivs hwf =>
        rw [heq]
        refine hi hw (hwf ρ hw₁ h) (fun pre mod modMul post c he hpre hc hwf' => ?calls) fun hdiv => ?division
        case calls =>
          exact hs (t :: pre) mod modMul post c (by rw [he]; rfl) (List.forall_mem_cons.mpr ⟨⟨q?, hq⟩, hpre⟩) hc hwf'
        case division =>
          rw [hdivs] at hdiv
          exact hd (hdiv.cons ⟨q?, hq⟩)
    case error f =>
      obtain ⟨mod, modMul⟩ := t
      rw [combineMods_cons, hq]
      refine .error ?_
      have hquotient : Outcome E (modQuotient range simp' mod) (fun _ => True) := by
        refine .bind (getConstantRhs_wf hr hw₁ .mod) fun c? hc => ?_
        cases c?
        case none   => exact .pure trivial
        case some c =>
          have hdiv := wf_floorDiv (hc.2 c rfl).wf <| .of_pos <| (hc.2 c rfl).pos <| .inl rfl
          exact .bind (hs [] mod modMul ts c rfl (by simp) hc.1 hdiv) fun q _ => .pure trivial
      rwa [hq] at hquotient

theorem combineMods_eq_error (hd : DividesByZero range simp' ts terms.divs) :
    combineMods range simp' ts terms = .error .divisionByZero := by
  obtain ⟨pre, mod, post, q, c, rfl, hpre, hq, hmem⟩ := hd
  induction pre generalizing terms
  case nil =>
    rw [List.nil_append, combineMods_cons, hq]
    simp only [List.filterMap_nil, List.diff_nil] at hmem
    simp [bind, Except.bind, eraseDiv_zero, hmem]
  case cons t pre hi =>
    obtain ⟨ht, hpre⟩ := List.forall_mem_cons.mp hpre
    cases combinesMod ht (pre ++ (mod, 0) :: post) terms
    case divides herror => exact herror
    case combines terms' heq hdivs _ =>
      rw [List.cons_append, heq]
      refine hi hpre ?_
      rw [hdivs]
      cases hp : partner range simp' t <;> simpa [List.filterMap_cons, hp] using hmem

-- A nested call that divides by zero.
theorem combineMods_nested {pre post : Terms} {t : SymbolicExpr × Int} (hts : ts = pre ++ t :: post)
    (hpre : ∀ t ∈ pre, Returned (modQuotient range simp' t.1))
    (ht : modQuotient range simp' t.1 = .error .divisionByZero) :
    combineMods range simp' ts terms = .error .divisionByZero := by
  subst hts
  induction pre generalizing terms
  case nil =>
    obtain ⟨mod, modMul⟩ := t
    dsimp only at ht
    rw [List.nil_append, combineMods_cons, ht]
    rfl
  case cons u pre hi =>
    obtain ⟨hu, hpre⟩ := List.forall_mem_cons.mp hpre
    cases combinesMod hu (pre ++ t :: post) terms
    case divides herror          => exact herror
    case combines terms' heq _ _ => rw [List.cons_append, heq, hi hpre]

end CombineMods

-- The constants by which divisions divide are positive.
theorem expandDivs_wf (hr : RangeOk E range) (hw : TermsWf ρ ts) (h : SumTermsWf ρ terms) :
    Outcome E (expandDivs range ts terms) (SumTermsWf ρ) := by
  induction ts generalizing terms
  case nil => exact .pure h
  case cons t ts hi =>
    obtain ⟨div, divMul⟩ := t
    obtain ⟨hd, hw⟩ := termsWf_cons.mp hw
    have hkeep := hi hw (h.concat_div hd divMul)
    rw [expandDivs]
    split_ifs
    case pos => exact hkeep
    case neg =>
      refine .bind_option (getConstantRhs_wf hr hd .floorDiv) (fun divC hc => ?_) hkeep
      have hc := hc.2 divC rfl
      have hpos : 0 < divC := hc.pos (.inr rfl)
      dsimp only
      split_ifs
      case pos => exact hkeep
      case neg =>
        refine .bind (remainder_outcome hpos.ne') fun rem _ => ?_
        split_ifs
        case pos => exact hkeep
        case neg =>
          refine .bind (visitSummands_outcome (fun _ => TermMap ρ) h.summands fun pre x post s heq hs =>
            .pure (hs.addTo (wf_of_mem_summands hc.wf (by simp [heq])) _)) fun summands hm => hi hw ?_
          exact ⟨h.mods.concat (wf_mod hc.wf <| .of_pos hpos), h.divs, hm⟩

section Factors

variable (range : SymbolicExpr → Except Fault Interval) (once simp' : SymbolicExpr → Except Fault SymbolicExpr)

-- A simplified summand and its multiplier.
def factor (x : SymbolicExpr) : Except Fault (SymbolicExpr × Int) := do
  let simplified ← once x
  extractMultiplier range simplified

def isBinary (op : BinaryOp) : SymbolicExpr → Bool
  | binary op' _ _ => op' = op
  | _              => false

def factorsOf (op : BinaryOp) (xs : List SymbolicExpr) : Terms :=
  (xs.filterMap fun x => (factor range once x).toOption).filter (isBinary op ·.1)

def collectTerm (terms : SumTerms) (t : SymbolicExpr × Int) : SumTerms :=
  match t.1 with
  | binary .mod _ _      => { terms with mods := terms.mods ++ [t] }
  | binary .floorDiv _ _ => { terms with divs := terms.divs ++ [t] }
  | _                    => { terms with summands := terms.summands.addTo t.1 t.2 }

variable {range once simp'}

theorem collectTerms_eq (e : SymbolicExpr) : collectTerms range once e =
    (summands e).foldlM (fun terms x => collectTerm terms <$> factor range once x) ⟨[], [], []⟩ := by
  rw [collectTerms, visitSummands_eq_foldlM]
  congr
  funext terms x
  simp only [factor, map_bind]
  congr
  funext simplified
  cases extractMultiplier range simplified
  case error => rfl
  case ok t =>
    obtain ⟨lhs, multiplier⟩ := t
    simp only [collectTerm, bind, Except.bind, Functor.map, Except.map]
    split <;> simp_all [pure, Except.pure]

theorem factorsOf_concat {op : BinaryOp} {xs : List SymbolicExpr} {t : SymbolicExpr × Int}
    (ht : factor range once x = .ok t) : factorsOf range once op (xs ++ [x]) =
      factorsOf range once op xs ++ if isBinary op t.1 then [t] else [] := by
  simp [factorsOf, ht, Except.toOption, List.filter_cons]

theorem mods_collectTerm (terms : SumTerms) (t : SymbolicExpr × Int) : (collectTerm terms t).mods =
    terms.mods ++ if isBinary .mod t.1 then [t] else [] := by
  obtain ⟨lhs, multiplier⟩ := t
  cases lhs
  case binary op l r => cases op <;> simp [collectTerm, isBinary]
  all_goals simp [collectTerm, isBinary]

theorem divs_collectTerm (terms : SumTerms) (t : SymbolicExpr × Int) : (collectTerm terms t).divs =
    terms.divs ++ if isBinary .floorDiv t.1 then [t] else [] := by
  obtain ⟨lhs, multiplier⟩ := t
  cases lhs
  case binary op l r => cases op <;> simp [collectTerm, isBinary]
  all_goals simp [collectTerm, isBinary]

theorem SumTermsWf.collectTerm {t : SymbolicExpr × Int} (h : SumTermsWf ρ terms) (ht : t.1.Wf True ρ) :
    SumTermsWf ρ (collectTerm terms t) := by
  simp only [Indexing.collectTerm]
  split
  case h_1 => exact h.concat_mod ht t.2
  case h_2 => exact h.concat_div ht t.2
  case h_3 => exact h.addTo ht t.2

structure Collected (range : SymbolicExpr → Except Fault Interval) (once : SymbolicExpr → Except Fault SymbolicExpr)
    (xs : List SymbolicExpr) (terms : SumTerms) : Prop where
  factor : ∀ x ∈ xs, Returned (factor range once x)
  mods   : terms.mods = factorsOf range once .mod xs
  divs   : terms.divs = factorsOf range once .floorDiv xs

theorem Collected.concat {xs : List SymbolicExpr} {t : SymbolicExpr × Int} (h : Collected range once xs terms)
    (ht : Indexing.factor range once x = .ok t) : Collected range once (xs ++ [x]) (collectTerm terms t) where
  factor := by
    intro y hy
    cases List.mem_append.mp hy
    case inl hy => exact h.factor y hy
    case inr hy => exact List.mem_singleton.mp hy ▸ ⟨t, ht⟩
  mods   := by rw [factorsOf_concat ht, ← h.mods, mods_collectTerm]
  divs   := by rw [factorsOf_concat ht, ← h.divs, divs_collectTerm]

theorem extractMultiplier_wf (hr : RangeOk E range) (hw : e.Wf True ρ) :
    Outcome E (extractMultiplier range e) (fun p => p.1.Wf True ρ) := by
  refine .bind (getConstantRhs_wf hr hw .mul) fun c? hc => ?_
  cases c?
  case none   => exact .pure hw
  case some c => exact .pure (hc.2 c rfl).wf

theorem collectTerms_wf (hr : RangeOk E range) (hw : e.Wf True ρ)
    (ho : ∀ pre x post, summands e = pre ++ x :: post → (∀ y ∈ pre, Returned (factor range once y)) →
      x.Wf True ρ → Outcome E (once x) (Wf True ρ)) :
    Outcome E (collectTerms range once e)
      (fun terms => Collected range once (summands e) terms ∧ SumTermsWf ρ terms) := by
  rw [collectTerms_eq]
  refine .foldlM (fun xs terms => Collected range once xs terms ∧ SumTermsWf ρ terms)
    ⟨⟨by simp, rfl, rfl⟩, .nil, .nil, .nil, by simp⟩ fun pre x post terms heq hi => ?_
  have hx := wf_of_mem_summands hw (show x ∈ summands e by simp [heq])
  have hfactor : Outcome E (factor range once x) (fun t => t.1.Wf True ρ) :=
    .bind (ho pre x post heq hi.1.factor hx) fun y hy => extractMultiplier_wf hr hy
  exact .map hfactor.with_eq fun t ht => ⟨hi.1.concat ht.1, hi.2.collectTerm ht.2⟩

theorem exists_collectTerms {xs : List SymbolicExpr} (h : ∀ x ∈ xs, Returned (factor range once x)) :
    ∃ terms, xs.foldlM (fun terms x => collectTerm terms <$> factor range once x) ⟨[], [], []⟩ = .ok terms ∧
      Collected range once xs terms := by
  have hx : Outcome (fun _ => False)
      (xs.foldlM (fun terms x => collectTerm terms <$> factor range once x) ⟨[], [], []⟩) (Collected range once xs) := by
    refine .foldlM (Collected range once) ⟨by simp, rfl, rfl⟩ fun pre x post terms heq hi => ?_
    obtain ⟨t, ht⟩ := h x (by simp [heq])
    rw [ht]
    exact .pure (hi.concat ht)
  exact hx.exists_ok

-- A nested call that divides by zero.
theorem collectTerms_nested {pre post : List SymbolicExpr} (he : summands e = pre ++ x :: post)
    (hpre : ∀ y ∈ pre, Returned (factor range once y)) (hx : once x = .error .divisionByZero) :
    collectTerms range once e = .error .divisionByZero := by
  obtain ⟨terms, hterms, _⟩ := exists_collectTerms hpre
  rw [collectTerms_eq, he, List.foldlM_append, hterms]
  simp [factor, hx, bind, Except.bind, Functor.map, Except.map]

end Factors

section RewriteSum

-- The divisors of all divisions are positive constants.
def ConstantDivisors : SymbolicExpr → Prop
  | binary op l r => ConstantDivisors l ∧ ConstantDivisors r ∧ (op.isDivision → ∃ c > 0, r = const c)
  | _             => True

theorem ConstantDivisors.wf (h : ConstantDivisors e) : e.Wf True ρ := by
  induction e
  case binary op l r hl hr =>
    obtain ⟨h₁, h₂, hd⟩ := h
    refine ⟨hl h₁, hr h₂, fun ho => ?nonzero, fun _ ho => hd ?division⟩
    case nonzero =>
      obtain ⟨c, hc, rfl⟩ := hd ho
      exact hc.ne'
    case division => obtain rfl | rfl := ho <;> rfl
  all_goals trivial

theorem mem_bases_diff {us : Terms} : q ∈ Terms.bases (divs.diff us) ↔ ∃ v, us.count (q, v) < divs.count (q, v) := by
  have hmem (v : Int) : us.count (q, v) < divs.count (q, v) ↔ (q, v) ∈ divs.diff us := by
    rw [←List.count_pos_iff, List.count_diff]
    exact Nat.sub_pos_iff_lt.symm
  simp [Terms.bases, hmem]

-- Wherever the multiplier of a remainder is zero, the divisions by its modulus belong to remainders before it.
def UsedUp (range : SymbolicExpr → Except Fault Interval) (once simp' : SymbolicExpr → Except Fault SymbolicExpr)
    (sum : SymbolicExpr) : Prop :=
  (∀ x ∈ summands sum, Returned (factor range once x)) →
    ∀ pre mod post q c, factorsOf range once .mod (summands sum) = pre ++ (mod, 0) :: post →
      (∀ t ∈ pre, Returned (modQuotient range simp' t.1)) → modQuotient range simp' mod = .ok (some (q, c)) →
      ∀ v, (factorsOf range once .floorDiv (summands sum)).count (q, v) ≤
        (pre.filterMap (partner range simp')).count (q, v)

theorem usedUp_iff : UsedUp range once simp' e ↔ ((∀ x ∈ summands e, Returned (factor range once x)) →
    ¬DividesByZero range simp' (factorsOf range once .mod (summands e))
      (factorsOf range once .floorDiv (summands e))) := by
  constructor
  case mp =>
    rintro h hf ⟨pre, mod, post, q, c, hmods, hpre, hq, hmem⟩
    obtain ⟨v, hlt⟩ := mem_bases_diff.mp hmem
    exact (h hf pre mod post q c hmods hpre hq v).not_gt hlt
  case mpr =>
    intro h hf pre mod post q c hmods hpre hq v
    by_contra hlt
    exact h hf ⟨pre, mod, post, q, c, hmods, hpre, hq, mem_bases_diff.mpr ⟨v, not_le.mp hlt⟩⟩

-- A call of `SimplifyOnce` or `Simplify`.
inductive Call
  | simplifyOnce (expr : SymbolicExpr)
  | simplify (expr : SymbolicExpr)

def Call.expr : Call → SymbolicExpr
  | simplifyOnce expr => expr
  | simplify expr     => expr

def Call.run (once simp' : SymbolicExpr → Except Fault SymbolicExpr) : Call → Except Fault SymbolicExpr
  | simplifyOnce expr => once expr
  | simplify expr     => simp' expr

-- The calls that the rewriting of a sum makes, if the calls before return.
inductive SumCalls (range : SymbolicExpr → Except Fault Interval) (once simp' : SymbolicExpr → Except Fault SymbolicExpr)
    (sum : SymbolicExpr) : Call → Prop
  | summand (pre post : List SymbolicExpr) (x : SymbolicExpr) (split : summands sum = pre ++ x :: post)
      (before : ∀ y ∈ pre, Returned (factor range once y)) : SumCalls range once simp' sum (.simplifyOnce x)
  | quotient (pre post : Terms) (mod : SymbolicExpr) (modMul c : Int)
      (factors : ∀ x ∈ summands sum, Returned (factor range once x))
      (divs : factorsOf range once .floorDiv (summands sum) ≠ [])
      (split : factorsOf range once .mod (summands sum) = pre ++ (mod, modMul) :: post)
      (before : ∀ t ∈ pre, Returned (modQuotient range simp' t.1))
      (modulus : getConstantRhs range mod .mod = .ok (some c)) :
      SumCalls range once simp' sum (.simplify ((getLhs mod).floorDiv (const c)))

theorem rewriteSum_wf (hr : RangeOk E range) (hw : e.Wf True ρ)
    (hc : ∀ call, SumCalls range once simp' e call → call.expr.Wf True ρ →
      Outcome E (call.run once simp') (Wf True ρ))
    (hu : ¬UsedUp range once simp' e → E .divisionByZero) :
    Outcome E (rewriteSum range once simp' e) (Wf True ρ) := by
  refine .bind (collectTerms_wf hr hw fun pre x post heq hpre => hc _ (.summand pre post x heq hpre)) fun terms ht => ?_
  obtain ⟨hcol, ht⟩ := ht
  have hrewrite : Outcome E (rewriteDivs range simp' terms) (SumTermsWf ρ) := by
    rw [rewriteDivs]
    split
    case isTrue => exact .pure ht
    case isFalse hne =>
      rw [hcol.divs] at hne
      refine .bind (combineMods_wf hr ht.mods ⟨.nil, ht.divs, ht.summands⟩ (fun pre mod modMul post c heq hpre hmod => ?call)
        fun hd => hu ?used) fun terms' ht' => expandDivs_wf hr ht'.divs ⟨ht'.mods, .nil, ht'.summands⟩
      case call => exact hc _ (.quotient pre post mod modMul c hcol.factor hne (hcol.mods ▸ heq) hpre hmod)
      case used =>
        rw [usedUp_iff]
        exact fun h => h hcol.factor (hcol.mods ▸ hcol.divs ▸ hd)
  refine .bind hrewrite fun terms' ht' => .pure ?_
  exact (sumTerms_spec ⟨ht'.mods, ht'.divs, ht'.summands, rfl⟩).1

theorem rewriteSum_eq_error (h : ¬UsedUp range once simp' e) :
    rewriteSum range once simp' e = .error .divisionByZero := by
  rw [usedUp_iff] at h
  push Not at h
  obtain ⟨hf, hd⟩ := h
  obtain ⟨terms, hterms, hcol⟩ := exists_collectTerms hf
  rw [← collectTerms_eq] at hterms
  rw [← hcol.mods, ← hcol.divs] at hd
  have hne : terms.divs ≠ [] := by
    obtain ⟨pre, mod, post, q, c, _, _, _, hmem⟩ := hd
    intro hnil
    simp [hnil, Terms.bases] at hmem
  have hcombine : combineMods range simp' terms.mods { terms with mods := [] } = .error .divisionByZero :=
    combineMods_eq_error hd
  simp [rewriteSum, hterms, rewriteDivs, hne, hcombine, bind, Except.bind]

theorem rewriteSum_nested {call : Call} (h : SumCalls range once simp' e call)
    (hc : call.run once simp' = .error .divisionByZero) : rewriteSum range once simp' e = .error .divisionByZero := by
  cases h
  case summand pre post x heq hpre =>
    rw [rewriteSum, collectTerms_nested heq hpre hc]
    rfl
  case quotient pre post mod modMul c hf hne heq hpre hmod =>
    obtain ⟨terms, hterms, hcol⟩ := exists_collectTerms hf
    rw [← collectTerms_eq] at hterms
    have hq : modQuotient range simp' mod = .error .divisionByZero := by
      have hc : simp' ((getLhs mod).floorDiv (const c)) = .error .divisionByZero := hc
      simp [modQuotient, hmod, hc, bind, Except.bind]
    have hcombine : combineMods range simp' terms.mods { terms with mods := [] } = .error .divisionByZero :=
      combineMods_nested (hcol.mods ▸ heq) hpre hq
    rw [← hcol.divs] at hne
    simp [rewriteSum, hterms, rewriteDivs, hne, hcombine, bind, Except.bind]

end RewriteSum

section Rewrites

-- The calls that `SimplifyOnce` makes.
inductive Calls (range : SymbolicExpr → Except Fault Interval) (once simp' : SymbolicExpr → Except Fault SymbolicExpr) :
    SymbolicExpr → Call → Prop
  | mul (l r : SymbolicExpr) (i : Interval) (rhs : range r = .ok i) (point : i.isPoint) :
      Calls range once simp' (binary .mul l r) (.simplifyOnce l)
  | sum (l r : SymbolicExpr) (call : Call) (calls : SumCalls range once simp' (binary .add l r) call) :
      Calls range once simp' (binary .add l r) call
  | mod (l r : SymbolicExpr) (i : Interval) (rhs : range r = .ok i) (point : i.isPoint) (nonzero : i.lower ≠ 0) :
      Calls range once simp' (binary .mod l r) (.simplifyOnce l)
  | dividend (l r : SymbolicExpr) (i : Interval) (rhs : range r = .ok i) :
      Calls range once simp' (binary .floorDiv l r) (.simplifyOnce l)
  | divisor (l r : SymbolicExpr) (i : Interval) (rhs : range r = .ok i) (point : ¬i.isPoint)
      (before : Returned (once l)) : Calls range once simp' (binary .floorDiv l r) (.simplifyOnce r)

variable {call : Call}

theorem rewrite_wf (hr : RangeOk E range) (hw : e.Wf True ρ)
    (hc : ∀ call, Calls range once simp' e call → call.expr.Wf True ρ → Outcome E (call.run once simp') (Wf True ρ))
    (hu : ∀ l r, e = binary .add l r → ¬UsedUp range once simp' e → E .divisionByZero) :
    Outcome E (rewrite range once simp' e) (Wf True ρ) := by
  fun_cases rewrite range once simp' e
  case case1 l r => exact rewriteMul_wf hr hw fun i hi hp => hc _ (.mul l r i hi hp) hw.1
  case case2 l r => exact rewriteSum_wf hr hw (fun call h => hc _ (.sum l r call h)) (hu l r rfl)
  case case3 l r =>
    obtain ⟨m, hm, rfl⟩ := hw.2.2.positive trivial (.inl rfl)
    exact rewriteMod_wf hr hw hm (hc _ (.mod l _ _ (hr.const m) (by simp [Interval.isPoint]) hm.ne') hw.1)
  case case4 l r =>
    obtain ⟨d, hd, rfl⟩ := hw.2.2.positive trivial (.inr rfl)
    exact rewriteFloorDiv_wf hr hw hd (hc _ (.dividend l _ _ (hr.const d)) hw.1)
  case case5 => exact .pure hw

theorem rewrite_nested (h : Calls range once simp' e call) (hc : call.run once simp' = .error .divisionByZero) :
    rewrite range once simp' e = .error .divisionByZero := by
  cases h
  case mul l r i hi hp =>
    have hc : once l = .error .divisionByZero := hc
    simp [rewrite, rewriteMul, hi, hp, hc, bind, Except.bind]
  case sum l r h => exact rewriteSum_nested h hc
  case mod l r i hi hp hz =>
    have hc : once l = .error .divisionByZero := hc
    simp [rewrite, rewriteMod, hi, hp, hz, hc, bind, Except.bind]
  case dividend l r i hi =>
    have hc : once l = .error .divisionByZero := hc
    simp [rewrite, rewriteFloorDiv, hi, hc, bind, Except.bind]
  case divisor l r i hi hp hb =>
    have hc : once r = .error .divisionByZero := hc
    obtain ⟨x, hx⟩ := hb
    simp [rewrite, rewriteFloorDiv, hi, hp, hx, hc, bind, Except.bind]

variable (o : IterationOrder) (range : SymbolicExpr → Except Fault Interval)

-- The sums that a call rewrites, itself or in a nested call, with the fuel of their calls.
inductive Rewrites : Nat → Call → Nat → SymbolicExpr → Prop
  | sum (n : Nat) (l r : SymbolicExpr) : Rewrites (n + 1) (.simplifyOnce (binary .add l r)) n (binary .add l r)
  | nested (n k : Nat) (expr sum : SymbolicExpr) (call : Call)
      (calls : Calls range (simplifyOnce o range .preserve n) (simplify o range .preserve n) expr call)
      (rewrites : Rewrites n call k sum) : Rewrites (n + 1) (.simplifyOnce expr) k sum
  | canonical (n k : Nat) (expr canonical sum : SymbolicExpr) (canonicalize : canonicalize o n expr = some canonical)
      (rewrites : Rewrites n (.simplifyOnce canonical) k sum) : Rewrites (n + 1) (.simplify expr) k sum
  | again (n k : Nat) (expr canonical simplified sum : SymbolicExpr)
      (canonicalize : canonicalize o n expr = some canonical)
      (once : simplifyOnce o range .preserve n canonical = .ok simplified) (changed : simplified ≠ canonical)
      (rewrites : Rewrites n (.simplify simplified) k sum) : Rewrites (n + 1) (.simplify expr) k sum

def RewriteUsedUp (n : Nat) (sum : SymbolicExpr) : Prop :=
  UsedUp range (simplifyOnce o range .preserve n) (simplify o range .preserve n) sum

variable {o range}

theorem RangeOk.imp (hr : RangeOk E range) {E' : Fault → Prop} (hE : ∀ f, E f → E' f) : RangeOk E' range where
  const      := hr.const
  error e f h := hE f (hr.error e f h)

-- A division by zero in a call, or in the calls that it makes.
def Divides (o : IterationOrder) (range : SymbolicExpr → Except Fault Interval) (n : Nat) (call : Call) (f : Fault) :
    Prop :=
  f = .divisionByZero → ∃ k sum, Rewrites o range n call k sum ∧ ¬RewriteUsedUp o range k sum

-- By induction on the fuel, as the functions call each other with smaller fuel.
theorem run_wf (hr : RangeOk (· = .call) range) (n : Nat) (call : Call) (hw : call.expr.Wf True ρ) :
    Outcome (Divides o range n call) (call.run (simplifyOnce o range .preserve n) (simplify o range .preserve n))
      (Wf True ρ) := by
  induction n generalizing call
  case zero => cases call <;> exact .error nofun
  case succ n hi =>
    have hnested {call : Call} (call' : Call)
        (h : ∀ k sum, Rewrites o range n call' k sum → Rewrites o range (n + 1) call k sum)
        (hw : call'.expr.Wf True ρ) : Outcome (Divides o range (n + 1) call)
          (call'.run (simplifyOnce o range .preserve n) (simplify o range .preserve n)) (Wf True ρ) := by
      refine (hi call' hw).imp_error fun f hf he => ?_
      obtain ⟨k, sum, hsum, hu⟩ := hf he
      exact ⟨k, sum, h k sum hsum, hu⟩
    cases call
    case simplifyOnce e =>
      have hrewrite : Outcome (Divides o range (n + 1) (.simplifyOnce e))
          (rewrite range (simplifyOnce o range .preserve n) (simplify o range .preserve n) e) (Wf True ρ) := by
        refine rewrite_wf (hr.imp fun f hf he => by simp [hf] at he) hw (fun call hc hw => ?call) fun l r he hu _ => ?sum
        case call => exact hnested call (fun k sum h => .nested n k e sum call hc h) hw
        case sum =>
          subst he
          exact ⟨n, _, .sum n l r, hu⟩
      simp only [Call.run, simplifyOnce, simplifyOnceWith]
      split
      case h_1 => exact .pure hw
      case h_2 => simpa using hrewrite
    case simplify e =>
      simp only [Call.run, simplify]
      cases hc : canonicalize o n e
      case none => exact .error nofun
      case some canonical =>
        have hcanon := canonicalize_ensures o n hw canonical hc
        refine .bind (.pure rfl : Outcome _ (.ok canonical) (· = canonical)) fun canonical he => ?_
        subst he
        have honce := hnested (.simplifyOnce canonical)
          (fun k sum h => .canonical n k e canonical sum hc h) hcanon.wf
        refine .bind honce.with_eq fun simplified hs => ?_
        split
        case isTrue     => exact .pure hcanon.wf
        case isFalse hn =>
          exact hnested (.simplify simplified)
            (fun k sum h => .again n k e canonical simplified sum hc hs.1 hn h) hs.2

theorem run_eq_error {n k : Nat} {sum : SymbolicExpr} (h : Rewrites o range n call k sum)
    (hu : ¬RewriteUsedUp o range k sum) :
    call.run (simplifyOnce o range .preserve n) (simplify o range .preserve n) = .error .divisionByZero := by
  induction h
  case sum n l r => exact rewriteSum_eq_error hu
  case nested n k expr sum call hc hr hi =>
    have hrewrite := rewrite_nested hc (hi hu)
    cases hc <;> simpa [Call.run, simplifyOnce, simplifyOnceWith] using hrewrite
  case canonical n k e canonical sum hc hr hi =>
    have hi : simplifyOnce o range .preserve n canonical = .error .divisionByZero := hi hu
    simp [Call.run, simplify, hc, hi, returned, bind, Except.bind]
  case again n k e canonical simplified sum hc hs hn hr hi =>
    have hi : simplify o range .preserve n simplified = .error .divisionByZero := hi hu
    simp [Call.run, simplify, hc, hs, hn, hi, returned, bind, Except.bind]

end Rewrites

section Divides

theorem rangeOk_expressionRange (m : IndexingMap) (useConstraints : Bool) :
    RangeOk (· = .call) (m.expressionRange useConstraints) where
  const _     := rfl
  error e f h := by
    rw [IndexingMap.expressionRange] at h
    cases hc : m.computeExpressionRange useConstraints e
    case none =>
      rw [hc] at h
      exact (Except.error.inj h).symm
    case some i =>
      rw [hc] at h
      contradiction

-- The sum and the sums that are rewritten in the nested calls.
structure SumsUsedUp (o : IterationOrder) (range : SymbolicExpr → Except Fault Interval) (n : Nat)
    (sum : SymbolicExpr) : Prop where
  usedUp : RewriteUsedUp o range n sum
  nested : ∀ call, SumCalls range (simplifyOnce o range .preserve n) (simplify o range .preserve n) sum call →
    ∀ k sum', Rewrites o range n call k sum' → RewriteUsedUp o range k sum'

end Divides

section Example

-- `(d0 mod 4) * d1 + d0 floordiv k`, where `d1` is zero.
def pointSum (k : Int) : SymbolicExpr :=
  binary .add (binary .mul (binary .mod (var 0) (const 4)) (var 1)) (binary .floorDiv (var 0) (const k))

def pointMap (k : Int) : IndexingMap where
  symbolicMap  := ⟨2, 0, [pointSum k]⟩
  dimVars      := [⟨0, 99⟩, ⟨0, 0⟩]
  rangeVars    := []
  rtVars       := []
  constraints  := []
  isKnownEmpty := false

theorem constantDivisors_pointSum {k : Int} (h : 0 < k) : ConstantDivisors (pointSum k) := by
  simp [pointSum, ConstantDivisors, BinaryOp.isDivision, h]

-- A nested sum.
example :
    let o : IterationOrder := ⟨id, fun _ => .refl _⟩
    let range := (pointMap 4).expressionRange true
    rewriteSum range (simplifyOnce o range .preserve 12) (simplify o range .preserve 12)
      (binary .add (binary .floorDiv (pointSum 4) (const 7)) (var 0)) = .error .divisionByZero := by
  decide +kernel

end Example

end Indexing
