import XlaModel.Symbolic.Theorems.Terms

namespace Symbolic

open SymbolicExpr Fuel

variable {pos : Prop} {ρ : Nat → Int} {rec : Nat → SymbolicExpr → Option SymbolicExpr} {e l r : SymbolicExpr}

-- The value and the measure of the expressions that are summed up.
structure Summands (pos : Prop) (ρ : Nat → Int) (v : Int) (m : Measure) (exprs : List SymbolicExpr) : Prop where
  eval    : (exprs.map (eval ρ)).sum = v
  measure : (exprs.map addend).sum ≤ m
  wf      : ∀ e ∈ exprs, e.Wf pos ρ
  folded  : ∀ e ∈ exprs, e.Folded

theorem Summands.append (h₁ : Summands pos ρ v₁ m₁ exprs₁) (h₂ : Summands pos ρ v₂ m₂ exprs₂) :
    Summands pos ρ (v₁ + v₂) (m₁ + m₂) (exprs₁ ++ exprs₂) where
  eval    := by simp [h₁.eval, h₂.eval]
  measure := by simpa using add_le_add h₁.measure h₂.measure
  wf      := by simpa [or_imp, forall_and] using ⟨h₁.wf, h₂.wf⟩
  folded  := by simpa [or_imp, forall_and] using ⟨h₁.folded, h₂.folded⟩

theorem Summands.singleton (hd : e.Wf pos ρ) (hf : e.Folded) (hm : e.addend ≤ m) :
    Summands pos ρ (e.eval ρ) m [e] where
  eval    := by simp
  measure := by simpa
  wf      := by simpa
  folded  := by simpa

theorem Summands.mono (h : Summands pos ρ v m₁ exprs) (hm : m₁ ≤ m₂) : Summands pos ρ v m₂ exprs :=
  { h with measure := h.measure.trans hm }

theorem Summands.perm (h : Summands pos ρ v m exprs) (hp : exprs'.Perm exprs) :
    Summands pos ρ v m exprs' where
  eval    := (hp.map _).sum_eq.trans h.eval
  measure := (hp.map _).sum_eq.trans_le h.measure
  wf      := fun e he => h.wf e <| hp.mem_iff.mp he
  folded  := fun e he => h.folded e <| hp.mem_iff.mp he

section Sum

structure Sum (pos : Prop) (ρ : Nat → Int) (v : Int) (m : Measure) (e : SymbolicExpr) : Prop where
  eval    : e.eval ρ = v
  wf      : e.Wf pos ρ
  folded  : e.Folded
  measure : e.addend ≤ m

theorem foldl_add_sum (h : Summands pos ρ v m (e :: exprs)) : Sum pos ρ v m (exprs.foldl add e) := by
  induction exprs generalizing e
  case nil =>
    exact ⟨by simpa using h.eval, h.wf e (by simp), h.folded e (by simp), by simpa using h.measure⟩
  case cons x xs hi =>
    refine hi {
      eval    := by simpa [add_assoc] using h.eval
      measure := ?_
      wf      := ?_
      folded  := ?_
    }
    · refine le_trans ?_ h.measure
      simp only [List.map_cons, List.sum_cons, ← add_assoc]
      exact add_le_add_left (addend_add_le ..) _
    · have hd := h.wf
      simp only [List.mem_cons, forall_eq_or_imp] at hd ⊢
      exact ⟨wf_add hd.1 hd.2.1, hd.2.2⟩
    · have hf := h.folded
      simp only [List.mem_cons, forall_eq_or_imp] at hf ⊢
      exact ⟨folded_createBinaryOp hf.1 hf.2.1, hf.2.2⟩

theorem sumExprs_sum (h : Summands pos ρ v m exprs) (hm : (const 0).addend ≤ m) :
    Sum pos ρ v m (sumExprs exprs) := by
  have h := h.perm <| exprs.perm_insertionSort fun a b => ¬b.lt a
  simp only [sumExprs]
  split
  case h_1 he =>
    rw [he] at h
    exact ⟨h.eval, trivial, trivial, hm⟩
  case h_2 he =>
    rw [he] at h
    exact foldl_add_sum h

end Sum

section Combine

variable {s₀ : Terms} {w : Nat}

-- The invariant of the pass that combines divisions and remainders.
structure Combining (pos : Prop) (ρ : Nat → Int) (s₀ : Terms) (s : Combined) : Prop where
  exprs : ∃ v m, Summands pos ρ v m s.exprs ∧ s.termMap.eval ρ + v = s₀.eval ρ ∧
    s.termMap.measure + m ≤ s₀.measure ∧ (s.changed → s.termMap.measure + m < s₀.measure)
  bases : s.termMap.bases = s₀.bases

-- Replaces the terms `(x floordiv c) * (c * y)` and `(x mod c) * y` by `x * y`.
theorem Combining.step {s : Combined} (hs : Combining pos ρ s₀ s) (hn : s₀.bases.Nodup) (hc₀ : 0 < c)
    (hy₀ : y ≠ 0) (hb : s.termMap.find (binary .floorDiv x (const c)) = some (y * c))
    (hm : s.termMap.find modExpr = some y) (hmod : Canon pos ρ (x.mod (const c)) modExpr)
    (hexpr : Canon pos ρ (x.mul (const y)) expr) :
    Combining pos ρ s₀ {
      termMap := s.termMap.set (binary .floorDiv x (const c)) 0 |>.set modExpr 0
      exprs   := s.exprs ++ [expr]
      changed := true
    } := by
  rw [← hs.bases] at hn
  obtain ⟨⟨v, m, hsum, hv, hle, -⟩, hbases⟩ := hs
  have hne : modExpr ≠ binary .floorDiv x (const c) := by
    rintro rfl
    -- The remainder of a division by one is a constant.
    have hy : y * c = y * 1 := by rw [mul_one]; exact Option.some.inj (hb.symm.trans hm)
    have hc₁ : c = 1 := mul_left_cancel₀ hy₀ hy
    have hx : (x.mod (const c)).isConst := by simp [hc₁, mod]
    exact absurd (isConst_of_measure_le hmod.measure hx) (by simp)
  have hn' := Terms.bases_set s.termMap (binary .floorDiv x (const c)) 0 ▸ hn
  have hm' := (Terms.find_set_of_ne (v := 0) hne).trans hm
  have hlt : expr.addend < termMeasure (binary .floorDiv x (const c), y * c) := by
    have hw := weight_mul_le x (const y)
    have hx₀ := x.weight_pos
    simp only [weight, mul_one] at hw
    refine lt_of_lt_of_le ?_ <| addend_le_termMeasure <| mul_ne_zero hy₀ hc₀.ne'
    refine addend_lt_addend_iff.mpr <| hexpr.measure.trans_lt <| measure_lt_of_weight_lt ?_
    simp only [weight]
    omega
  have hlt : (s.termMap.set (binary .floorDiv x (const c)) 0 |>.set modExpr 0).measure +
      (m + expr.addend) < s₀.measure := by
    have he₁ := Terms.sum_set termMeasure hn hb 0
    have he₂ := Terms.sum_set termMeasure hn' hm' 0
    simp only [termMeasure_zero, add_zero] at he₁ he₂
    refine lt_of_lt_of_le ?_ hle
    rw [Terms.measure, Terms.measure, ← he₁, ← he₂]
    generalize List.sum (List.map termMeasure (Terms.set _ modExpr 0)) = M
    calc
      M + (m + expr.addend)
      _ < M + (m + termMeasure (binary .floorDiv x (const c), y * c)) := by gcongr
      _ ≤ M + (m + termMeasure (binary .floorDiv x (const c), y * c)) + termMeasure (modExpr, y) :=
        le_add_of_nonneg_right <| Measure.zero_le _
      _ = _ := by abel
  refine ⟨⟨v + expr.eval ρ, m + expr.addend, ?_, ?_, hlt.le, fun _ => hlt⟩, ?_⟩
  · exact hsum.append <| .singleton hexpr.wf hexpr.folded le_rfl
  · have he₁ := Terms.sum_set (fun t => t.1.eval ρ * t.2) hn hb 0
    have he₂ := Terms.sum_set (fun t => t.1.eval ρ * t.2) hn' hm' 0
    have hx := Int.mul_fdiv_add_fmod (x.eval ρ) c
    simp only [hexpr.eval, hmod.eval, eval_mod, eval_mul, eval_binary, eval_const, BinaryOp.eval,
      modulo_eq_emod hc₀.ne', ← Int.fmod_eq_emod_of_nonneg _ hc₀.le] at he₁ he₂ ⊢
    simp only [Terms.eval] at hv ⊢
    linear_combination he₁ + he₂ + hv - y * hx
  · rw [Terms.bases_set, Terms.bases_set, hbases]

theorem combineFloorDivAndMod_combining (h : Recursive pos ρ rec e) (hw : w < e.weight)
    (hb : ∀ b ∈ s₀.bases, Terms.Base pos ρ w b) (hn : s₀.bases.Nodup) (hs : Combining pos ρ s₀ s) :
    Computes (fun n => combineFloorDivAndMod (rec n) bases s) (Combining pos ρ s₀) := by
  induction bases generalizing s
  case nil => exact .pure hs
  case cons base bases hi =>
    by_cases hf : ∃ x c value, base = binary .floorDiv x (const c) ∧ s.termMap.find base = some value
    case neg =>
      have hf x c value (h₁ : base = binary .floorDiv x (const c))
        (h₂ : s.termMap.find base = some value) : False := hf ⟨x, c, value, h₁, h₂⟩
      simp only [combineFloorDivAndMod]
      exact hi hs
    case pos =>
      obtain ⟨x, c, value, rfl, hf⟩ := hf
      simp only [combineFloorDivAndMod, hf]
      have hbase := hb _ <| hs.bases ▸ Terms.mem_bases_of_find hf
      have hx := hbase.weight
      simp only [weight] at hx
      refine .ite (fun hv => ?_) fun _ => hi hs
      have hy := Int.tdiv_mul_cancel <| Int.dvd_of_tmod_eq_zero hv.2.2
      have hy₀ : value.tdiv c ≠ 0 := fun h => hv.1 <| by rw [← hy, h, zero_mul]
      generalize value.tdiv c = y at hy hy₀
      subst hy
      have hw₁ := weight_mod_le x (const c)
      have hw₂ := weight_mul_le x (const y)
      have hx₀ := x.weight_pos
      simp only [weight, mul_one] at hw₁ hw₂
      have hmod := h (x.mod (const c)) (measure_lt_of_weight_lt <| by omega) <|
        wf_mod hbase.wf.1 (.of_pos hv.2.1)
      refine hmod.bind fun modExpr hmod => .ite (fun hm => ?_) fun _ => hi hs
      have hexpr := h (x.mul (const y)) (measure_lt_of_weight_lt <| by omega) <|
        wf_mul hbase.wf.1 trivial
      exact hexpr.bind fun expr hexpr => hi <| hs.step hn hv.2.1 hy₀ hf hm hmod hexpr

theorem scaleTerms_summands (h : Recursive pos ρ rec e) (hw : w < e.weight)
    (hb : ∀ b ∈ m.bases, Terms.Base pos ρ w b) :
    Computes (fun n => scaleTerms (rec n) m) (Summands pos ρ (m.eval ρ) m.measure) := by
  induction m
  case nil => exact .pure ⟨rfl, le_rfl, by simp, by simp⟩
  case cons t ts hi =>
    obtain ⟨b, c⟩ := t
    rw [Terms.bases_cons, List.forall_mem_cons] at hb
    refine .ite (fun hc => ?_) fun hc => ?_
    · have hw' := weight_mul_le b (const c)
      have hb' : b.weight ≤ w := hb.1.weight
      simp only [weight, mul_one] at hw'
      have hexpr := h (b.mul (const c)) (measure_lt_of_weight_lt <| by omega) <|
        wf_mul hb.1.wf trivial
      refine hexpr.bind fun expr hexpr => (hi hb.2).bind fun exprs hexprs => .pure ?_
      rw [Terms.eval_cons, Terms.measure_cons]
      have hs : Summands pos ρ (b.eval ρ * c) (termMeasure (b, c)) [expr] := by
        have ha := (addend_le_addend_iff.mpr hexpr.measure).trans (addend_mul_le hc)
        simpa [hexpr.eval] using Summands.singleton hexpr.wf hexpr.folded ha
      exact hs.append hexprs
    · simpa [not_not.mp hc] using hi hb.2

theorem constructExprs_spec (h : Recursive pos ρ rec e) (hw : w < e.weight)
    (hb : ∀ b ∈ m.bases, Terms.Base pos ρ w b) (hn : m.bases.Nodup) :
    Computes (fun n => constructExprsCombiningFloorDivAndMod (rec n) m) (fun r =>
      ∃ M, Summands pos ρ (m.eval ρ) M r.1 ∧ M ≤ m.measure ∧ (r.2 → M < m.measure)) := by
  have hs : Combining pos ρ m ⟨m, [], false⟩ := ⟨⟨0, 0, ⟨rfl, le_rfl, by simp, by simp⟩, by simp⟩, rfl⟩
  refine (combineFloorDivAndMod_combining h hw hb hn hs).bind fun s hs => ?_
  obtain ⟨⟨v, M, hsum, hv, hle, hlt⟩, hbases⟩ := hs
  refine (scaleTerms_summands h hw (hbases ▸ hb)).bind fun exprs hexprs => .pure ?_
  refine ⟨_, ?_, add_comm M _ ▸ hle, add_comm M _ ▸ hlt⟩
  rw [← hv, add_comm]
  exact hsum.append hexprs

end Combine

theorem Summands.add_const (h : Summands pos ρ v m exprs) (c : Int) :
    Summands pos ρ (c + v) (m + Terms.constMeasure c)
      (if c ≠ 0 then exprs ++ [const c] else exprs) := by
  split
  case isTrue hc =>
    rw [add_comm c]
    exact h.append <| .singleton (e := const c) trivial trivial (if_neg hc).ge
  case isFalse hc => simpa [not_not.mp hc, Terms.constMeasure] using h

-- The terms that are collected from a sum.
structure Collects (pos : Prop) (ρ : Nat → Int) (l r : SymbolicExpr) (c : Int × Terms) : Prop where
  eval    : c.1 + c.2.eval ρ = (binary .add l r).eval ρ
  measure : c.2.measure + Terms.constMeasure c.1 ≤ (binary .add l r).addend
  base    : ∀ b ∈ c.2.bases, Terms.Base pos ρ (l.weight + r.weight) b
  nodup   : c.2.bases.Nodup

theorem collect_collects (hd : (binary .add l r).Wf pos ρ) (hf : (binary .add l r).Folded) :
    Collects pos ρ l r
      (Terms.collect (Terms.merge (Terms.sort (l.extractTerms ++ r.extractTerms))) 0 []) := by
  generalize ht : (l.extractTerms ++ r.extractTerms : Terms) = terms
  have hp := terms.sort_perm
  have hc := terms.sort.merge.collect_collected (ρ := ρ) 0 (m := []) List.nodup_nil
  refine {
    eval    := ?_
    measure := ?_
    base    := fun b hb => ?_
    nodup   := hc.nodup
  }
  · rw [hc.eval, Terms.eval_merge, Terms.eval_perm hp, ← ht]
    simp [Terms.eval_extractTerms, BinaryOp.eval]
  · calc
      _ ≤ _ + Terms.constMeasure 0 + terms.sort.merge.measure := hc.measure
      _ = terms.sort.merge.measure                            := by simp [Terms.constMeasure]
      _ ≤ terms.sort.measure                                  := Terms.measure_merge_le _
      _ = l.extractTerms.measure + r.extractTerms.measure     := by
        rw [Terms.measure_perm hp, ← ht, Terms.measure_append]
      _ ≤ l.addend + r.addend                                 :=
        add_le_add (Terms.measure_extractTerms_le hf.1) (Terms.measure_extractTerms_le hf.2.1)
      _ = (binary .add l r).addend                            := (addend_add l r).symm
  · cases hc.bases b hb
    case inl h => contradiction
    case inr h =>
      have h := (Terms.bases_perm hp).mem_iff.mp <| Terms.bases_merge _ h.1
      rw [← ht, Terms.bases_append, List.mem_append] at h
      cases h
      case inl h => exact (Terms.base_extractTerms hd.1 hf.1 h).mono (by omega)
      case inr h => exact (Terms.base_extractTerms hd.2.1 hf.2.1 h).mono (by omega)

theorem canonicalizeAdd_canon (o : IterationOrder) (h : Recursive pos ρ rec (binary .add l r))
    (hd : (binary .add l r).Wf pos ρ) (hf : (binary .add l r).Folded) :
    Computes (fun n => canonicalizeAdd o (rec n) l r) (Canon pos ρ (binary .add l r)) := by
  have hc := collect_collects hd hf
  simp only [canonicalizeAdd]
  generalize Terms.collect _ 0 [] = collected at *
  obtain ⟨constVal, termMap⟩ := collected
  have hp := o.perm termMap
  have hbases := Terms.bases_perm hp
  have hexprs := constructExprs_spec (m := o.order termMap) h
    (show l.weight + r.weight < (binary .add l r).weight by simp [weight])
    (fun b hb => hc.base b <| hbases.mem_iff.mp hb) (hbases.nodup_iff.mpr hc.nodup)
  refine hexprs.bind fun r hr => ?_
  obtain ⟨exprs, changed⟩ := r
  obtain ⟨M, hsum, hle, hlt⟩ := hr
  rw [Terms.eval_perm hp] at hsum
  rw [Terms.measure_perm hp] at hle hlt
  have h₀ : (const 0).addend < (binary .add l r).addend :=
    addend_lt_addend_iff.mpr <| measure_lt_of_weight_lt <| by
      have := l.weight_pos
      simp only [weight]
      omega
  have hs := sumExprs_sum ((hsum.add_const constVal).mono <| le_max_left _ (const 0).addend)
    (le_max_right ..)
  refine .ite (fun hch => ?_) fun _ => .pure ?_
  · refine h.canon ?_ hs.wf (hs.eval.trans hc.eval)
    refine addend_lt_addend_iff.mp <| hs.measure.trans_lt <| max_lt ?_ h₀
    exact lt_of_lt_of_le (add_lt_add_left (hlt hch) _) hc.measure
  · refine ⟨hs.eval.trans hc.eval, hs.wf, hs.folded, ?_⟩
    refine addend_le_addend_iff.mp <| hs.measure.trans <| max_le ?_ h₀.le
    exact (add_le_add_left hle _).trans hc.measure

end Symbolic
