import XlaModel.Symbolic.Theorems.Operators

namespace Symbolic
namespace SymbolicExpr

-- The measure of an operand of a sum.
def addend (e : SymbolicExpr) : Measure :=
  toLex (e.weight + 1, toLex (e.divisors, e.size + 2))

theorem addend_add (l r : SymbolicExpr) : (binary .add l r).addend = l.addend + r.addend := by
  refine le_antisymm ?_ ?_
  all_goals
    simp only [addend, Measure.mk_add_mk, weight, divisors, BinaryOp.isDivision, size,
      Bool.false_eq_true, ↓reduceIte]
    rw [Measure.mk_le_mk]
    omega

theorem addend_le_addend_iff {e e' : SymbolicExpr} :
    e.addend ≤ e'.addend ↔ e.measure ≤ e'.measure := by
  rw [addend, addend, Measure.mk_le_mk, measure_le_iff]
  omega

theorem addend_lt_addend_iff {e e' : SymbolicExpr} :
    e.addend < e'.addend ↔ e.measure < e'.measure := by
  rw [addend, addend, Measure.mk_lt_mk, measure_lt_iff]
  omega

theorem addend_add_le (l r : SymbolicExpr) : (l.add r).addend ≤ l.addend + r.addend :=
  addend_add l r ▸ addend_le_addend_iff.mpr (measure_createBinaryOp_le ..)

end SymbolicExpr

open SymbolicExpr

-- The measure of a term that has been extracted from a sum.
def termMeasure (t : SymbolicExpr × Int) : Measure :=
  if t.2 = 0 then 0
  else if t.2 = 1 then t.1.addend
  else toLex (t.1.weight + 1, toLex (t.1.divisors, 2 * t.1.size + 3))

@[simp]
theorem termMeasure_zero (b : SymbolicExpr) : termMeasure (b, 0) = 0 := rfl

theorem addend_le_termMeasure {b : SymbolicExpr} (h : c ≠ 0) : b.addend ≤ termMeasure (b, c) := by
  simp only [termMeasure, h, ↓reduceIte]
  split
  case isTrue  => rfl
  case isFalse =>
    rw [addend, Measure.mk_le_mk]
    omega

theorem termMeasure_le (b : SymbolicExpr) (c : Int) :
    termMeasure (b, c) ≤ toLex (b.weight + 1, toLex (b.divisors, 2 * b.size + 3)) := by
  simp only [termMeasure]
  split
  case isTrue  => exact Measure.zero_le _
  case isFalse =>
    split
    case isTrue  =>
      rw [addend, Measure.mk_le_mk]
      omega
    case isFalse => rfl

theorem addend_mul_le {b : SymbolicExpr} (h : c ≠ 0) :
    (b.mul (const c)).addend ≤ termMeasure (b, c) := by
  simp only [termMeasure, h, ↓reduceIte]
  split
  case isTrue h  => simp [h]
  case isFalse =>
    have h := measure_mul_const_le b c
    rw [SymbolicExpr.measure, Measure.mk_le_mk] at h
    rw [addend, Measure.mk_le_mk]
    omega

theorem termMeasure_add_le (b : SymbolicExpr) (c₁ c₂ : Int) :
    termMeasure (b, c₁ + c₂) ≤ termMeasure (b, c₁) + termMeasure (b, c₂) := by
  by_cases h₁ : c₁ = 0
  case pos => simp [h₁]
  case neg =>
    by_cases h₂ : c₂ = 0
    case pos => simp [h₂]
    case neg =>
      refine (termMeasure_le b _).trans ?_
      refine le_trans ?_ <| add_le_add (addend_le_termMeasure h₁) (addend_le_termMeasure h₂)
      rw [addend, Measure.mk_add_mk, Measure.mk_le_mk]
      omega

section Extract

variable {pos : Prop} {ρ : Nat → Int} {e : SymbolicExpr}

theorem eval_getBaseAndCoeff (e : SymbolicExpr) :
    e.getBaseAndCoeff.1.eval ρ * e.getBaseAndCoeff.2 = e.eval ρ := by
  fun_induction getBaseAndCoeff e
  case case1 l c h => simp [← h, BinaryOp.eval, mul_assoc]
  case case2       => simp

theorem wf_getBaseAndCoeff (h : e.Wf pos ρ) : e.getBaseAndCoeff.1.Wf pos ρ := by
  fun_induction getBaseAndCoeff e
  case case1 hi => exact hi h.1
  case case2    => exact h

theorem folded_getBaseAndCoeff (h : e.Folded) : e.getBaseAndCoeff.1.Folded := by
  fun_induction getBaseAndCoeff e
  case case1 hi => exact hi h.1
  case case2    => exact h

theorem measure_getBaseAndCoeff_le (e : SymbolicExpr) :
    e.getBaseAndCoeff.1.measure ≤ e.measure := by
  fun_induction getBaseAndCoeff e
  case case1 hi => exact hi.trans (measure_lt_mul_const ..).le
  case case2    => rfl

theorem termMeasure_getBaseAndCoeff_le (h : e.Folded) :
    termMeasure e.getBaseAndCoeff ≤ e.addend := by
  fun_cases getBaseAndCoeff e
  case case2 => simp [termMeasure]
  case case1 l c =>
    have hl : l.isConst = false := Bool.eq_false_iff.mpr fun hc => h.2.2 ⟨hc, rfl⟩
    have hm := measure_le_iff.mp <| measure_getBaseAndCoeff_le l
    have ha : (binary .mul l (const c)).addend =
        toLex (l.weight + 1, toLex (l.divisors, 2 * l.size + 3)) := by
      simp [addend, weight, divisors, BinaryOp.isDivision, size, hl]
    refine ha ▸ (termMeasure_le ..).trans ?_
    rw [Measure.mk_le_mk]
    omega

end Extract

namespace Terms

variable {pos : Prop} {ρ : Nat → Int}

def eval (ρ : Nat → Int) (ts : Terms) : Int :=
  (ts.map fun t => t.1.eval ρ * t.2).sum

def measure (ts : Terms) : Measure :=
  (ts.map termMeasure).sum

def bases (ts : Terms) : List SymbolicExpr :=
  ts.map (·.1)

@[simp] theorem eval_nil : eval ρ [] = 0 := rfl
@[simp] theorem eval_cons : eval ρ (t :: ts) = t.1.eval ρ * t.2 + eval ρ ts := by simp [eval]
@[simp] theorem eval_append : eval ρ (ts₁ ++ ts₂) = eval ρ ts₁ + eval ρ ts₂ := by simp [eval]
@[simp] theorem measure_nil : measure [] = 0 := rfl
@[simp] theorem measure_cons : measure (t :: ts) = termMeasure t + measure ts := by simp [measure]
@[simp] theorem measure_append : measure (ts₁ ++ ts₂) = measure ts₁ + measure ts₂ := by
  simp [measure]
@[simp] theorem bases_nil : bases [] = [] := rfl
@[simp] theorem bases_cons : bases (t :: ts) = t.1 :: bases ts := rfl
@[simp] theorem bases_append : bases (ts₁ ++ ts₂) = bases ts₁ ++ bases ts₂ := by simp [bases]

theorem eval_perm (h : ts₁.Perm ts₂) : eval ρ ts₁ = eval ρ ts₂ :=
  (h.map _).sum_eq

theorem measure_perm (h : ts₁.Perm ts₂) : measure ts₁ = measure ts₂ :=
  (h.map _).sum_eq

theorem bases_perm (h : ts₁.Perm ts₂) : (bases ts₁).Perm (bases ts₂) :=
  h.map _

section Extract

variable {e : SymbolicExpr}

theorem eval_extractTerms (e : SymbolicExpr) : e.extractTerms.eval ρ = e.eval ρ := by
  fun_induction extractTerms e
  case case1 hl hr => simp [hl, hr, BinaryOp.eval]
  case case2       => simp [eval_getBaseAndCoeff]

theorem measure_extractTerms_le (h : e.Folded) : e.extractTerms.measure ≤ e.addend := by
  fun_induction extractTerms e
  case case1 l r hl hr =>
    rw [measure_append, addend_add]
    exact add_le_add (hl h.1) (hr h.2.1)
  case case2 => simpa using termMeasure_getBaseAndCoeff_le h

-- The bases of the terms of a sum can be handled recursively.
structure Base (pos : Prop) (ρ : Nat → Int) (w : Nat) (b : SymbolicExpr) : Prop where
  wf      : b.Wf pos ρ
  folded  : b.Folded
  weight  : b.weight ≤ w

theorem Base.mono (h : Base pos ρ w b) (hw : w ≤ w') : Base pos ρ w' b :=
  { h with weight := h.weight.trans hw }

theorem base_extractTerms (hd : e.Wf pos ρ) (hf : e.Folded) (h : b ∈ e.extractTerms.bases) :
    Base pos ρ e.weight b := by
  fun_induction extractTerms e
  case case1 l r hl hr =>
    rw [bases_append, List.mem_append] at h
    cases h
    case inl h => exact (hl hd.1 hf.1 h).mono (by simp only [weight]; omega)
    case inr h => exact (hr hd.2.1 hf.2.1 h).mono (by simp only [weight]; omega)
  case case2 e _ =>
    obtain rfl : b = e.getBaseAndCoeff.1 := by simpa using h
    exact ⟨wf_getBaseAndCoeff hd, folded_getBaseAndCoeff hf,
      weight_le_of_measure_le <| measure_getBaseAndCoeff_le e⟩

end Extract

section Collect

theorem sort_perm (ts : Terms) : ts.sort.Perm ts :=
  List.perm_insertionSort ..

theorem eval_merge (ts : Terms) : ts.merge.eval ρ = ts.eval ρ := by
  fun_induction merge ts
  case case1 => rfl
  case case2 h hi =>
    rw [h, eval_cons] at hi
    rw [eval_cons, eval_cons, ← hi]
    ring
  case case3 h _ hi => simp [← hi, h]
  case case4 h hi   => simp [← hi, h]

theorem measure_merge_le (ts : Terms) : ts.merge.measure ≤ ts.measure := by
  fun_induction merge ts
  case case1 => rfl
  case case2 c ts b c' ts' h hi =>
    rw [h, measure_cons] at hi
    rw [measure_cons, measure_cons]
    calc
      termMeasure (b, c + c') + measure ts'
      _ ≤ termMeasure (b, c) + termMeasure (b, c') + measure ts'   :=
        add_le_add_left (termMeasure_add_le ..) _
      _ = termMeasure (b, c) + (termMeasure (b, c') + measure ts') := add_assoc ..
      _ ≤ termMeasure (b, c) + measure ts                          := add_le_add_right hi _
  case case3 h _ hi => exact measure_cons ▸ measure_cons ▸ add_le_add_right (h ▸ hi) _
  case case4 h hi   => exact measure_cons ▸ measure_cons ▸ add_le_add_right (h ▸ hi) _

theorem bases_merge (ts : Terms) : ts.merge.bases ⊆ ts.bases := by
  fun_induction merge ts <;> simp_all

section TermMap

variable {m : Terms}

theorem bases_set (m : Terms) (b : SymbolicExpr) (v : Int) : (m.set b v).bases = m.bases := by
  simp only [bases, set, List.map_map, List.map_inj_left, Function.comp_apply]
  intro t _
  split <;> simp_all

theorem find_cons : find (t :: m) b = if b = t.1 then some t.2 else find m b := by
  obtain ⟨k, v⟩ := t
  simp only [find, List.lookup_cons]
  split <;> simp_all

theorem set_cons : set (t :: m) b v = (if t.1 = b then (b, v) else t) :: set m b v :=
  List.map_cons ..

theorem find_eq_none_iff : m.find b = none ↔ b ∉ m.bases := by
  induction m
  case nil          => simp [find]
  case cons t ts hi =>
    rw [find_cons, bases_cons, List.mem_cons, not_or, ← hi]
    by_cases h : b = t.1 <;> simp [h]

theorem mem_bases_of_find (h : m.find b = some v) : b ∈ m.bases := by
  by_contra hb
  exact nomatch h ▸ find_eq_none_iff.mpr hb

theorem find_set_of_ne (h : b' ≠ b) : (m.set b v).find b' = m.find b' := by
  induction m
  case nil => rfl
  case cons t ts hi =>
    rw [set_cons, find_cons, find_cons, hi]
    by_cases ht : t.1 = b
    case pos => simp [ht, h]
    case neg => simp [ht]

theorem set_of_not_mem (h : b ∉ m.bases) : m.set b v = m := by
  induction m
  case nil => rfl
  case cons t ts hi =>
    rw [bases_cons, List.mem_cons, not_or] at h
    rw [set_cons, if_neg (Ne.symm h.1), hi h.2]

theorem sum_set [AddCommMonoid A] (f : SymbolicExpr × Int → A) (hn : m.bases.Nodup)
    (hf : m.find b = some v) (w : Int) :
    ((m.set b w).map f).sum + f (b, v) = (m.map f).sum + f (b, w) := by
  induction m
  case nil => contradiction
  case cons t ts hi =>
    rw [bases_cons, List.nodup_cons] at hn
    rw [find_cons] at hf
    rw [set_cons, List.map_cons, List.map_cons, List.sum_cons, List.sum_cons]
    by_cases ht : b = t.1
    case pos =>
      rw [if_pos ht] at hf
      obtain ⟨k, u⟩ := t
      obtain rfl : b = k := ht
      obtain rfl : u = v := Option.some.inj hf
      rw [if_pos rfl, set_of_not_mem hn.1]
      abel
    case neg =>
      rw [if_neg ht] at hf
      rw [if_neg (Ne.symm ht), add_assoc, hi hn.2 hf, add_assoc]

theorem eval_addTo (hn : m.bases.Nodup) : (m.addTo b c).eval ρ = m.eval ρ + b.eval ρ * c := by
  simp only [addTo]
  split
  case h_2 => simp
  case h_1 v h =>
    have hs := sum_set (fun t => t.1.eval ρ * t.2) hn h (v + c)
    simp only [mul_add] at hs
    simp only [eval]
    linarith

theorem measure_addTo_le (hn : m.bases.Nodup) :
    (m.addTo b c).measure ≤ m.measure + termMeasure (b, c) := by
  simp only [addTo]
  split
  case h_2 => simp
  case h_1 v h =>
    have hs := sum_set termMeasure hn h (v + c)
    refine le_of_add_le_add_right (a := termMeasure (b, v)) ?_
    rw [measure, hs, add_assoc, measure, add_comm (termMeasure (b, c))]
    exact add_le_add_right (termMeasure_add_le ..) _

theorem bases_addTo (m : Terms) (b : SymbolicExpr) (c : Int) :
    (m.addTo b c).bases = if b ∈ m.bases then m.bases else m.bases ++ [b] := by
  simp only [addTo]
  split
  case h_1 h => simp [bases_set, mem_bases_of_find h]
  case h_2 h => simp [find_eq_none_iff.mp h]

end TermMap

def constMeasure (v : Int) : Measure :=
  if v = 0 then 0 else (const v).addend

theorem constMeasure_add_le (v w : Int) (hc : c ≠ 0) :
    constMeasure (v + w * c) ≤ constMeasure v + termMeasure (const w, c) := by
  by_cases h : v + w * c = 0
  case pos => simpa [h, constMeasure] using Measure.zero_le _
  case neg =>
    calc
      constMeasure (v + w * c)
      _ = (const w).addend                            := if_neg h
      _ ≤ termMeasure (const w, c)                    := addend_le_termMeasure hc
      _ ≤ constMeasure v + termMeasure (const w, c)   := le_add_of_nonneg_left <| Measure.zero_le _

structure Collected (ρ : Nat → Int) (ts : Terms) (v : Int) (m : Terms) (r : Int × Terms) : Prop where
  eval    : r.1 + r.2.eval ρ = v + m.eval ρ + ts.eval ρ
  measure : r.2.measure + constMeasure r.1 ≤ m.measure + constMeasure v + ts.measure
  bases   : ∀ b ∈ r.2.bases, b ∈ m.bases ∨ b ∈ ts.bases ∧ b.isConst = false
  nodup   : r.2.bases.Nodup

theorem collect_collected (ts : Terms) (v : Int) {m : Terms} (h : m.bases.Nodup) :
    Collected ρ ts v m (ts.collect v m) := by
  fun_induction collect ts v m
  case case1 => exact ⟨by simp, by simp, fun _ => .inl, h⟩
  case case2 b ts v m hi =>
    have hi := hi h
    exact {
      eval    := by simpa using hi.eval
      measure := by simpa using hi.measure
      bases   := fun b hb => (hi.bases b hb).imp_right (.imp_left <| List.mem_cons_of_mem _)
      nodup   := hi.nodup
    }
  case case3 c ts v m hc w hi =>
    have hi := hi h
    refine {
      eval    := ?_
      measure := ?_
      bases   := fun b hb => (hi.bases b hb).imp_right (.imp_left <| List.mem_cons_of_mem _)
      nodup   := hi.nodup
    }
    · rw [hi.eval, eval_cons, eval_const]
      ring
    · rw [measure_cons, ← add_assoc, add_assoc m.measure]
      refine hi.measure.trans ?_
      gcongr
      exact constMeasure_add_le v w hc
  case case4 b c ts v m hc hb hi =>
    have hbases (b') : b' ∈ (m.addTo b c).bases → b' = b ∨ b' ∈ m.bases := by
      rw [bases_addTo]
      split <;> simp +contextual [or_comm]
    have hi := hi <| by
      rw [bases_addTo]
      split
      case isTrue  => exact h
      case isFalse hn => exact List.nodup_append.mpr ⟨h, List.nodup_singleton _, by grind⟩
    refine {
      eval    := ?_
      measure := ?_
      bases   := fun b' hb' => ?_
      nodup   := hi.nodup
    }
    · rw [hi.eval, eval_addTo h, eval_cons]
      ring
    · rw [measure_cons, ← add_assoc, add_right_comm m.measure]
      refine hi.measure.trans ?_
      gcongr
      exact measure_addTo_le h
    · cases hi.bases b' hb'
      case inr h => exact .inr <| h.imp_left <| List.mem_cons_of_mem _
      case inl h =>
        cases hbases b' h
        case inr h => exact .inl h
        case inl h =>
          have hc : b.isConst = false := Bool.eq_false_iff.mpr fun h =>
            have ⟨w, hw⟩ := eq_const_of_isConst h
            hb w hw
          exact .inr ⟨h ▸ List.mem_cons_self, h ▸ hc⟩

end Collect

end Terms

end Symbolic
