import XlaModel.WhileLoop.Basic
import XlaModel.WhileLoop.Range

namespace WhileLoop.HloComputation

variable {c : HloComputation} {index i j operand gte : Nat} {v : Int}

section Operands

theorem operand_lt (h : operand ∈ c.operands i) : operand < i := by
  by_cases hi : i < c.instructions.length
  case pos =>
    refine c.operands_lt i hi operand ?_
    simpa [operands, opcode, instruction, hi] using h
  case neg => simp [operands, opcode, instruction, hi, HloOpcode.operands] at h

theorem parameterInstruction_opcode : c.opcode c.parameterInstruction = .parameter := by
  have h := c.parameter_opcode
  rw [Option.map_eq_some_iff] at h
  obtain ⟨instr, h, ho⟩ := h
  rw [opcode, instruction, List.getD_eq_getElem?_getD, h, Option.getD_some, ho]

-- An instruction that reads the element `index` of the parameter.
def IsIndvar (c : HloComputation) (index i : Nat) : Prop :=
  c.opcode i = .getTupleElement c.parameterInstruction index

theorem isIndvar_of_indvar (h : c.indvar index = some gte) :
    c.IsIndvar index gte := by
  rw [indvar, getUniqueGteInstruction] at h
  split at h
  case h_1 hs =>
    obtain rfl := Option.some.inj h
    have hg := List.mem_filter.mp (hs ▸ List.mem_singleton_self _ :
      _ ∈ (c.users c.parameterInstruction).filter (c.isGte c.parameterInstruction index)) |>.2
    rw [isGte] at hg
    split at hg
    case h_1 ho =>
      obtain ⟨rfl, rfl⟩ : _ ∧ _ := by simpa using hg
      exact ho
    case h_2 => cases hg
  case h_2 => cases h

theorem IsIndvar.isConstant (h : c.IsIndvar index gte) : (c.opcode gte).isConstant = false := by
  rw [h]
  rfl

theorem isConstant_indvar (h : c.indvar index = some gte) : (c.opcode gte).isConstant = false :=
  (isIndvar_of_indvar h).isConstant

-- If there is only one such instruction, then `indvar` finds it.
theorem IsIndvar.eq_of_indvar (h : c.IsIndvar index i) (hg : c.indvar index = some gte) : i = gte := by
  have hi : i < c.instructions.length := by
    by_contra hi
    simp [IsIndvar, opcode, instruction, Nat.le_of_not_lt hi] at h
  have hm : i ∈ (c.users c.parameterInstruction).filter (c.isGte c.parameterInstruction index) := by
    rw [IsIndvar] at h
    simp [users, operands, isGte, h, hi, HloOpcode.operands]
  rw [indvar, getUniqueGteInstruction] at hg
  split at hg
  case h_1 hs =>
    obtain rfl := Option.some.inj hg
    simpa [hs] using hm
  case h_2 => cases hg

theorem trace_of_isConstant (h : (c.opcode i).isConstant) : c.trace i = i := by
  rw [trace, traceThroughCopyAndGteTupleChain]
  cases ho : c.opcode i <;> simp [ho, HloOpcode.isConstant] at h ⊢

-- The only operands are the induction variable and a constant, or twice the induction variable.
theorem nonConstantOperand_eq (ho : c.operands i = [gte, j] ∨ c.operands i = [j, gte])
    (hg : (c.opcode gte).isConstant = false) (hj : (c.opcode j).isConstant ∨ j = gte) :
    c.nonConstantOperand i = some gte := by
  rw [nonConstantOperand]
  obtain ho | ho := ho <;> obtain hj | rfl := hj <;> simp [NonConstantOperand.visit, *]

variable {lhs rhs instr : Nat} {op : Nat → Bool}

theorem matchAddAnyOrder_eq (ha : c.opcode i = .add lhs rhs) (hlr : lhs = gte ∧ rhs = instr ∨ lhs = instr ∧ rhs = gte)
    (ho : op instr) (hne : instr ≠ gte) : c.matchAddAnyOrder i gte op = some instr := by
  obtain ⟨rfl, rfl⟩ | ⟨rfl, rfl⟩ := hlr <;> simp [matchAddAnyOrder, ha, ho, hne]

theorem matchBinaryOperandsAnyOrder_eq (ha : c.operands i = [lhs, rhs])
    (hlr : lhs = gte ∧ rhs = instr ∨ lhs = instr ∧ rhs = gte) (ho : op instr) (hne : instr ≠ gte) :
    c.matchBinaryOperandsAnyOrder i gte op = some instr := by
  obtain ⟨rfl, rfl⟩ | ⟨rfl, rfl⟩ := hlr <;> simp [matchBinaryOperandsAnyOrder, ha, ho, hne]

theorem ne_of_isConstant (hi : (c.opcode i).isConstant) (hj : (c.opcode j).isConstant = false) : i ≠ j := by
  rintro rfl
  exact absurd (hi.symm.trans hj) (by simp)

end Operands

section Evaluate

-- The value of an instruction only depends on the values of smaller instructions.
theorem evaluateStep_congr {f g : Nat → Option Value} (h : ∀ j < i, f j = g j) :
    c.evaluateStep index v f i = c.evaluateStep index v g i := by
  have ho {operand : Nat} (hm : operand ∈ c.operands i) : f operand = g operand := h operand (operand_lt hm)
  rw [evaluateStep, evaluateStep]
  cases hi : c.opcode i <;> simp only [operands, hi, HloOpcode.operands] at ho ⊢
  case getTupleElement operand tupleIndex =>
    cases hop : c.opcode operand <;> simp only
    case tuple operands =>
      cases hm : operands[tupleIndex]?
      case none => rfl
      case some j =>
        have hj : j ∈ c.operands operand := by
          rw [HloComputation.operands, hop]
          exact List.mem_of_getElem? hm
        have hi' : operand < i := operand_lt (by rw [HloComputation.operands, hi]; exact List.mem_singleton_self _)
        exact h j ((operand_lt hj).trans hi')
  case copy | copyStart | copyDone => exact ho (List.mem_singleton_self _)
  case add | compare => rw [ho (.head _), ho (.tail _ (.head _))]

theorem evaluateWithin_eq {fuel : Nat} (h : i < fuel) : c.evaluateWithin index v fuel i = c.evaluate index v i := by
  induction i using Nat.strong_induction_on generalizing fuel
  case h i hi =>
    obtain _ | fuel := fuel
    case zero => cases h
    case succ =>
      refine evaluateStep_congr fun j hj => ?_
      rw [hi j hj (hj.trans_le (Nat.le_of_lt_succ h)), hi j hj hj]

theorem evaluate_eq : c.evaluate index v i = c.evaluateStep index v (c.evaluate index v) i :=
  evaluateStep_congr fun _ hj => evaluateWithin_eq hj

theorem IsIndvar.evaluate (h : c.IsIndvar index i) : c.evaluate index v i = some (.int v) := by
  rw [evaluate_eq, evaluateStep, h]
  simp [parameterInstruction_opcode]

theorem evaluate_indvar (h : c.indvar index = some gte) : c.evaluate index v gte = some (.int v) :=
  (isIndvar_of_indvar h).evaluate

theorem evaluate_constant {l : Literal} {a : Int} (h : c.opcode i = .constant l)
    (hl : l.literalAsScalarInt64 = some a) : c.evaluate index v i = some (.int a) := by
  rw [evaluate_eq, evaluateStep, h]
  simp only [Literal.literalAsScalarInt64, Literal.getFirstInteger, int64] at hl
  simp only [Literal.value]
  split_ifs at hl ⊢ <;> simp_all

-- The instructions of a chain have the same value.
theorem evaluate_traceThroughCopyAndGteTupleChain (fuel : Nat) :
    c.evaluate index v (c.traceThroughCopyAndGteTupleChain fuel i) = c.evaluate index v i := by
  induction fuel generalizing i
  case zero => rfl
  case succ fuel hi =>
    rw [traceThroughCopyAndGteTupleChain]
    cases ho : c.opcode i <;> simp only
    case getTupleElement operand tupleIndex =>
      cases hop : c.opcode operand <;> simp only
      case tuple operands =>
        rw [hi]
        cases hm : operands[tupleIndex]?
        case none   => simp [hm]
        case some j =>
          conv_rhs => rw [evaluate_eq, evaluateStep, ho]
          simp [hop, hm]
    case copy | copyStart | copyDone =>
      rw [hi]
      conv_rhs => rw [evaluate_eq, evaluateStep, ho]

theorem evaluate_trace : c.evaluate index v (c.trace i) = c.evaluate index v i :=
  evaluate_traceThroughCopyAndGteTupleChain _

end Evaluate
end WhileLoop.HloComputation

namespace WhileLoop

open LoopRun

variable {a b bound init step n v x y : Int} {direction : ComparisonDirection} {values : List Int}

theorem holds_s64_iff : PrimitiveType.s64.Holds v ↔ -2 ^ 63 ≤ v ∧ v < 2 ^ 63 := by
  change -2 ^ 64 ≤ 2 * v ∧ 2 * v < 2 ^ 64 ↔ _
  omega

theorem int64_eq_some : int64 a = some b ↔ PrimitiveType.s64.Holds a ∧ a = b := by
  simp [int64]

theorem Literal.holds_of_literalAsScalarInt64 {l : Literal} (h : l.literalAsScalarInt64 = some a) :
    PrimitiveType.s64.Holds a := by
  rw [literalAsScalarInt64, getFirstInteger] at h
  split_ifs at h
  have := int64_eq_some.mp h
  exact this.2 ▸ this.1

theorem Literal.first_eq {l : Literal} (h : l.literalAsScalarInt64 = some a) :
    l.elementType.isIntegralType ∧ l.first = a := by
  rw [literalAsScalarInt64, getFirstInteger] at h
  split_ifs at h with _ ht
  exact ⟨ht, (int64_eq_some.mp h).2⟩

-- Whether the pattern match finds the number of iterations.
def TripCountExact (direction : ComparisonDirection) (init bound step : Int) : Prop :=
  let trips := bound - init
  match direction with
  | .lt =>
    ¬PrimitiveType.s64.Holds trips ∨ step ∣ trips ∨ (0 < trips ∧ trips / step + 1 < bound) ∨
    (trips < 0 ∧ (trips < -step ∨ bound ≤ 1))
  | .le => 0 ≤ trips ∨ trips ≤ -step
  | _   => True

namespace TripCount

theorem checkedAdd_eq (ha : PrimitiveType.s64.Holds a) (hb : PrimitiveType.s64.Holds b) :
    checkedAdd a b = int64 (a + b) := by
  simp only [holds_s64_iff, checkedAdd, wrap, int64] at *
  grind [Int.bmod_def]

theorem checkedSubtract_eq (ha : PrimitiveType.s64.Holds a) (hb : PrimitiveType.s64.Holds b) :
    checkedSubtract a b = int64 (a - b) := by
  simp only [holds_s64_iff, checkedSubtract, wrap, int64] at *
  grind [Int.bmod_def]

theorem remainder_eq_zero (hy : 0 < y) : remainder x y = 0 ↔ y ∣ x := by
  have := Int.emod_lt_of_pos x hy
  rw [remainder, Int.dvd_iff_emod_eq_zero]
  split_ifs with h
  case pos => rfl
  case neg => omega

section Tdiv

variable (hs : 0 < step)
include hs

theorem holds_tdiv (ha : PrimitiveType.s64.Holds a) : PrimitiveType.s64.Holds (a.tdiv step) := by
  rw [holds_s64_iff] at *
  have hle := Int.natAbs_tdiv_le_natAbs a step
  obtain h | h := Int.le_total 0 a
  case inl =>
    have := Int.tdiv_nonneg h hs.le
    omega
  case inr =>
    have := Int.tdiv_nonneg (Int.neg_nonneg_of_nonpos h) hs.le
    rw [Int.neg_tdiv] at this
    omega

-- The division rounds up for negative numbers.
theorem tdiv_eq (h : ¬step ∣ a) : a.tdiv step = a / step + if 0 < a then 0 else 1 := by
  have h₀ : a ≠ 0 := fun h₀ => h (h₀ ▸ Int.dvd_zero step)
  rw [Int.tdiv_eq_ediv, Int.sign_eq_one_of_pos hs]
  simp only [h, or_false]
  split_ifs <;> omega

theorem sub_one_ediv (h : ¬step ∣ a) : (a - 1) / step = a / step := by
  have hm := Int.mul_ediv_add_emod a step
  have hn : a % step ≠ 0 := fun h₀ => h (Int.dvd_of_emod_eq_zero h₀)
  have := Int.emod_nonneg a hs.ne'
  have := Int.emod_lt_of_pos a hs
  have ha : a - 1 = step * (a / step) + (a % step - 1) := by linarith
  rw [ha, Int.mul_add_ediv_left _ _ hs.ne', Int.ediv_eq_zero_of_lt (a := a % step - 1) (by omega) (by omega), add_zero]

theorem sub_one_ediv_of_dvd (h : step ∣ a) : (a - 1) / step = a / step - 1 := by
  obtain ⟨q, rfl⟩ := h
  have : (step * q - 1) = step * (q - 1) + (step - 1) := by ring
  rw [this, Int.mul_add_ediv_left _ _ hs.ne', Int.mul_ediv_cancel_left _ hs.ne',
    Int.ediv_eq_zero_of_lt (by omega) (by omega), add_zero]

end Tdiv

variable (hi : PrimitiveType.s64.Holds init) (hb : PrimitiveType.s64.Holds bound) (hs : 0 < step)
include hi hb hs

theorem lessThan_exact :
    (∀ n ∈ lessThan init bound step, n = max 0 ((bound - 1 - init) / step + 1)) ↔
      TripCountExact .lt init bound step := by
  have hc : bound - 1 - init = bound - init - 1 := by ring
  simp only [lessThan, checkedSubtract_eq hb hi, TripCountExact, hc]
  by_cases hd : PrimitiveType.s64.Holds (bound - init)
  case neg => simp [int64, hd]
  simp only [int64, hd, if_true, not_true_eq_false, false_or, Option.bind_eq_bind, Option.bind_some, remainder_eq_zero hs]
  generalize bound - init = trips at hd
  by_cases hv : step ∣ trips
  case pos => simp [hv, Int.tdiv_eq_ediv_of_dvd hv, sub_one_ediv_of_dvd hs hv]
  have h₀ : trips ≠ 0 := fun h => hv (h ▸ Int.dvd_zero step)
  have hn : 0 ≤ trips / step ↔ 0 ≤ trips := Int.ediv_nonneg_iff_of_pos hs
  have hl : -1 ≤ trips / step ↔ -step ≤ trips := by
    rw [Int.le_ediv_iff_mul_le hs]
    omega
  have hq : PrimitiveType.s64.Holds (trips.tdiv step) := holds_tdiv hs hd
  rw [checkedAdd_eq hq (by decide), tdiv_eq hs hv, sub_one_ediv hs hv]
  rw [tdiv_eq hs hv] at hq
  have hf : PrimitiveType.s64.Holds (trips / step + (if 0 < trips then 0 else 1) + 1) := by
    have h₁ : step ≠ 1 := fun h => hv (h ▸ Int.one_dvd trips)
    have hu : trips / step < 2 ^ 62 := (Int.ediv_lt_iff_lt_mul hs).mpr (by rw [holds_s64_iff] at hd; omega)
    have hl : -2 ^ 62 ≤ trips / step := (Int.le_ediv_iff_mul_le hs).mpr (by rw [holds_s64_iff] at hd; omega)
    rw [holds_s64_iff]
    split_ifs <;> omega
  simp only [int64, hf, hv, if_true, Option.bind_some, false_or, Option.pure_def]
  by_cases hp : 0 < trips <;> simp only [hp, if_true, if_false, add_zero]
  case pos =>
    by_cases hlt : trips / step + 1 < bound
    case pos => simp [hlt]
    case neg => simp [hlt]; omega
  case neg =>
    by_cases hlt : trips / step + 1 + 1 < bound <;> (simp [hlt]; omega)

theorem lessEqual_exact (hf : PrimitiveType.s64.Holds step) :
    (∀ n ∈ lessEqual init bound step, n = max 0 ((bound - init) / step + 1)) ↔ TripCountExact .le init bound step := by
  simp only [lessEqual, checkedSubtract_eq hb hi, TripCountExact]
  by_cases hd : PrimitiveType.s64.Holds (bound - init)
  case neg =>
    simp only [holds_s64_iff] at *
    simp only [int64, holds_s64_iff, hd, if_false, Option.bind_eq_bind, Option.bind_none, Option.mem_def, reduceCtorEq,
      false_implies, implies_true, true_iff]
    omega
  simp only [int64, hd, if_true, Option.bind_eq_bind, Option.bind_some]
  generalize bound - init = trips at hd
  have hn : 0 ≤ trips / step ↔ 0 ≤ trips := Int.ediv_nonneg_iff_of_pos hs
  have hl : -1 ≤ trips / step ↔ -step ≤ trips := by
    rw [Int.le_ediv_iff_mul_le hs]
    omega
  have hq := holds_tdiv hs hd
  rw [checkedAdd_eq hq (by decide)]
  by_cases hp : 0 ≤ trips
  case pos =>
    simp only [hp, true_or, iff_true, Int.tdiv_eq_ediv_of_nonneg hp]
    intro n hn
    obtain ⟨m, hm, hn⟩ := Option.bind_eq_some_iff.mp hn
    obtain ⟨-, rfl⟩ := int64_eq_some.mp hm
    exact (Option.some.inj hn).symm
  case neg =>
    have hlt : trips.tdiv step ≤ 0 := by
      have := Int.tdiv_nonneg (a := -trips) (by omega) hs.le
      rw [Int.neg_tdiv] at this
      omega
    have hh : PrimitiveType.s64.Holds (trips.tdiv step + 1) := by
      rw [holds_s64_iff] at *
      omega
    simp only [int64, hh, hp, if_true, false_or, Option.bind_some, Option.pure_def, Option.mem_def, Option.some.injEq,
      forall_eq']
    by_cases hv : step ∣ trips
    case pos =>
      have := Int.le_of_dvd (by omega) ((Int.dvd_neg).mpr hv)
      rw [Int.tdiv_eq_ediv_of_dvd hv]
      omega
    case neg =>
      have hne : trips ≠ -step := fun h => hv (h ▸ (Int.dvd_neg).mpr (Int.dvd_refl step))
      have hz : 0 ≤ trips / step + 1 ↔ -step ≤ trips := by rw [← hl]; omega
      rw [tdiv_eq hs hv, if_neg (by omega)]
      omega

end TripCount

-- The loop `i = init; while (i direction bound) i += step`.
structure WhileOp.IsLoop (w : WhileOp) (index : Nat) (direction : ComparisonDirection) (bound step : Int) : Prop where
  cond : ∃ indvar instr l, w.whileCondition.indvar index = some indvar ∧
    w.whileCondition.opcode w.whileCondition.rootInstruction = .compare direction indvar instr ∧
    w.whileCondition.opcode instr = .constant l ∧ l.literalAsScalarInt64 = some bound
  body : ∃ update lhs rhs indvar instr l, (w.whileBody.operands w.whileBody.rootInstruction)[index]? = some update ∧
    w.whileBody.opcode (w.whileBody.trace update) = .add lhs rhs ∧
    (lhs = indvar ∧ rhs = instr ∨ lhs = instr ∧ rhs = indvar) ∧
    w.whileBody.indvar index = some (w.whileBody.trace indvar) ∧
    w.whileBody.opcode instr = .constant l ∧ l.literalAsScalarInt64 = some step

namespace WhileOp

variable {w : WhileOp} {index : Nat} {indvarInit : Literal}

theorem IsLoop.linear (h : w.IsLoop index direction bound step) :
    Linear (w.condition index) (w.update index) (direction.compare · bound) step where
  cond a := by
    obtain ⟨indvar, instr, l, hi, hc, ho, hl⟩ := h.cond
    rw [condition, HloComputation.evaluate_eq, HloComputation.evaluateStep, hc]
    simp [HloComputation.evaluate_indvar hi, HloComputation.evaluate_constant ho hl]
  next a b hn := by
    obtain ⟨update, lhs, rhs, indvar, instr, l, hu, ha, hlr, hi, ho, hl⟩ := h.body
    have hv := HloComputation.evaluate_indvar (v := a) hi
    rw [HloComputation.evaluate_trace] at hv
    have hs : w.whileBody.evaluate index a instr = some (.int step) := HloComputation.evaluate_constant ho hl
    rw [WhileOp.update, hu, Option.bind_eq_bind, Option.bind_some, ← HloComputation.evaluate_trace,
      HloComputation.evaluate_eq, HloComputation.evaluateStep, ha] at hn
    obtain ⟨rfl, rfl⟩ | ⟨rfl, rfl⟩ := hlr <;> simp only [hv, hs] at hn <;> split_ifs at hn
    all_goals simp at hn; omega

theorem matchTrivialLoopTripCount_eq (h : w.IsLoop index direction bound step) (hs : 0 < step)
    (hi : indvarInit.literalAsScalarInt64 = some init) :
    matchTrivialLoopTripCount w index indvarInit = some (match direction with
      | .lt => TripCount.lessThan init bound step
      | .le => TripCount.lessEqual init bound step
      | _   => none) := by
  obtain ⟨update, lhs, rhs, indvar, instr, l, hu, ha, hlr, hv, ho, hl⟩ := h.body
  obtain ⟨indvar', instr', l', hv', hc', ho', hl'⟩ := h.cond
  have hk : (w.whileBody.opcode instr).isConstant := by rw [ho]; rfl
  have hk' : (w.whileCondition.opcode instr').isConstant := by rw [ho']; rfl
  have hb : (w.whileBody.opcode indvar).isConstant = false := by
    by_contra hb
    rw [HloComputation.trace_of_isConstant (by simpa using hb)] at hv
    exact hb (HloComputation.isConstant_indvar hv)
  have hb' := HloComputation.isConstant_indvar hv'
  have hn : w.whileBody.nonConstantOperand (w.whileBody.trace update) = some indvar := by
    refine HloComputation.nonConstantOperand_eq ?_ hb (.inl hk)
    simp only [HloComputation.operands, ha, HloOpcode.operands]
    obtain ⟨rfl, rfl⟩ | ⟨rfl, rfl⟩ := hlr
    case inl => exact .inl rfl
    case inr => exact .inr rfl
  have hm : w.whileBody.matchAddAnyOrder (w.whileBody.trace update) indvar (fun op => (w.whileBody.opcode op).isConstant) =
      some instr :=
    HloComputation.matchAddAnyOrder_eq ha hlr hk (HloComputation.ne_of_isConstant hk hb)
  have hc : w.whileCondition.operands w.whileCondition.rootInstruction = [indvar', instr'] := by
    rw [HloComputation.operands, hc', HloOpcode.operands]
  have hn' := HloComputation.nonConstantOperand_eq (.inl hc) hb' (.inl hk')
  have hs' : w.whileCondition.isConstantEffectiveScalar instr' := by
    rw [Literal.literalAsScalarInt64] at hl'
    split_ifs at hl' with hs
    simp [HloComputation.isConstantEffectiveScalar, HloComputation.literal, ho', hs]
  have hm' := HloComputation.matchBinaryOperandsAnyOrder_eq hc (.inl ⟨rfl, rfl⟩) hs'
    (HloComputation.ne_of_isConstant hk' hb')
  have hz : ¬step ≤ 0 := by omega
  have ho₀ : (w.whileCondition.operands w.whileCondition.rootInstruction)[0]? = some indvar' := by
    simp [hc]
  have hll : w.whileBody.literal instr = some l := by simp [HloComputation.literal, ho]
  have hll' : w.whileCondition.literal instr' = some l' := by simp [HloComputation.literal, ho']
  have hd : w.whileCondition.comparisonDirection w.whileCondition.rootInstruction = some direction := by
    simp [HloComputation.comparisonDirection, hc']
  simp only [matchTrivialLoopTripCount, hi, hu, hn, hv, hm, hll, hl, hn', hv', hm', hll', hl', ho₀, hz, hd,
    Option.bind_eq_bind, Option.bind_some, Option.pure_def]
  cases direction <;> simp

theorem matchTrivialLoopTripCount_exact_iff (h : w.IsLoop index direction bound step) (hs : 0 < step)
    (hi : indvarInit.literalAsScalarInt64 = some init) (hr : w.Runs index init values) :
    (∀ n, matchTrivialLoopTripCount w index indvarInit = some (some n) → n = values.length) ↔
      TripCountExact direction init bound step := by
  have hl := h.linear
  have hi' := Literal.holds_of_literalAsScalarInt64 hi
  obtain ⟨_, _, _, _, _, _, hb⟩ := h.cond
  obtain ⟨_, _, _, _, _, _, _, _, _, _, _, hf⟩ := h.body
  have hb := Literal.holds_of_literalAsScalarInt64 hb
  have hf := Literal.holds_of_literalAsScalarInt64 hf
  simp only [matchTrivialLoopTripCount_eq h hs hi, Option.some.injEq]
  cases direction <;> simp only [TripCountExact, reduceCtorEq, false_implies, implies_true]
  case lt =>
    have hl : Linear (w.condition index) (w.update index) (fun a => a ≤ bound - 1) step :=
      ⟨fun a => by rw [hl.cond]; simp [ComparisonDirection.compare], hl.next⟩
    rw [hl.length_eq hs hr]
    exact TripCount.lessThan_exact hi' hb hs
  case le =>
    rw [Linear.length_eq hl hs hr]
    exact TripCount.lessEqual_exact hi' hb hs hf

end WhileOp

-- The loop `i = init; while (i direction limit) i += step`, whose state is a tuple with one element.
def makeWhileLoop (direction : ComparisonDirection) (init limit step : Literal) : WhileOp where
  parent         := {
    instructions         := [⟨.parameter, .other⟩, ⟨.constant init, init.elementType⟩, ⟨.tuple [1], .other⟩]
    parameterInstruction := 0
    rootInstruction      := 2
    parameter_opcode     := rfl
    operands_lt          := of_decide_eq_true rfl
  }
  operand        := 2
  whileCondition := {
    instructions         := [⟨.parameter, .other⟩, ⟨.getTupleElement 0 0, init.elementType⟩,
                             ⟨.constant limit, limit.elementType⟩, ⟨.compare direction 1 2, .other⟩]
    parameterInstruction := 0
    rootInstruction      := 3
    parameter_opcode     := rfl
    operands_lt          := of_decide_eq_true rfl
  }
  whileBody      := {
    instructions         := [⟨.parameter, .other⟩, ⟨.getTupleElement 0 0, init.elementType⟩,
                             ⟨.constant step, step.elementType⟩, ⟨.add 1 2, init.elementType⟩, ⟨.tuple [3], .other⟩]
    parameterInstruction := 0
    rootInstruction      := 4
    parameter_opcode     := rfl
    operands_lt          := of_decide_eq_true rfl
  }

theorem makeWhileLoop_isLoop {init limit step : Literal} {bound k : Int} (hb : limit.literalAsScalarInt64 = some bound)
    (hs : step.literalAsScalarInt64 = some k) : (makeWhileLoop direction init limit step).IsLoop 0 direction bound k where
  cond := ⟨1, 2, limit, rfl, rfl, rfl, hb⟩
  body := ⟨3, 1, 2, 1, 2, step, rfl, rfl, .inl ⟨rfl, rfl⟩, rfl, rfl, hs⟩

def s32Literal (v : Int) (h : PrimitiveType.s32.Holds v) : Literal :=
  ⟨.s32, true, v, h⟩

theorem matchTrivialLoopTripCount_exact_iff_le :
    (∀ n, matchTrivialLoopTripCount (makeWhileLoop .le (s32Literal 0 (by decide)) (s32Literal 4 (by decide))
        (s32Literal 3 (by decide))) 0 (s32Literal 0 (by decide)) = some (some n) → n = [0, 3].length) ↔
      TripCountExact .le 0 4 3 :=
  WhileOp.matchTrivialLoopTripCount_exact_iff (makeWhileLoop_isLoop rfl rfl) (by decide) rfl
    (.step rfl rfl (.step rfl rfl (.done rfl)))

-- The loop `i = 0; while (i < 1) i += 2` runs once.
theorem not_tripCountExact_lt :
    let w := makeWhileLoop .lt (s32Literal 0 (by decide)) (s32Literal 1 (by decide)) (s32Literal 2 (by decide))
    w.IsLoop 0 .lt 1 2 ∧ w.Runs 0 0 [0] ∧
      matchTrivialLoopTripCount w 0 (s32Literal 0 (by decide)) = some (some 0) :=
  ⟨makeWhileLoop_isLoop rfl rfl, .step rfl rfl (.done rfl), by decide +kernel⟩

end WhileLoop
