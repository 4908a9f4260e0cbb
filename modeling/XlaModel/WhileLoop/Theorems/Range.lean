import Mathlib.Tactic
import XlaModel.WhileLoop.Range
import XlaModel.WhileLoop.Theorems.TripCount

namespace WhileLoop

variable {v : Int} {type : PrimitiveType}

namespace PrimitiveType

-- The value of the type that is congruent to `v`.
def wrap (t : PrimitiveType) (v : Int) : Int :=
  if t.isSignedIntegralType then v.bmod (2 ^ t.bitWidth) else v % 2 ^ t.bitWidth

theorem wrap_of_holds (ht : type.isIntegralType) (h : type.Holds v) : type.wrap v = v := by
  cases type <;> simp [Holds, wrap, isIntegralType, isSignedIntegralType, isUnsignedIntegralType, bitWidth] at * <;>
    grind [Int.bmod_def]

theorem holds_wrap (ht : type.isIntegralType) : type.Holds (type.wrap v) := by
  cases type <;> simp [Holds, wrap, isIntegralType, isSignedIntegralType, isUnsignedIntegralType, bitWidth] at * <;>
    grind [Int.bmod_def]

def minValue (t : PrimitiveType) : Int :=
  if t.isSignedIntegralType then -(2 ^ t.bitWidth / 2) else 0

def maxValue (t : PrimitiveType) : Int :=
  if t.isSignedIntegralType then (2 ^ t.bitWidth - 1) / 2 else 2 ^ t.bitWidth - 1

theorem holds_iff : type.Holds v ↔ type.minValue ≤ v ∧ v ≤ type.maxValue := by
  rw [Holds, minValue, maxValue]
  split_ifs <;> omega

theorem bitWidth_pos (ht : type.isIntegralType) : 0 < type.bitWidth := by
  cases type <;> first | decide | cases ht

theorem bitWidth_le : type.bitWidth ≤ 64 := by
  cases type <;> decide

end PrimitiveType

namespace ConstantValue

variable {w : Nat}

-- The shifts drop the upper bits and copy the sign bit.
theorem toInt_get_signed (hw : 0 < w) (hw' : w ≤ 64) : (get v w true).toInt = v.bmod (2 ^ w) := by
  obtain ⟨s, hs⟩ : ∃ s, 64 = w + s := ⟨64 - w, by omega⟩
  have hd : 64 - w = s := by omega
  have hp : (2 : Nat) ^ 64 = 2 ^ s * 2 ^ w := by rw [hs, pow_add, mul_comm]
  have hs₀ : ((2 ^ s : Nat) : Int) ≠ 0 := by positivity
  have hv : ((v % (2 ^ 64 : Nat)) * (2 ^ s : Nat)).bmod (2 ^ 64) = (2 ^ s : Nat) * v.bmod (2 ^ w) := by
    rw [Int.emod_mul_bmod, hp, mul_comm]
    exact Int.mod_bmod_mul_of_pos v (2 ^ w) (by positivity) (dvd_pow_self 2 hw.ne')
  have he : ((v % (2 ^ 64 : Nat)).toNat : Int) = v % (2 ^ 64 : Nat) :=
    Int.toNat_of_nonneg (Int.emod_nonneg _ (by positivity))
  rw [toInt, getSignedValue, get, make]
  simp only [if_true, hd, BitVec.toInt_sshiftRight, BitVec.toInt_shiftLeft, BitVec.toNat_ofInt]
  rw [Nat.shiftLeft_eq, Nat.cast_mul, he, hv, Int.shiftRight_eq_div_pow]
  exact Int.mul_ediv_cancel_left _ hs₀

theorem toInt_get_unsigned (hw : 0 < w) (hw' : w ≤ 64) : (get v w false).toInt = v % 2 ^ w := by
  have hp : (2 : Nat) ^ 64 = 2 ^ w * 2 ^ (64 - w) := by rw [← pow_add, Nat.add_sub_cancel' hw']
  have hm : (lsbMask w).toNat = 2 ^ w - 1 := by
    have hs : 0 < 2 ^ (64 - w) := by positivity
    have hd : 2 ^ w * 2 ^ (64 - w) - 1 = 2 ^ (64 - w) - 1 + 2 ^ (64 - w) * (2 ^ w - 1) := by
      have := Nat.le_mul_of_pos_left (2 ^ (64 - w)) (Nat.two_pow_pos w)
      rw [Nat.mul_sub_one, mul_comm]
      rw [mul_comm] at this
      omega
    rw [lsbMask, if_neg hw.ne', BitVec.toNat_ushiftRight, BitVec.toNat_allOnes, Nat.shiftRight_eq_div_pow, hp, hd,
      Nat.add_mul_div_left _ _ hs, Nat.div_eq_of_lt (by omega), zero_add]
  rw [toInt, getUnsignedValue, get, make]
  simp only [Bool.false_eq_true, if_false, keepLowerBits, BitVec.toNat_and, hm, Nat.and_two_pow_sub_one_eq_mod,
    BitVec.toNat_ofInt]
  push_cast
  rw [Int.toNat_of_nonneg (Int.emod_nonneg _ (by positivity))]
  exact Int.emod_emod_of_dvd _ (pow_dvd_pow 2 hw')

theorem toInt_get (ht : type.isIntegralType) :
    (get v type.bitWidth type.isSignedIntegralType).toInt = type.wrap v := by
  rw [PrimitiveType.wrap]
  have hw := PrimitiveType.bitWidth_pos ht
  have hw' : type.bitWidth ≤ 64 := PrimitiveType.bitWidth_le
  cases type.isSignedIntegralType
  case false => exact toInt_get_unsigned hw hw'
  case true  => exact toInt_get_signed hw hw'

end ConstantValue
end WhileLoop

namespace WhileLoop

open LoopRun

variable {bound init last limit max step v : Int} {direction : ComparisonDirection} {type : PrimitiveType}

theorem tmod_sub_tmod : (bound.tmod step - init.tmod step) % step = (bound - init) % step := by
  have h (a : Int) : a.tmod step = a - step * a.tdiv step := Int.tmod_def a step
  rw [h, h]
  have : bound - step * bound.tdiv step - (init - step * init.tdiv step) =
      bound - init + step * (init.tdiv step - bound.tdiv step) := by ring
  rw [this, Int.add_mul_emod_self_left]

section Round

variable (hs : 0 < step)
include hs

-- The remainder of C++ has the sign of the dividend.
theorem tmod_add_eq_emod : (if v.tmod step < 0 then v.tmod step + step else v.tmod step) = v % step := by
  have := Int.emod_nonneg v hs.ne'
  have := Int.emod_lt_of_pos v hs
  have hd : step ∣ v → v % step = 0 := Int.emod_eq_zero_of_dvd
  have hn : (step.natAbs : Int) = step := Int.natAbs_of_nonneg hs.le
  rw [Int.tmod_eq_emod]
  split_ifs <;> omega

theorem roundDown_eq : roundDown init bound step =
    (int64 (bound.tmod step - init.tmod step)).bind fun _ => int64 (bound - (bound - init) % step) := by
  rw [roundDown, int64]
  split_ifs
  case pos =>
    simp only [Option.bind_eq_bind, Option.bind_some]
    rw [tmod_add_eq_emod hs, tmod_sub_tmod]
  case neg => rfl

end Round

-- The numbers `init`, `init + step`, ..., up to `limit` end with `max`.
theorem progression_iff (hs : 0 < step) :
    (∃ n : Nat, max = init + n * step ∧
      ∀ v, (∃ j : Nat, v = init + j * step ∧ v ≤ limit) ↔ ∃ j : Nat, j ≤ n ∧ v = init + j * step) ↔
    init ≤ max ∧ step ∣ max - init ∧ max ≤ limit ∧ limit < max + step := by
  apply Iff.intro
  case mp =>
    rintro ⟨n, rfl, h⟩
    obtain ⟨_, _, hle⟩ := (h (init + n * step)).mpr ⟨n, le_rfl, rfl⟩
    refine ⟨?bound, ?dvd, hle, ?maximal⟩
    case bound =>
      have : 0 ≤ (n : Int) * step := by positivity
      omega
    case dvd => exact ⟨n, by ring⟩
    case maximal =>
      by_contra hlt
      have hl : init + (n + 1 : Nat) * step ≤ limit := by
        push_cast
        linarith
      obtain ⟨j, hj, he⟩ := (h _).mp ⟨n + 1, rfl, hl⟩
      have : ((n + 1 : Nat) : Int) = j := mul_right_cancel₀ hs.ne' (by linarith)
      omega
  case mpr =>
    rintro ⟨hle, ⟨n, hn⟩, hmax, hlimit⟩
    have hn₀ : 0 ≤ n := by
      by_contra h
      have : step * n < 0 := Int.mul_neg_of_pos_of_neg hs (by omega)
      omega
    lift n to Nat using hn₀
    have he : max = init + n * step := by linarith
    refine ⟨n, he, fun v => ?_⟩
    apply Iff.intro
    case mp =>
      rintro ⟨j, rfl, hj⟩
      refine ⟨j, ?_, rfl⟩
      have : (j : Int) * step < (n + 1) * step := by linarith
      have := lt_of_mul_lt_mul_right this hs.le
      omega
    case mpr =>
      rintro ⟨j, hj, rfl⟩
      refine ⟨j, rfl, ?_⟩
      have : (j : Int) * step ≤ n * step := Int.mul_le_mul_of_nonneg_right (by omega) hs.le
      omega

-- The loop's condition compares the element `index` of the state with a constant, and its body adds the element
-- itself or a constant to the element.
structure WhileOp.Counts (w : WhileOp) (index : Nat) (type : PrimitiveType) (direction : ComparisonDirection)
    (indvarFirst : Bool) (bound : Literal) (step : Option Literal) : Prop where
  init : ∃ operands instr, w.parent.opcode w.operand = .tuple operands ∧ operands[index]? = some instr ∧
    (w.parent.instruction (w.parent.trace instr)).elementType = type
  cond : ∃ indvar instr, w.whileCondition.IsIndvar index indvar ∧
    w.whileCondition.instruction instr = ⟨.constant bound, type⟩ ∧
    w.whileCondition.opcode w.whileCondition.rootInstruction =
      if indvarFirst then .compare direction indvar instr else .compare direction instr indvar
  body : ∃ operands update lhs rhs, w.whileBody.opcode w.whileBody.rootInstruction = .tuple operands ∧
    operands[index]? = some update ∧ w.whileBody.instruction update = ⟨.add lhs rhs, type⟩ ∧
    match step with
    | none   => w.whileBody.IsIndvar index lhs ∧ w.whileBody.IsIndvar index rhs
    | some l => w.whileBody.IsIndvar index lhs ∧ w.whileBody.opcode rhs = .constant l ∨
      w.whileBody.opcode lhs = .constant l ∧ w.whileBody.IsIndvar index rhs
  bound : bound.elementType = type

namespace HloComputation

variable {c : HloComputation} {index i lhs rhs : Nat} {l : Literal}
variable {extracted : HloComputation → Nat → Nat → Option (List Nat)}

theorem getGTEDependenceIndices_eq (ho : c.operands i = [lhs, rhs])
    (h : c.IsIndvar index lhs ∧ c.IsIndvar index rhs ∨ c.IsIndvar index lhs ∧ c.opcode rhs = .constant l ∨
      c.opcode lhs = .constant l ∧ c.IsIndvar index rhs) :
    c.getGTEDependenceIndices extracted i c.parameterInstruction = some [index] := by
  rw [getGTEDependenceIndices, getGTEOperandIndices, ho]
  simp only [IsIndvar] at h
  obtain ⟨h, h'⟩ | ⟨h, h'⟩ | ⟨h, h'⟩ := h <;> simp [h, h', HloOpcode.isConstant]

theorem trace_of_add (h : c.opcode i = .add lhs rhs) : c.trace i = i := by
  rw [trace, traceThroughCopyAndGteTupleChain, h]

end HloComputation

namespace WhileOp

variable {w : WhileOp} {index : Nat} {indvarFirst : Bool} {limit : Literal} {increment : Option Literal}
variable {extracted : HloComputation → Nat → Nat → Option (List Nat)} {evaluate : Nat → Option Literal}

section Counts

variable (h : w.Counts index type direction indvarFirst limit increment)
include h

theorem Counts.getLoopInductionVarTupleIdx : getLoopInductionVarTupleIdx extracted w = some (some index) := by
  obtain ⟨operands, instr, ho, hi, _⟩ := h.init
  obtain ⟨indvar, instr', hv, hb, hc⟩ := h.cond
  obtain ⟨updates, update, lhs, rhs, hr, hu, ha, hlr⟩ := h.body
  have hb : w.whileCondition.opcode instr' = .constant limit := by rw [HloComputation.opcode, hb]
  have ha : w.whileBody.opcode update = .add lhs rhs := by rw [HloComputation.opcode, ha]
  have hct : w.whileCondition.getGTEDependenceIndices extracted w.whileCondition.rootInstruction
      w.whileCondition.parameterInstruction = some [index] := by
    cases indvarFirst
    case false =>
      have ho : w.whileCondition.operands w.whileCondition.rootInstruction = [instr', indvar] := by
        rw [HloComputation.operands, hc]
        rfl
      exact HloComputation.getGTEDependenceIndices_eq ho (.inr (.inr ⟨hb, hv⟩))
    case true =>
      have ho : w.whileCondition.operands w.whileCondition.rootInstruction = [indvar, instr'] := by
        rw [HloComputation.operands, hc]
        rfl
      exact HloComputation.getGTEDependenceIndices_eq ho (.inr (.inl ⟨hv, hb⟩))
  have hbt : w.whileBody.getGTEDependenceIndices extracted update w.whileBody.parameterInstruction = some [index] := by
    have ho : w.whileBody.operands update = [lhs, rhs] := by
      rw [HloComputation.operands, ha]
      rfl
    cases increment
    case none   => exact HloComputation.getGTEDependenceIndices_eq (l := limit) ho (.inl hlr)
    case some l => exact HloComputation.getGTEDependenceIndices_eq ho (.inr hlr)
  simp [WhileLoop.getLoopInductionVarTupleIdx, getLoopInductionVarTupleIdxWithKnownValues, hct, ho, hr, hu,
    HloComputation.trace_of_add ha, HloComputation.getUniqueGTEDependenceIndex, hbt]

theorem Counts.update : ∃ update, (w.whileBody.operands w.whileBody.rootInstruction)[index]? = some update ∧
    ∀ gte, w.whileBody.indvar index = some gte → w.whileBody.nonConstantOperand update = some gte ∧
      ∃ instr, w.whileBody.matchAddAnyOrder update gte (fun _ => true) = some instr ∧
        w.whileBody.literal instr = increment := by
  obtain ⟨updates, update, lhs, rhs, hr, hu, ha, hlr⟩ := h.body
  have ha : w.whileBody.opcode update = .add lhs rhs := by rw [HloComputation.opcode, ha]
  have ho : w.whileBody.operands update = [lhs, rhs] := by
    rw [HloComputation.operands, ha]
    rfl
  refine ⟨update, by rw [HloComputation.operands, hr]; exact hu, fun gte hg => ?_⟩
  have hc := HloComputation.isConstant_indvar hg
  cases increment
  case none =>
    obtain ⟨hl, hr⟩ := hlr
    obtain rfl := hl.eq_of_indvar hg
    obtain rfl := hr.eq_of_indvar hg
    refine ⟨HloComputation.nonConstantOperand_eq (.inl ho) hc (.inr rfl), rhs, ?operands, ?indvar⟩
    case operands => simp [HloComputation.matchAddAnyOrder, ha]
    case indvar =>
      rw [HloComputation.IsIndvar] at hr
      rw [HloComputation.literal, hr]
  case some l =>
    obtain ⟨hl, hr⟩ | ⟨hl, hr⟩ := hlr
    case inl =>
      obtain rfl := hl.eq_of_indvar hg
      have hk : (w.whileBody.opcode rhs).isConstant := by rw [hr]; rfl
      refine ⟨HloComputation.nonConstantOperand_eq (.inl ho) hc (.inl hk), rhs, ?_, by rw [HloComputation.literal, hr]⟩
      exact HloComputation.matchAddAnyOrder_eq ha (.inl ⟨rfl, rfl⟩) rfl (HloComputation.ne_of_isConstant hk hc)
    case inr =>
      obtain rfl := hr.eq_of_indvar hg
      have hk : (w.whileBody.opcode lhs).isConstant := by rw [hl]; rfl
      refine ⟨HloComputation.nonConstantOperand_eq (.inr ho) hc (.inl hk), lhs, ?_, by rw [HloComputation.literal, hl]⟩
      exact HloComputation.matchAddAnyOrder_eq ha (.inr ⟨rfl, rfl⟩) rfl (HloComputation.ne_of_isConstant hk hc)

theorem Counts.compare : w.whileCondition.comparisonDirection w.whileCondition.rootInstruction = some direction ∧
    ∀ gte, w.whileCondition.indvar index = some gte →
      ∃ instr, w.whileCondition.matchBinaryOperandsAnyOrder w.whileCondition.rootInstruction gte (fun _ => true) =
          some instr ∧
        w.whileCondition.instruction instr = ⟨.constant limit, type⟩ := by
  obtain ⟨indvar, instr, hv, hb, hc⟩ := h.cond
  have hk : (w.whileCondition.opcode instr).isConstant := by
    rw [HloComputation.opcode, hb]
    rfl
  refine ⟨by rw [HloComputation.comparisonDirection, hc]; cases indvarFirst <;> rfl, fun gte hg => ⟨instr, ?_, hb⟩⟩
  obtain rfl := hv.eq_of_indvar hg
  have hne := HloComputation.ne_of_isConstant hk hv.isConstant
  cases indvarFirst
  case false =>
    have ho : w.whileCondition.operands w.whileCondition.rootInstruction = [instr, indvar] := by
      rw [HloComputation.operands, hc]
      rfl
    exact HloComputation.matchBinaryOperandsAnyOrder_eq ho (.inr ⟨rfl, rfl⟩) rfl hne
  case true =>
    have ho : w.whileCondition.operands w.whileCondition.rootInstruction = [indvar, instr] := by
      rw [HloComputation.operands, hc]
      rfl
    exact HloComputation.matchBinaryOperandsAnyOrder_eq ho (.inl ⟨rfl, rfl⟩) rfl hne

end Counts

-- The range of a loop whose induction variable and whose constants are known.
def countedRange (type : PrimitiveType) (direction : ComparisonDirection) (init bound step : Int) :
    Option (Option Range) := do
  let some supportsEquality := whileCondBoundSupportsEquality direction | return none
  let last ← if supportsEquality then some bound else int64 (bound - 1)
  let last ← roundDown init last step
  return some {
    min      := .get init type.bitWidth type.isSignedIntegralType
    max      := ConstantValue.get last type.bitWidth type.isSignedIntegralType
    step     := ConstantValue.get step 64 true
    empty    := false
    isLinear := true
  }

theorem countedRange_eq {supportsEquality : Bool} (hd : whileCondBoundSupportsEquality direction = some supportsEquality)
    (hb : PrimitiveType.s64.Holds bound) : countedRange type direction init bound step = (do
      let last ← int64 (if supportsEquality then bound else bound - 1)
      let last ← roundDown init last step
      return some {
        min      := .get init type.bitWidth type.isSignedIntegralType
        max      := ConstantValue.get last type.bitWidth type.isSignedIntegralType
        step     := ConstantValue.get step 64 true
        empty    := false
        isLinear := true
      }) := by
  cases supportsEquality <;> simp [countedRange, hd, int64, hb]

theorem Counts.matchTrivialLoopRange_eq (h : w.Counts index type direction indvarFirst limit increment)
    (he : ∀ instr, ∀ l ∈ evaluate instr, l.elementType = (w.parent.instruction instr).elementType) :
    matchTrivialLoopRange extracted evaluate w = (do
      let some init := (← evaluateIndvarInit evaluate w index).bind Literal.literalAsScalarInt64 | return none
      if w.whileBody.indvar index = none then return none
      let step ← increment.bind Literal.literalAsScalarInt64
      if step ≤ 0 ∨ w.whileCondition.indvar index = none then return none
      let some bound := limit.literalAsScalarInt64 | return none
      countedRange type direction init bound step) := by
  rw [matchTrivialLoopRange, h.getLoopInductionVarTupleIdx]
  simp only [Option.bind_eq_bind, Option.bind_some, matchLoopRangeWithKnownValues]
  obtain ⟨operands, instr, ho, hi, ht⟩ := h.init
  have hv : evaluateIndvarInit evaluate w index = some (evaluate (w.parent.trace instr)) := by
    simp [evaluateIndvarInit, HloComputation.operands, ho, HloOpcode.operands, hi]
  have he := he (w.parent.trace instr)
  simp only [hv, Option.bind_some]
  generalize evaluate (w.parent.trace instr) = value at he
  cases value
  case none => rfl
  case some value =>
    have ht : value.elementType = type := (he value rfl).trans ht
    simp only [Option.bind_some]
    cases value.literalAsScalarInt64
    case none => rfl
    case some init =>
      obtain ⟨update, hu, hm⟩ := h.update
      obtain ⟨hd, hc⟩ := h.compare
      simp only [hu, Option.bind_some]
      cases hg : w.whileBody.indvar index
      case none =>
        cases w.whileBody.nonConstantOperand update <;> simp
      case some gte =>
        obtain ⟨hn, instr, hm, hl⟩ := hm gte hg
        simp only [hn, hm, hl]
        cases increment
        case none => simp
        case some l =>
          cases hk : l.literalAsScalarInt64
          case none => simp [hk]
          case some step =>
            by_cases hs : step ≤ 0
            case pos => simp [hk, hs]
            case neg =>
              cases hg' : w.whileCondition.indvar index
              case none => simp [hk]
              case some gte' =>
                obtain ⟨bound, hm', hb⟩ := hc gte' hg'
                have hbv : whileCondBoundVal w bound (fun _ => none) = some limit.literalAsScalarInt64 := by
                  rw [whileCondBoundVal, HloComputation.opcode, hb]
                simp only [hk, hs, hm', hbv, hb, hd, ht, Option.bind_some, ne_eq, not_true_eq_false, if_false,
                  reduceCtorEq, or_self]
                cases limit.literalAsScalarInt64
                case none => rfl
                case some bound =>
                  simp only [countedRange]
                  cases whileCondBoundSupportsEquality direction
                  case none                  => rfl
                  case some supportsEquality => cases supportsEquality <;> rfl

-- The condition of the loop.
def compares (direction : ComparisonDirection) (indvarFirst : Bool) (bound v : Int) : Bool :=
  if indvarFirst then direction.compare v bound else direction.compare bound v

-- Whether the condition is an upper bound.
def countsUp (direction : ComparisonDirection) (indvarFirst : Bool) : Bool :=
  match direction with
  | .lt | .le => indvarFirst
  | _         => !indvarFirst

section Compares

variable {supportsEquality : Bool} (hd : whileCondBoundSupportsEquality direction = some supportsEquality)
include hd

theorem compares_iff_le (hlast : last = if supportsEquality then bound else bound - 1)
    (hu : countsUp direction indvarFirst) : compares direction indvarFirst bound v ↔ v ≤ last := by
  cases direction <;> cases indvarFirst <;>
    simp_all [whileCondBoundSupportsEquality, countsUp, compares, ComparisonDirection.compare]

theorem compares_of_le (hu : countsUp direction indvarFirst = false) (hc : compares direction indvarFirst bound init)
    (hle : init ≤ v) : compares direction indvarFirst bound v := by
  cases direction <;> cases indvarFirst <;>
    simp_all [whileCondBoundSupportsEquality, countsUp, compares, ComparisonDirection.compare]
  all_goals omega

end Compares

section Visits

variable {l : Literal} (h : w.Counts index type direction indvarFirst limit (some l))
  (hb : limit.literalAsScalarInt64 = some bound) (hl : l.literalAsScalarInt64 = some step)
include h hb hl

theorem Counts.linear :
    Linear (w.condition index) (w.update index) (compares direction indvarFirst bound) step ∧
      ∀ a b, w.update index a = some b ↔ b = a + step ∧ type.Holds b := by
  obtain ⟨indvar, instr, hv, hi, hc⟩ := h.cond
  obtain ⟨updates, update, lhs, rhs, hr, hu, ha, hlr⟩ := h.body
  have hi : w.whileCondition.opcode instr = .constant limit := by rw [HloComputation.opcode, hi]
  have hcond (a : Int) : w.condition index a = some (compares direction indvarFirst bound a) := by
    rw [condition, HloComputation.evaluate_eq, HloComputation.evaluateStep, hc]
    cases indvarFirst <;> simp [hv.evaluate, HloComputation.evaluate_constant hi hb, compares]
  have hnext (a b : Int) : w.update index a = some b ↔ b = a + step ∧ type.Holds b := by
    have ha' : w.whileBody.opcode update = .add lhs rhs := by rw [HloComputation.opcode, ha]
    rw [WhileOp.update, HloComputation.operands, hr, HloOpcode.operands, hu, Option.bind_eq_bind, Option.bind_some,
      HloComputation.evaluate_eq, HloComputation.evaluateStep, ha', ha]
    obtain ⟨hv, ho⟩ | ⟨ho, hv⟩ := hlr
    case inl =>
      simp only [hv.evaluate, HloComputation.evaluate_constant ho hl]
      split_ifs <;> grind
    case inr =>
      simp only [hv.evaluate, HloComputation.evaluate_constant ho hl]
      split_ifs <;> grind
  exact ⟨⟨hcond, fun a b hn => ((hnext a b).mp hn).1⟩, hnext⟩

end Visits

-- The body runs for `min`, `min + step`, ..., `max`.
def BodyRunsOn (w : WhileOp) (index : Nat) (init min max step : Int) : Prop :=
  ∃ n : Nat, max = min + n * step ∧
    ∀ v, Visits (w.condition index) (w.update index) init v ↔ ∃ j : Nat, j ≤ n ∧ v = min + j * step

-- Whether the range is right for `i = init; while (i direction bound) i += step`, where the condition can be swapped.
def RangeExact (type : PrimitiveType) (direction : ComparisonDirection) (indvarFirst : Bool) (init bound step : Int) :
    Prop :=
  ∀ supportsEquality ∈ whileCondBoundSupportsEquality direction,
    let last := if supportsEquality then bound else bound - 1
    let max  := last - (last - init) % step
    PrimitiveType.s64.Holds last ∧ PrimitiveType.s64.Holds (last.tmod step - init.tmod step) ∧
    PrimitiveType.s64.Holds max ∧
    (init ≤ type.wrap max → compares direction indvarFirst bound init ∧
      (countsUp direction indvarFirst ∨ step ∣ type.wrap max - init ∧ ¬type.Holds (type.wrap max + step)))

section Exact

variable {l : Literal} (h : w.Counts index type direction indvarFirst limit (some l))
  (hb : limit.literalAsScalarInt64 = some bound) (hl : l.literalAsScalarInt64 = some step) (hs : 0 < step)
  (ht : type.isIntegralType) (hi : type.Holds init)
include h hb hl hs ht hi

-- The number `max` is the last value for an upper bound, and the values go up to the type's limit otherwise.
theorem Counts.bodyRunsOn_iff {supportsEquality : Bool}
    (hd : whileCondBoundSupportsEquality direction = some supportsEquality)
    (hlast : last = if supportsEquality then bound else bound - 1)
    (hle : init ≤ type.wrap (last - (last - init) % step)) :
    w.BodyRunsOn index init init (type.wrap (last - (last - init) % step)) step ↔
      compares direction indvarFirst bound init ∧
      (countsUp direction indvarFirst ∨ step ∣ type.wrap (last - (last - init) % step) - init ∧
        ¬type.Holds (type.wrap (last - (last - init) % step) + step)) := by
  obtain ⟨hlin, hnext⟩ := h.linear hb hl
  have hw := PrimitiveType.holds_iff.mp (PrimitiveType.holds_wrap (v := last - (last - init) % step) ht)
  have hi' := PrimitiveType.holds_iff.mp hi
  have hr := Int.emod_nonneg (last - init) hs.ne'
  have hr' := Int.emod_lt_of_pos (last - init) hs
  cases hc : compares direction indvarFirst bound init
  case false =>
    simp only [Bool.false_eq_true, false_and, iff_false]
    rintro ⟨n, _, hv⟩
    have hv := (hv init).mpr ⟨0, Nat.zero_le n, by simp⟩
    have hc' := hv.cond
    rw [hlin.cond, hc] at hc'
    cases hc'
  case true =>
    cases hu : countsUp direction indvarFirst
    case true =>
      have hlast' := (compares_iff_le hd hlast hu).mp hc
      have hbt : type.Holds bound := h.bound ▸ (Literal.first_eq hb).2 ▸ limit.holds
      have hbt := PrimitiveType.holds_iff.mp hbt
      have hlb : last ≤ bound := by
        rw [hlast]
        split_ifs <;> omega
      have hrl : (last - init) % step ≤ last - init := by
        have := Int.ediv_nonneg (a := last - init) (by omega) hs.le
        have := Int.mul_nonneg hs.le this
        have := Int.mul_ediv_add_emod (last - init) step
        omega
      have hmax : type.Holds (last - (last - init) % step) := PrimitiveType.holds_iff.mpr (by omega)
      have hv (v : Int) : Visits (w.condition index) (w.update index) init v ↔ ∃ n : Nat, v = init + n * step ∧ v ≤ last :=
        hlin.visits_iff_le hnext hs (fun b (hle : init ≤ b) => by
        rw [compares_iff_le hd hlast hu, PrimitiveType.holds_iff]
        omega) le_rfl hi
      have hdvd : step ∣ last - (last - init) % step - init := by
        have : last - (last - init) % step - init = last - init - (last - init) % step := by ring
        exact this ▸ Int.dvd_self_sub_emod
      simp only [BodyRunsOn, hv]
      rw [progression_iff hs, PrimitiveType.wrap_of_holds ht hmax]
      simp only [hdvd, true_and, true_or, and_self, iff_true]
      omega
    case false =>
      have hv (v : Int) : Visits (w.condition index) (w.update index) init v ↔
          ∃ n : Nat, v = init + n * step ∧ v ≤ type.maxValue :=
        hlin.visits_iff_le hnext hs (fun b (hle : init ≤ b) => by
        simp only [compares_of_le hd hu hc hle, PrimitiveType.holds_iff, true_and]
        omega) le_rfl hi
      have hm : ¬type.Holds (type.wrap (last - (last - init) % step) + step) ↔
          type.maxValue < type.wrap (last - (last - init) % step) + step := by
        rw [PrimitiveType.holds_iff]
        omega
      simp only [BodyRunsOn, hv]
      rw [progression_iff hs, hm]
      simp [hle, hw.2]

theorem Counts.countedRange_iff :
    (∃ result, countedRange type direction init bound step = some result ∧
      ∀ range ∈ result, ∃ max step, range.max = some max ∧ range.step = some step ∧
        (range.min.toInt ≤ max.toInt → w.BodyRunsOn index init range.min.toInt max.toInt step.toInt)) ↔
    RangeExact type direction indvarFirst init bound step := by
  rw [RangeExact]
  cases hd : whileCondBoundSupportsEquality direction
  case none => simp [countedRange, hd]
  case some supportsEquality =>
    have hb' := Literal.holds_of_literalAsScalarInt64 hb
    have hl' := Literal.holds_of_literalAsScalarInt64 hl
    have hstep : (ConstantValue.get step 64 true).toInt = step :=
      (@ConstantValue.toInt_get _ .s64 rfl).trans (PrimitiveType.wrap_of_holds rfl hl')
    have hiff := h.bodyRunsOn_iff hb hl hs ht hi hd rfl
    rw [countedRange_eq hd hb']
    simp only [Option.bind_eq_bind, Option.mem_def, Option.some.injEq, forall_eq', roundDown_eq hs]
    generalize (if supportsEquality then bound else bound - 1) = last at hiff
    by_cases h₁ : PrimitiveType.s64.Holds last
    case neg => simp [int64, h₁]
    by_cases h₂ : PrimitiveType.s64.Holds (last.tmod step - init.tmod step)
    case neg => simp [int64, h₁, h₂]
    by_cases h₃ : PrimitiveType.s64.Holds (last - (last - init) % step)
    case neg => simp [int64, h₁, h₂, h₃]
    simp only [int64, h₁, h₂, h₃, if_true, Option.bind_some, Option.pure_def, Option.some.injEq, exists_eq_left',
      forall_eq', ↓existsAndEq, true_and, ConstantValue.toInt_get ht, hstep, PrimitiveType.wrap_of_holds ht hi]
    exact forall_congr' hiff

end Exact

-- The analysis returns, and the body runs for the values of a range that is not empty.
def RangeSound (w : WhileOp) (extracted : HloComputation → Nat → Nat → Option (List Nat))
    (evaluate : Nat → Option Literal) (index : Nat) : Prop :=
  ∃ result, matchTrivialLoopRange extracted evaluate w = some result ∧
    ∀ range ∈ result, ∃ init max step, evaluateIndvarInit evaluate w index = some (some init) ∧
      range.max = some max ∧ range.step = some step ∧
      (range.min.toInt ≤ max.toInt → w.BodyRunsOn index init.first range.min.toInt max.toInt step.toInt)

theorem matchTrivialLoopRange_sound_iff (h : w.Counts index type direction indvarFirst limit increment)
    (he : ∀ instr, ∀ l ∈ evaluate instr, l.elementType = (w.parent.instruction instr).elementType) :
    w.RangeSound extracted evaluate index ↔
      ∀ literal, evaluateIndvarInit evaluate w index = some (some literal) → ∀ init ∈ literal.literalAsScalarInt64,
        w.whileBody.indvar index ≠ none →
        ∃ step, increment.bind Literal.literalAsScalarInt64 = some step ∧
          (0 < step → w.whileCondition.indvar index ≠ none →
            ∀ bound ∈ limit.literalAsScalarInt64, RangeExact type direction indvarFirst init bound step) := by
  obtain ⟨operands, instr, ho, hinstr, hty⟩ := h.init
  have hv : evaluateIndvarInit evaluate w index = some (evaluate (w.parent.trace instr)) := by
    simp [evaluateIndvarInit, HloComputation.operands, ho, HloOpcode.operands, hinstr]
  have hty' := he (w.parent.trace instr)
  rw [RangeSound, h.matchTrivialLoopRange_eq he, hv]
  generalize evaluate (w.parent.trace instr) = value at hty'
  cases value
  case none => simp
  case some literal =>
    have hty : literal.elementType = type := (hty' literal rfl).trans hty
    simp only [Option.bind_eq_bind, Option.bind_some, Option.some.injEq, forall_eq']
    cases hi : literal.literalAsScalarInt64
    case none => simp
    case some init =>
      obtain ⟨ht, hf⟩ := Literal.first_eq hi
      have hi := literal.holds
      rw [hty] at ht hi
      rw [hf] at hi
      cases hg : w.whileBody.indvar index
      case none => simp
      case some gte =>
        cases increment
        case none => simp
        case some l =>
          cases hl : l.literalAsScalarInt64
          case none => simp [hl]
          case some step =>
            by_cases hs : step ≤ 0
            case pos => simp [hl, hs]
            case neg =>
              cases hg' : w.whileCondition.indvar index
              case none => simp [hl]
              case some gte' =>
                cases hb : limit.literalAsScalarInt64
                case none => simp [hl]
                case some bound =>
                  have hiff := h.countedRange_iff hb hl (Int.not_le.mp hs) ht hi
                  simpa [hl, hs, hf, Int.not_le.mp hs] using hiff

end WhileOp

-- The evaluator finds the values of constants.
def evaluateConstant (c : HloComputation) (instr : Nat) : Option Literal :=
  c.literal instr

section Make

variable {first limit increment : Literal} {direction : ComparisonDirection}

theorem makeWhileLoop_counts (hl : limit.elementType = first.elementType) :
    (makeWhileLoop direction first limit increment).Counts 0 first.elementType direction true limit (some increment) where
  init  := ⟨[1], 1, rfl, rfl, rfl⟩
  cond  := ⟨1, 2, rfl, by rw [← hl]; rfl, rfl⟩
  body  := ⟨[3], 3, 1, 2, rfl, rfl, rfl, .inl ⟨rfl, rfl⟩⟩
  bound := hl

theorem evaluateConstant_elementType (instr : Nat) :
    ∀ l ∈ evaluateConstant (makeWhileLoop direction first limit increment).parent instr,
      l.elementType = ((makeWhileLoop direction first limit increment).parent.instruction instr).elementType := by
  match instr with
  | 0 | 2 | _ + 3 => intro l hl; cases hl
  | 1             =>
    intro l hl
    cases hl
    rfl

end Make

-- The loop `i = 0; while (i < 42) i += 5` runs for 0, 5, ..., 40.
theorem matchTrivialLoopRange_sound_iff_lt :
    let w := makeWhileLoop .lt (s32Literal 0 (by decide)) (s32Literal 42 (by decide)) (s32Literal 5 (by decide))
    w.RangeSound (fun _ _ _ => none) (evaluateConstant w.parent) 0 ↔
      ∀ literal, evaluateIndvarInit (evaluateConstant w.parent) w 0 = some (some literal) →
        ∀ init ∈ literal.literalAsScalarInt64, w.whileBody.indvar 0 ≠ none →
        ∃ step, (some (s32Literal 5 (by decide))).bind Literal.literalAsScalarInt64 = some step ∧
          (0 < step → w.whileCondition.indvar 0 ≠ none →
            ∀ bound ∈ (s32Literal 42 (by decide)).literalAsScalarInt64, WhileOp.RangeExact .s32 .lt true init bound step) :=
  WhileOp.matchTrivialLoopRange_sound_iff (makeWhileLoop_counts rfl) evaluateConstant_elementType

-- The body of the loop `i = 0; while (i > 10) i += 1` does not run, but its range is 0, 1, ..., 9.
theorem not_rangeSound_gt :
    let w := makeWhileLoop .gt (s32Literal 0 (by decide)) (s32Literal 10 (by decide)) (s32Literal 1 (by decide))
    w.Counts 0 .s32 .gt true (s32Literal 10 (by decide)) (some (s32Literal 1 (by decide))) ∧
      ¬w.RangeSound (fun _ _ _ => none) (evaluateConstant w.parent) 0 := by
  intro w
  refine ⟨makeWhileLoop_counts rfl, ?_⟩
  rintro ⟨result, h, hs⟩
  have hr : matchTrivialLoopRange (fun _ _ _ => none) (evaluateConstant w.parent) w =
      some (some ⟨.get 0 32 true, ConstantValue.get 9 32 true, ConstantValue.get 1 64 true, false, true⟩) := by
    decide +kernel
  obtain rfl := Option.some.inj (hr.symm.trans h)
  obtain ⟨init, max, step, hi, hm, _, hs⟩ := hs _ rfl
  obtain rfl := Option.some.inj hm
  obtain rfl := Option.some.inj (Option.some.inj hi)
  obtain ⟨n, _, hv⟩ := hs (by decide +kernel)
  have hv := (hv 0).mpr ⟨0, Nat.zero_le n, by rw [Nat.cast_zero, zero_mul]; rfl⟩
  exact absurd hv.cond (by decide +kernel)

end WhileLoop
