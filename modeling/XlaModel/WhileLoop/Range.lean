import XlaModel.WhileLoop.Basic

-- The functions below return `none` if a `CHECK` fails.
namespace WhileLoop

namespace TripCount

-- The result in two's complement.
def wrap (v : Int) : Int :=
  v.bmod (2 ^ 64)

def checkedAdd (a b : Int) : Option Int :=
  let result := wrap (a + b)
  if (a ≥ 0 ↔ b ≥ 0) ∧ ¬(result ≥ 0 ↔ a ≥ 0) then none else some result

def checkedSubtract (a b : Int) : Option Int :=
  let result := wrap (a - b)
  if ¬(a ≥ 0 ↔ b ≥ 0) ∧ (result ≥ 0 ↔ b ≥ 0) then none else some result

-- The difference to the nearest multiple of `y`, which is the even one of two nearest multiples.
def remainder (x y : Int) : Int :=
  let r := x % y
  if 2 * r < y ∨ 2 * r = y ∧ x / y % 2 = 0 then r else r - y

-- `i = init; i < bound; i += step`
def lessThan (init bound step : Int) : Option Int := do
  let trips ← checkedSubtract bound init
  let remainder := remainder trips step
  let div := trips.tdiv step
  if remainder = 0 then
    return max 0 div
  else
    let trips ← checkedAdd div 1
    if trips < bound then return max 0 trips
    else return max 0 div

-- `i = init; i <= bound; i += step`
def lessEqual (init bound step : Int) : Option Int := do
  let trips ← checkedSubtract bound init
  let trips ← checkedAdd (trips.tdiv step) 1
  return max 0 trips

end TripCount

open TripCount in
def matchTrivialLoopTripCount (whileOp : WhileOp) (indvarTupleIdx : Nat) (indvarInit : Literal) :
    Option (Option Int) := do
  let body := whileOp.whileBody
  let cond := whileOp.whileCondition
  let some indvarInitVal := indvarInit.literalAsScalarInt64 | return none
  let whileBodyIndvarUpdate := body.trace (← (body.operands body.rootInstruction)[indvarTupleIdx]?)
  let some whileBodyIndvar := body.nonConstantOperand whileBodyIndvarUpdate | return none
  if some (body.trace whileBodyIndvar) ≠ body.indvar indvarTupleIdx then return none
  -- The pattern does not capture anything if it does not match.
  let some tripCountIncreaseStepInstr :=
    body.matchAddAnyOrder whileBodyIndvarUpdate whileBodyIndvar fun op => (body.opcode op).isConstant | return none
  let tripCountStep ← (← body.literal tripCountIncreaseStepInstr).literalAsScalarInt64
  if tripCountStep ≤ 0 then return none
  let whileCondRoot := cond.rootInstruction
  let some whileCondIndvar := cond.nonConstantOperand whileCondRoot | return none
  if some whileCondIndvar ≠ cond.indvar indvarTupleIdx then return none
  let some whileCondBound :=
    cond.matchBinaryOperandsAnyOrder whileCondRoot whileCondIndvar cond.isConstantEffectiveScalar | return none
  let some whileCondBoundVal := (← cond.literal whileCondBound).literalAsScalarInt64 | return none
  if (cond.operands whileCondRoot)[0]? ≠ some whileCondIndvar then return none
  match cond.comparisonDirection whileCondRoot with
  | some .lt => return lessThan indvarInitVal whileCondBoundVal tripCountStep
  | some .le => return lessEqual indvarInitVal whileCondBoundVal tripCountStep
  | _        => return none

end WhileLoop

-- The functions below return `none` if a `CHECK` fails, if an `int64_t` overflows or if a missing value is read.
namespace WhileLoop

structure ConstantValue where
  value    : BitVec 64
  bitwidth : Nat
  isSigned : Bool
  deriving DecidableEq

namespace ConstantValue

def lsbMask (width : Nat) : BitVec 64 :=
  if width = 0 then 0 else BitVec.allOnes 64 >>> (64 - width)

def keepLowerBits (value : BitVec 64) (width : Nat) : BitVec 64 :=
  value &&& lsbMask width

-- Masks the extra bits of the value away.
def make (value : BitVec 64) (bitwidth : Nat) (isSigned : Bool) : ConstantValue where
  value    := if isSigned then (value <<< (64 - bitwidth)).sshiftRight (64 - bitwidth) else keepLowerBits value bitwidth
  bitwidth := bitwidth
  isSigned := isSigned

def get (value : Int) (bitwidth : Nat) (isSigned : Bool) : ConstantValue :=
  make (.ofInt 64 value) bitwidth isSigned

def getSignedValue (v : ConstantValue) : Int :=
  v.value.toInt

def getUnsignedValue (v : ConstantValue) : Nat :=
  v.value.toNat

def toInt (v : ConstantValue) : Int :=
  if v.isSigned then v.getSignedValue else v.getUnsignedValue

end ConstantValue

structure Range where
  min      : ConstantValue
  max      : Option ConstantValue
  step     : Option ConstantValue
  empty    : Bool
  isLinear : Bool
  deriving DecidableEq

namespace Range

def isSingleValue (r : Range) : Bool :=
  !r.empty && r.max = some r.min

def getSingleSignedValue (r : Range) : Option Int :=
  if r.isSingleValue then some r.min.getSignedValue else none

end Range

namespace HloComputation

variable (c : HloComputation)

-- The set of the indices of the elements of `gteOperand`, or `none` for operands of another form.
def getGTEOperandIndices (instr gteOperand : Nat) : Option (List Nat) := do
  let indices ← ((c.operands instr).filter fun operand => !(c.opcode operand).isConstant).mapM fun operand =>
    let possiblyGte := match c.opcode operand with
      | .copy operand => operand
      | _             => operand
    match c.opcode possiblyGte with
    | .getTupleElement operand tupleIndex => if operand = gteOperand then some tupleIndex else none
    | _                                   => none
  return indices.dedup

-- The slow path `extracted` analyses a copy of the instructions between `inp` and `out`.
def getGTEDependenceIndices (extracted : HloComputation → Nat → Nat → Option (List Nat)) (out inp : Nat) :
    Option (List Nat) :=
  (c.getGTEOperandIndices out inp).or (extracted c out inp)

def getUniqueGTEDependenceIndex (extracted : HloComputation → Nat → Nat → Option (List Nat)) (out inp : Nat) :
    Option Nat := do
  let tupleIdxs ← c.getGTEDependenceIndices extracted out inp
  if let [tupleIdx] := tupleIdxs then return tupleIdx else none

end HloComputation

section

variable (extracted : HloComputation → Nat → Nat → Option (List Nat)) (evaluate : Nat → Option Literal) (whileOp : WhileOp)

-- The known values belong to the operands of the tuple that the loop starts with.
def getLoopInductionVarTupleIdxWithKnownValues (knownValues : Nat → Option Range) : Option (Option Nat) := do
  let cond := whileOp.whileCondition
  let body := whileOp.whileBody
  let some condTupleIndices :=
    cond.getGTEDependenceIndices extracted cond.rootInstruction cond.parameterInstruction | return none
  let .tuple operands := whileOp.parent.opcode whileOp.operand | return none
  let candidates ←
    if condTupleIndices.length = 1 then some condTupleIndices
    else condTupleIndices.filterM fun index => return (knownValues (← operands[index]?)).isNone
  let [indvarTupleIdx] := candidates | return none
  let .tuple updates := body.opcode body.rootInstruction | return none
  let whileBodyInc := body.trace (← updates[indvarTupleIdx]?)
  if body.getUniqueGTEDependenceIndex extracted whileBodyInc body.parameterInstruction = some indvarTupleIdx then
    return some indvarTupleIdx
  else return none

def getLoopInductionVarTupleIdx : Option (Option Nat) :=
  getLoopInductionVarTupleIdxWithKnownValues extracted whileOp fun _ => none

-- The evaluator returns `none` if it fails.
def evaluateIndvarInit (indvarTupleIdx : Nat) : Option (Option Literal) := do
  let indvarInit ← (whileOp.parent.operands whileOp.operand)[indvarTupleIdx]?
  return evaluate (whileOp.parent.trace indvarInit)

def whileCondBoundSupportsEquality : ComparisonDirection → Option Bool
  | .lt | .gt => some false
  | .le | .ge => some true
  | _         => none

-- Rounds the bound down so that its difference to the initial value is a multiple of the step.
def roundDown (init bound step : Int) : Option Int := do
  let remainder ← int64 (bound.tmod step - init.tmod step)
  let remainder := remainder.tmod step
  let remainder := if remainder < 0 then remainder + step else remainder
  int64 (bound - remainder)

def whileCondBoundVal (inductionVarBound : Nat) (knownValues : Nat → Option Range) : Option (Option Int) :=
  let cond := whileOp.whileCondition
  match cond.opcode inductionVarBound with
  | .constant literal             => some literal.literalAsScalarInt64
  | .getTupleElement _ tupleIndex => do
    let operand ← (whileOp.parent.operands whileOp.operand)[tupleIndex]?
    return (knownValues operand).bind Range.getSingleSignedValue
  | _ => some none

def matchLoopRangeWithKnownValues (inductionVarIdx : Nat) (knownValues : Nat → Option Range) :
    Option (Option Range) := do
  let body := whileOp.whileBody
  let cond := whileOp.whileCondition
  let some indvarInit := ← evaluateIndvarInit evaluate whileOp inductionVarIdx | return none
  let some indvarInitVal := indvarInit.literalAsScalarInt64 | return none
  let whileBodyIndvarUpdate ← (body.operands body.rootInstruction)[inductionVarIdx]?
  let some whileBodyIndvar := body.nonConstantOperand whileBodyIndvarUpdate | return none
  if some whileBodyIndvar ≠ body.indvar inductionVarIdx then return none
  -- The pattern does not capture anything if it does not match.
  let some tripCountIncreaseStepInstr :=
    body.matchAddAnyOrder whileBodyIndvarUpdate whileBodyIndvar fun _ => true | return none
  let tripCountStep ← (← body.literal tripCountIncreaseStepInstr).literalAsScalarInt64
  if tripCountStep ≤ 0 then return none
  let some whileCondIndvar := cond.indvar inductionVarIdx | return none
  let some whileCondBound :=
    cond.matchBinaryOperandsAnyOrder cond.rootInstruction whileCondIndvar fun _ => true | return none
  let some boundVal := ← whileCondBoundVal whileOp whileCondBound knownValues | return none
  let some supportsEquality :=
    (cond.comparisonDirection cond.rootInstruction).bind whileCondBoundSupportsEquality | return none
  let boundVal ← if supportsEquality then some boundVal else int64 (boundVal - 1)
  let boundVal ← roundDown indvarInitVal boundVal tripCountStep
  let initType := indvarInit.elementType
  let boundType := (cond.instruction whileCondBound).elementType
  return some {
    min      := .get indvarInitVal initType.bitWidth initType.isSignedIntegralType
    max      := ConstantValue.get boundVal boundType.bitWidth boundType.isSignedIntegralType
    step     := ConstantValue.get tripCountStep 64 true
    empty    := false
    isLinear := true
  }

def matchTrivialLoopRange : Option (Option Range) := do
  let some indvarTupleIdx := ← getLoopInductionVarTupleIdx extracted whileOp | return none
  matchLoopRangeWithKnownValues evaluate whileOp indvarTupleIdx fun _ => none

end
end WhileLoop
