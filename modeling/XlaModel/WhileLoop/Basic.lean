import Mathlib.Algebra.Ring.Int.Defs
import Mathlib.Algebra.Ring.Nat
import Mathlib.Data.List.Dedup
import XlaModel.Lib.Transition

-- The instructions that the analysis of while loops looks at.
namespace WhileLoop

inductive PrimitiveType where
  | s1 | s2 | s4 | s8 | s16 | s32 | s64
  | u1 | u2 | u4 | u8 | u16 | u32 | u64
  -- The types whose values are no integers.
  | other
  deriving DecidableEq

namespace PrimitiveType

def bitWidth : PrimitiveType → Nat
  | s1 | u1   => 1
  | s2 | u2   => 2
  | s4 | u4   => 4
  | s8 | u8   => 8
  | s16 | u16 => 16
  | s32 | u32 => 32
  | s64 | u64 => 64
  | other     => 0

def isSignedIntegralType : PrimitiveType → Bool
  | s1 | s2 | s4 | s8 | s16 | s32 | s64 => true
  | _                                   => false

def isUnsignedIntegralType : PrimitiveType → Bool
  | u1 | u2 | u4 | u8 | u16 | u32 | u64 => true
  | _                                   => false

def isIntegralType (t : PrimitiveType) : Bool :=
  t.isUnsignedIntegralType || t.isSignedIntegralType

-- The values of a type. Types that are not integral have no relevant values.
def Holds (t : PrimitiveType) (v : Int) : Prop :=
  if t.isSignedIntegralType then -2 ^ t.bitWidth ≤ 2 * v ∧ 2 * v < 2 ^ t.bitWidth
  else 0 ≤ v ∧ v < 2 ^ t.bitWidth

instance (t : PrimitiveType) (v : Int) : Decidable (t.Holds v) :=
  inferInstanceAs (Decidable (if t.isSignedIntegralType then -2 ^ t.bitWidth ≤ 2 * v ∧ 2 * v < 2 ^ t.bitWidth
    else 0 ≤ v ∧ v < 2 ^ t.bitWidth))

end PrimitiveType

-- A result that does not fit into an `int64_t` is an overflow.
def int64 (v : Int) : Option Int :=
  if PrimitiveType.s64.Holds v then some v else none

-- A literal whose first element is `first`.
structure Literal where
  elementType       : PrimitiveType
  isEffectiveScalar : Bool
  first             : Int
  holds             : elementType.Holds first

namespace Literal

def getFirstInteger (l : Literal) : Option Int :=
  if l.elementType.isIntegralType then int64 l.first else none

def literalAsScalarInt64 (l : Literal) : Option Int :=
  if l.isEffectiveScalar then l.getFirstInteger else none

end Literal

inductive ComparisonDirection where
  | eq | ne | ge | gt | le | lt
  deriving DecidableEq

namespace ComparisonDirection

def compare : ComparisonDirection → Int → Int → Bool
  | eq, a, b => a = b
  | ne, a, b => a ≠ b
  | ge, a, b => a ≥ b
  | gt, a, b => a > b
  | le, a, b => a ≤ b
  | lt, a, b => a < b

end ComparisonDirection

-- Operands are identified by their position in the computation.
inductive HloOpcode where
  | parameter
  | constant (literal : Literal)
  | getTupleElement (operand tupleIndex : Nat)
  | tuple (operands : List Nat)
  | copy (operand : Nat)
  | copyStart (operand : Nat)
  | copyDone (operand : Nat)
  | add (lhs rhs : Nat)
  | compare (direction : ComparisonDirection) (lhs rhs : Nat)
  | other (operands : List Nat)

namespace HloOpcode

def operands : HloOpcode → List Nat
  | parameter | constant _                              => []
  | getTupleElement operand _                           => [operand]
  | copy operand | copyStart operand | copyDone operand => [operand]
  | add lhs rhs | compare _ lhs rhs                     => [lhs, rhs]
  | tuple operands | other operands                     => operands

def isConstant : HloOpcode → Bool
  | constant _ => true
  | _          => false

end HloOpcode

structure HloInstruction where
  opcode      : HloOpcode
  elementType : PrimitiveType

-- The instructions are in an order in which operands come first. All computations have one parameter.
structure HloComputation where
  instructions         : List HloInstruction
  parameterInstruction : Nat
  rootInstruction      : Nat
  parameter_opcode     : instructions[parameterInstruction]?.map (·.opcode) = some .parameter
  operands_lt          : ∀ i, ∀ h : i < instructions.length, ∀ operand ∈ instructions[i].opcode.operands, operand < i

namespace HloComputation

variable (c : HloComputation)

def instruction (i : Nat) : HloInstruction :=
  c.instructions.getD i ⟨.other [], .other⟩

def opcode (i : Nat) : HloOpcode :=
  (c.instruction i).opcode

def operands (i : Nat) : List Nat :=
  (c.opcode i).operands

def users (i : Nat) : List Nat :=
  (List.range c.instructions.length).filter (i ∈ c.operands ·)

-- Operands have smaller positions, so that the chain ends before the fuel.
def traceThroughCopyAndGteTupleChain : Nat → Nat → Nat
  | 0,        instr => instr
  | fuel + 1, instr =>
    match c.opcode instr with
    | .getTupleElement operand tupleIndex =>
      match c.opcode operand with
      | .tuple operands => traceThroughCopyAndGteTupleChain fuel (operands.getD tupleIndex instr)
      | _               => instr
    | .copy operand | .copyStart operand | .copyDone operand => traceThroughCopyAndGteTupleChain fuel operand
    | _ => instr

def trace (instr : Nat) : Nat :=
  c.traceThroughCopyAndGteTupleChain (instr + 1) instr

namespace NonConstantOperand

-- The loop is left with `none` if there are different non-constant operands.
def visit (result : Option (Option Nat)) (operand : Nat) : Option (Option Nat) :=
  match result with
  | none        => none
  | some result =>
    if (c.opcode operand).isConstant then some result
    else if result.any (· ≠ operand) then none
    else some (some operand)

end NonConstantOperand

def nonConstantOperand (instr : Nat) : Option Nat :=
  ((c.operands instr).foldl (NonConstantOperand.visit c) (some none)).join

def isGte (operand index instr : Nat) : Bool :=
  match c.opcode instr with
  | .getTupleElement operand' tupleIndex => operand' = operand && tupleIndex = index
  | _                                    => false

def getUniqueGteInstruction (operand index : Nat) : Option Nat :=
  match (c.users operand).filter (c.isGte operand index) with
  | [gte] => some gte
  | _     => none

def indvar (index : Nat) : Option Nat :=
  c.getUniqueGteInstruction c.parameterInstruction index

-- `AddAnyOrder(Op().Is(is), op)`, which captures the operand that `op` matches.
def matchAddAnyOrder (instr is : Nat) (op : Nat → Bool) : Option Nat :=
  match c.opcode instr with
  | .add lhs rhs =>
    if lhs = is && op rhs then some rhs
    else if rhs = is && op lhs then some lhs
    else none
  | _ => none

-- `Op().WithBinaryOperandsAnyOrder(Op().Is(is), op)`, which captures the operand that `op` matches.
def matchBinaryOperandsAnyOrder (instr is : Nat) (op : Nat → Bool) : Option Nat :=
  match c.operands instr with
  | [lhs, rhs] =>
    if lhs = is && op rhs then some rhs
    else if rhs = is && op lhs then some lhs
    else none
  | _ => none

def literal (instr : Nat) : Option Literal :=
  match c.opcode instr with
  | .constant literal => some literal
  | _                 => none

def isConstantEffectiveScalar (instr : Nat) : Bool :=
  (c.literal instr).any (·.isEffectiveScalar)

def comparisonDirection (instr : Nat) : Option ComparisonDirection :=
  match c.opcode instr with
  | .compare direction _ _ => some direction
  | _                      => none

end HloComputation

-- The operand of the loop is the instruction `operand` of the computation `parent`.
structure WhileOp where
  parent         : HloComputation
  operand        : Nat
  whileCondition : HloComputation
  whileBody      : HloComputation
end WhileLoop

-- The meaning of a loop for its induction variable.
namespace WhileLoop

inductive Value where
  | int (v : Int)
  | pred (b : Bool)
  deriving DecidableEq

def Literal.value (l : Literal) : Option Value :=
  if l.isEffectiveScalar && l.elementType.isIntegralType then some (.int l.first) else none

namespace HloComputation

variable (c : HloComputation)

-- Values are only known if they do not depend on the other elements of the parameter. A sum that wraps around has no
-- value.
def evaluateStep (index : Nat) (v : Int) (evaluate : Nat → Option Value) (instr : Nat) : Option Value :=
  match c.opcode instr with
  | .constant literal => literal.value
  | .getTupleElement operand tupleIndex =>
    match c.opcode operand with
    | .parameter      => if operand = c.parameterInstruction ∧ tupleIndex = index then some (.int v) else none
    | .tuple operands => operands[tupleIndex]?.bind evaluate
    | _               => none
  | .copy operand | .copyStart operand | .copyDone operand => evaluate operand
  | .add lhs rhs =>
    match evaluate lhs, evaluate rhs with
    | some (.int a), some (.int b) => if (c.instruction instr).elementType.Holds (a + b) then some (.int (a + b)) else none
    | _,             _             => none
  | .compare direction lhs rhs =>
    match evaluate lhs, evaluate rhs with
    | some (.int a), some (.int b) => some (.pred (direction.compare a b))
    | _,             _             => none
  | _ => none

def evaluateWithin (index : Nat) (v : Int) : Nat → Nat → Option Value
  | 0,        _     => none
  | fuel + 1, instr => c.evaluateStep index v (evaluateWithin index v fuel) instr

-- The value of an instruction if the element `index` of the parameter is `v`.
def evaluate (index : Nat) (v : Int) (instr : Nat) : Option Value :=
  c.evaluateWithin index v (instr + 1) instr

end HloComputation

namespace WhileOp

variable (w : WhileOp)

def condition (index : Nat) (v : Int) : Option Bool :=
  match w.whileCondition.evaluate index v w.whileCondition.rootInstruction with
  | some (.pred b) => some b
  | _              => none

def update (index : Nat) (v : Int) : Option Int := do
  let update ← (w.whileBody.operands w.whileBody.rootInstruction)[index]?
  match w.whileBody.evaluate index v update with
  | some (.int v) => return v
  | _             => none

-- The values of the induction variable on which the body runs. The loop ends and the variable does not wrap around.
abbrev Runs (index : Nat) (init : Int) (values : List Int) : Prop :=
  LoopRun.Runs (w.condition index) (w.update index) init values

end WhileOp
end WhileLoop
