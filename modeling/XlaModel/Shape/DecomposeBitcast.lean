import Mathlib.Algebra.Ring.Nat
import XlaModel.Shape.Util

namespace Shape

variable {τ : Type}

def overflowSafeMultiply (x y : Nat) : Except Failure Nat :=
  if x * y ≤ int64Max then return x * y else throw .invalidArgument

-- The product of the byte width and the dimensions must not overflow, also if a later dimension is zero.
def makeValidatedShapeWithDescendingLayout (byteWidth : τ → Nat) (elementType : τ) (dimensions : List Nat) :
    Except Failure (Shape τ) := do
  let _ ← dimensions.foldlM overflowSafeMultiply (byteWidth elementType)
  return makeShapeWithDescendingLayout elementType dimensions

-- The dimension of the given physical dimension number, where the most major dimension has the number zero.
def major (s : Shape τ) (i : Nat) : Nat :=
  s.minorToMajor.getD (s.minorToMajor.length - 1 - i) 0

def makeShapeWithDescendingLayoutAndSamePhysicalLayout (byteWidth : τ → Nat) (s : Shape τ) : Except Failure (Shape τ) :=
  let dims := (List.range s.rank).map fun i => s.dimension (s.major i)
  makeValidatedShapeWithDescendingLayout byteWidth s.elementType dims

def changeElementType (s : Shape τ) (elementType : τ) : Shape τ :=
  { s with elementType }

def transposeIsBitcast [DecidableEq τ] (input output : Shape τ) (dimensionMapping : List Nat)
    (ignoreElementType : Bool) : Except Failure Bool := do
  if !ignoreElementType && !sameElementType input output then
    return false
  return (← composePermutations dimensionMapping output.minorToMajor) = input.minorToMajor

def deduceTransposeDimensionsForBitcast [DecidableEq τ] (input output : Shape τ) : Except Failure (Option (List Nat)) := do
  if output.rank ≠ input.rank then
    return none
  let transposePerm ← composePermutations input.minorToMajor (inversePermutation output.minorToMajor)
  let newDims ← permute input.dimensions transposePerm
  if output.dimensions ≠ newDims then
    return none
  check (← transposeIsBitcast input (changeElementType output input.elementType) transposePerm false)
  return some transposePerm

def equalIgnoringElementType (lhs rhs : Shape τ) : Bool :=
  lhs.dimensions = rhs.dimensions ∧ lhs.minorToMajor = rhs.minorToMajor

def isReshapeOrTransposeBitcast [DecidableEq τ] (a b : Shape τ) (ignoreElementType : Bool) : Except Failure Bool := do
  if !ignoreElementType && !sameElementType a b then
    return false
  if equalIgnoringElementType a b then
    return true
  if reshapeIsBitcast a b true then
    return true
  if let some dimensions ← deduceTransposeDimensionsForBitcast a b then
    return ← transposeIsBitcast b a dimensions true
  return false

def reverseIota (n : Nat) : List Nat :=
  (List.range n).reverse

structure BitcastDecompositionTrt (τ : Type) where
  transpose1Dims  : List Nat
  -- Has a normalized layout.
  transpose1Shape : Shape τ
  -- Has a normalized layout.
  reshapeShape    : Shape τ
  transpose2Dims  : List Nat

inductive BitcastDecomposition (τ : Type) where
  | reshape
  | transpose (transposeDims : List Nat)
  | trt (trt : BitcastDecompositionTrt τ)

def isDecomposableBitcast (input output : Shape τ) : Bool :=
  input.elementsIn = output.elementsIn

def decomposeBitcastToTrt [DecidableEq τ] (byteWidth : τ → Nat) (input output : Shape τ) :
    Except Failure (Option (BitcastDecompositionTrt τ)) := do
  if !isDecomposableBitcast input output then
    return none
  let transpose1Shape ← makeShapeWithDescendingLayoutAndSamePhysicalLayout byteWidth input
  let reshapeShape ← makeShapeWithDescendingLayoutAndSamePhysicalLayout byteWidth output
  check (reshapeIsBitcast transpose1Shape reshapeShape true)
  let transpose1Dims ← composePermutations input.minorToMajor (reverseIota input.rank)
  check (← transposeIsBitcast input transpose1Shape transpose1Dims false)
  let transpose2Dims ← composePermutations (reverseIota output.rank) (inversePermutation output.minorToMajor)
  check (← transposeIsBitcast reshapeShape output transpose2Dims false)
  return some { transpose1Dims, transpose1Shape, reshapeShape, transpose2Dims }

def decomposeBitcast [DecidableEq τ] (byteWidth : τ → Nat) (input output : Shape τ) :
    Except Failure (Option (BitcastDecomposition τ)) := do
  if !isDecomposableBitcast input output then
    return none
  if reshapeIsBitcast input output true then
    return some .reshape
  if let some transposeDims ← deduceTransposeDimensionsForBitcast input output then
    return some (.transpose transposeDims)
  return (← decomposeBitcastToTrt byteWidth input output).map .trt

end Shape
