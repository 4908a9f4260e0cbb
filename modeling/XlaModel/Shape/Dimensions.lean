import XlaModel.Shape.LinearIndex
import XlaModel.Shape.AlignLayouts
import XlaModel.Shape.DecomposeBitcast

-- An array with the fields of the layout that determine its size in the memory. The size of the elements is that of the
-- element type if `elementSizeInBits` is zero. There are no split configurations.
structure AllocatedShape (τ : Type) extends TiledShape τ where
  tailPaddingAlignmentInElements     : Nat
  tailPaddingAlignmentInElements_pos : 1 ≤ tailPaddingAlignmentInElements
  elementSizeInBits                  : Nat

namespace AllocatedShape

open TiledShape.NestedTiling

variable {τ : Type} (s : AllocatedShape τ) (byteSizeOfPrimitiveType : τ → Nat)

def roundUpTo (value divisor : Nat) : Nat :=
  ceilOfRatio value divisor * divisor

def byteSize (numOfElements : Nat) : Nat :=
  if s.elementSizeInBits ≠ 0 then
    ceilOfRatio (numOfElements * s.elementSizeInBits) 8
  else
    numOfElements * byteSizeOfPrimitiveType s.elementType

-- The sub-tiles are assumed not to cause additional padding.
def numOfElements (tile : Tile) : Nat :=
  let tiled := (List.range tile.rank).foldl (fun numOfElements dim =>
    let dimSize := if dim < s.rank then s.dimension (s.minorToMajor.getD dim 0) else 1
    numOfElements * roundUpTo dimSize (tile.dimensions.getD (tile.rank - dim - 1) 0)) 1
  let numOfElements := (s.minorToMajor.drop tile.rank).foldl (fun numOfElements d => numOfElements * s.dimension d) tiled
  if s.tailPaddingAlignmentInElements ≠ 1 then
    roundUpTo numOfElements s.tailPaddingAlignmentInElements
  else
    numOfElements

def arraySize : Nat :=
  match s.tiles with
  | []        => s.byteSize byteSizeOfPrimitiveType s.elementsIn
  | tile :: _ => s.byteSize byteSizeOfPrimitiveType (s.numOfElements tile)

def arrayDataSize : Option Nat := do
  let size := (← s.linearIndex (s.dimensions.map (· - 1))) + 1
  return s.byteSize byteSizeOfPrimitiveType size

end AllocatedShape

namespace Shape

variable {τ : Type}

-- Keeps the bounds of the common factors of rank one and the last bounds.
def dimensionsUnmodifiedByReshape.eraseModified : List (Nat × Nat) → List (Nat × Nat)
  | q :: r :: bounds =>
    if r.1 ≠ q.1 + 1 ∨ r.2 ≠ q.2 + 1 then
      eraseModified (r :: bounds)
    else
      q :: eraseModified (r :: bounds)
  | bounds => bounds

def dimensionsUnmodifiedByReshape (inputShape outputShape : Shape τ) : Except Failure (List (Nat × Nat)) := do
  let commonFactors ← commonFactorsInt64 inputShape.dimensions outputShape.dimensions
  return (dimensionsUnmodifiedByReshape.eraseModified commonFactors).dropLast

structure EqualityDescriptor where
  deletedDimensions  : List Nat
  insertedDimensions : List Nat
deriving DecidableEq

namespace InsertedOrDeleted1SizedDimensions

variable (shapePre shapePost : Shape τ)

-- The dimensions before `start` have been checked.
def checkModifiedDims (d : EqualityDescriptor) (start unmodifiedDimPair : Nat × Nat) : Option EqualityDescriptor :=
  let deleted  := List.range' start.1 (unmodifiedDimPair.1 - start.1)
  let inserted := List.range' start.2 (unmodifiedDimPair.2 - start.2)
  if deleted.any (1 < shapePre.dimension ·) || inserted.any (1 < shapePost.dimension ·) then
    none
  else
    some ⟨d.deletedDimensions ++ deleted, d.insertedDimensions ++ inserted⟩

def checkGaps : EqualityDescriptor → Nat × Nat → List (Nat × Nat) → Option EqualityDescriptor
  | d, start, []                => checkModifiedDims shapePre shapePost d start (shapePre.rank, shapePost.rank)
  | d, start, unmodified :: unmodifiedDims => do
    let d ← checkModifiedDims shapePre shapePost d start unmodified
    checkGaps d (unmodified.1 + 1, unmodified.2 + 1) unmodifiedDims

end InsertedOrDeleted1SizedDimensions

def insertedOrDeleted1SizedDimensions (shapePre shapePost : Shape τ) : Except Failure (Option EqualityDescriptor) := do
  let unmodifiedDims ← dimensionsUnmodifiedByReshape shapePre shapePost
  return InsertedOrDeleted1SizedDimensions.checkGaps shapePre shapePost ⟨[], []⟩ (0, 0) unmodifiedDims

end Shape

namespace Shape

variable {τ : Type}

def isMonotonicWithDim0Major (s : Shape τ) : Bool :=
  s.minorToMajor.IsChain (· ≥ ·)

namespace GetNormalizedLogicalTransposeShape

inductive Failure where
  -- The message of a `FailedPrecondition` status.
  | failedPrecondition (message : String)
  -- A signed product that exceeds an `int64_t` has no defined value.
  | overflow
  -- The `value()` of a status that is not OK.
  | value
  deriving DecidableEq

-- The indices of the first elements of all consecutive subarrays.
def consecutiveSegments (xs : List Nat) : List Nat :=
  0 :: (List.range' 1 (xs.length - 1)).filter fun i => xs.getD i 0 ≠ xs.getD (i - 1) 0 + 1

def multiplies (product d : Nat) : Except Failure Nat :=
  if product * d ≤ int64Max then return product * d else throw .overflow

def accumulate (dims : List Nat) : Except Failure Nat :=
  dims.foldlM multiplies 1

def makeShape (byteWidth : τ → Nat) (elementType : τ) (dimensions : List Nat) : Except Failure (Shape τ) :=
  match makeValidatedShapeWithDescendingLayout byteWidth elementType dimensions with
  | .ok shape => return shape
  | .error _  => throw .value

def mergeDimensions (byteWidth : τ → Nat) (segs : List Nat) (s : Shape τ) : Except Failure (Shape τ) := do
  let dimensions ← (List.range' 1 segs.length).mapM fun i =>
    let last := if segs.length = i then s.dimensions.length else segs.getD i 0
    accumulate ((s.dimensions.take last).drop (segs.getD (i - 1) 0))
  makeShape byteWidth s.elementType dimensions

-- The loop that replaces the entries that are not negative by ascending numbers.
def numberDims (normalizedDim : Nat) : List Int → List Int
  | []                            => []
  | d :: segmentToNormalizedDim =>
    if d ≥ 0 then normalizedDim :: numberDims (normalizedDim + 1) segmentToNormalizedDim
    else d :: numberDims normalizedDim segmentToNormalizedDim

-- The normalized dimensions and the permutation.
def helper (byteWidth : τ → Nat) (outputShape : Shape τ) (outputToInput : List Nat) :
    Except Failure (List Nat × List Nat) := do
  let segments := consecutiveSegments outputToInput
  let normalizedShape ← mergeDimensions byteWidth segments outputShape
  if segments.length = 1 then
    return (normalizedShape.dimensions, [0])
  let segmentToNormalizedDim : List Int := segments.foldl
    (fun dims segment => dims.set (outputToInput.getD segment 0) 0) (List.replicate outputShape.rank (-1))
  let segmentToNormalizedDim := numberDims 0 segmentToNormalizedDim
  let permutation := segments.map fun segment =>
    (segmentToNormalizedDim.getD (outputToInput.getD segment 0) 0).toNat
  return (normalizedShape.dimensions, permutation)

-- The number of degenerate dimensions of the input before each dimension.
def delta (input output : Shape τ) : List Nat :=
  (List.range output.rank).foldl
    (fun delta i => delta.set (i + 1) (if input.dimension i = 1 then delta.getD i 0 + 1 else delta.getD i 0))
    (List.replicate (output.rank + 1) 0)

def newDimensions (input output : Shape τ) (dimensions : List Nat) : List Nat :=
  (List.range dimensions.length).filterMap fun i =>
    let d := dimensions.getD i 0
    if output.dimension i ≠ 1 then some (d - (delta input output).getD d 0) else none

end GetNormalizedLogicalTransposeShape

open GetNormalizedLogicalTransposeShape in
def getNormalizedLogicalTransposeShape (byteWidth : τ → Nat) (inputShape outputShape : Shape τ)
    (dimensions : List Nat) : Except GetNormalizedLogicalTransposeShape.Failure (List Nat × List Nat) := do
  if !isMonotonicWithDim0Major inputShape || !isMonotonicWithDim0Major outputShape then
    throw <| .failedPrecondition ("Transpose normalization requires monotonic layouts. Layout " ++
      "normalization should have assigned the default layout.")
  helper byteWidth (dropDegenerateDimensions outputShape) (newDimensions inputShape outputShape dimensions)

end Shape

namespace TiledShape

open Shape

variable {τ : Type}

-- The dimensions and the layout are replaced, the tiles stay. The layout of a shape is a permutation.
def setDimensionsAndMinorToMajor (s : TiledShape τ) (dimensions minorToMajor : List Nat) : Except Failure (TiledShape τ) :=
  if perm : minorToMajor.Perm (List.range dimensions.length) then
    return { s with dimensions, minorToMajor, perm }
  else throw .check

def permuteDimensionsIgnoringLayout (permutation : List Nat) (s : TiledShape τ) : Except Failure (TiledShape τ) := do
  s.setDimensionsAndMinorToMajor (← permute s.dimensions permutation) s.minorToMajor

-- Returns a shape such that the transpose that is defined by the permutation is a bitcast.
def permuteDimensions [DecidableEq τ] (permutation : List Nat) (s : TiledShape τ) : Except Failure (TiledShape τ) := do
  let newShape ← permuteDimensionsIgnoringLayout permutation s
  let minorToMajor ← composePermutations (inversePermutation permutation) s.minorToMajor
  let newShape ← newShape.setDimensionsAndMinorToMajor newShape.dimensions minorToMajor
  check (← transposeIsBitcast s.toShape newShape.toShape permutation false)
  return newShape

def reorderLogicalDimensions (s : TiledShape τ) (permutation : List Nat) : Except Failure (TiledShape τ) := do
  let dimensions ← permute s.dimensions permutation
  s.setDimensionsAndMinorToMajor dimensions (s.minorToMajor.map (permutation.getD · 0))

end TiledShape
