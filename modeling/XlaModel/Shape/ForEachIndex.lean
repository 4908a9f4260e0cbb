import XlaModel.Shape.DecomposeBitcast

namespace Shape

variable {τ : Type}

namespace ShapePartitionAssigner

def getTotalPartitionCount (dimensionPartitionCounts : List Nat) : Nat :=
  dimensionPartitionCounts.foldl (· * ·) 1

-- The outermost dimensions and their size.
def outerDims (s : Shape τ) (targetPartitionCount : Nat) : List Nat → Nat → List Nat × Nat
  | [],              outerDimSize => ([], outerDimSize)
  | dimension :: ds, outerDimSize =>
    let outerDimSize := outerDimSize * s.dimension dimension
    if outerDimSize ≥ targetPartitionCount then ([dimension], outerDimSize)
    else
      let (outerDims, outerDimSize) := outerDims s targetPartitionCount ds outerDimSize
      (dimension :: outerDims, outerDimSize)

-- A negative difference assigns no additional partitions, just like zero.
def assignAdditional (s : Shape τ) (outerDims : List Nat) (targetPartitionCount : Nat)
    (dimensionPartitionCounts : List Nat) (i : Nat) : List Nat :=
  let currentDimPartitionCount := dimensionPartitionCounts.getD i 0
  let otherDimsPartitionCount := getTotalPartitionCount dimensionPartitionCounts / currentDimPartitionCount
  let additionalPartitionCount := targetPartitionCount / otherDimsPartitionCount - currentDimPartitionCount
  let additionalPartitionCount :=
    min (s.dimension (outerDims.getD i 0) - dimensionPartitionCounts.getD i 0) additionalPartitionCount
  if additionalPartitionCount > 0 then
    dimensionPartitionCounts.set i (dimensionPartitionCounts.getD i 0 + additionalPartitionCount)
  else dimensionPartitionCounts

-- The floating-point root of the target is the number `targetDimPartitionCount`.
def run (targetDimPartitionCount : Nat) (s : Shape τ) (targetPartitionCount : Nat) : List Nat :=
  let (outerDims, outerDimSize) := outerDims s targetPartitionCount s.minorToMajor.reverse 1
  if outerDims = [] then []
  else
    let targetPartitionCount := min outerDimSize targetPartitionCount
    let dimensionPartitionCounts := outerDims.map fun d => min (s.dimension d) targetDimPartitionCount
    if getTotalPartitionCount dimensionPartitionCounts < targetPartitionCount then
      (List.range dimensionPartitionCounts.length).foldl (assignAdditional s outerDims targetPartitionCount)
        dimensionPartitionCounts
    else dimensionPartitionCounts

end ShapePartitionAssigner

structure ShapePartitionIterator (τ : Type) where
  shape                     : Shape τ
  dimensionPartitionCounts  : List Nat
  dimensions                : List Nat
  dimensionPartitionSizes   : List Nat
  dimensionPartitionStrides : List Nat

namespace ShapePartitionIterator

def strides : List Nat → List Nat
  | []                   => []
  | [_]                  => [1]
  | _ :: count :: counts => ((strides (count :: counts)).headD 1 * count) :: strides (count :: counts)

-- The stride of the last dimension is written, so there must be one.
def make (s : Shape τ) (dimensionPartitionCounts : List Nat) : Option (ShapePartitionIterator τ) := do
  guard (dimensionPartitionCounts ≠ [])
  let dimensions := (List.range dimensionPartitionCounts.length).map s.major
  return {
    shape := s
    dimensionPartitionCounts
    dimensions
    dimensionPartitionSizes := List.zipWith (fun d count => max 1 (s.dimension d / count)) dimensions dimensionPartitionCounts
    dimensionPartitionStrides := strides dimensionPartitionCounts
  }

-- The remaining dimensions, with the counts, sizes and strides of their partitions. A failed `CHECK_GT` is `none`.
def getPartition.loop (s : Shape τ) : List Nat → List Nat → List Nat → List Nat → Nat → Option (List (Nat × Nat))
  | d :: dimensions, count :: counts, size :: sizes, stride :: strides, index => do
    let partitionIndex := index / stride
    let partitionStart := partitionIndex * size
    let partitionSize := if partitionIndex + 1 = count then s.dimension d - partitionStart else size
    guard (partitionSize > 0)
    let partition ← loop s dimensions counts sizes strides (index - partitionIndex * stride)
    return (partitionStart, partitionSize) :: partition
  | _, _, _, _, _ => return []

-- The start and the size of the partition in each of the partitioned dimensions.
def getPartition (iterator : ShapePartitionIterator τ) (index : Nat) : Option (List (Nat × Nat)) :=
  getPartition.loop iterator.shape iterator.dimensions iterator.dimensionPartitionCounts
    iterator.dimensionPartitionSizes iterator.dimensionPartitionStrides index

end ShapePartitionIterator

end Shape

namespace Shape

variable {τ : Type}

def isZeroElementArray (s : Shape τ) : Bool :=
  s.dimensions.contains 0

structure ForEachState (τ : Type) where
  shape   : Shape τ
  base    : List Int
  count   : List Int
  incr    : List Int
  indexes : List Int

namespace ForEachState

-- The numbers of entries are checked.
def make (shape : Shape τ) (base count incr : List Int) : Option (ForEachState τ) := do
  guard (shape.dimensions.length = base.length)
  guard (incr.length = base.length)
  guard (count.length = base.length)
  return { shape, base, count, incr, indexes := base }

def rank (s : ForEachState τ) : Nat :=
  s.shape.minorToMajor.length

def incrementDim.loop (base count incr : List Int) : List Nat → List Int → Nat × List Int
  | [],        indexes => (0, indexes)
  | dim :: ds, indexes =>
    let index := indexes.getD dim 0 + incr.getD dim 0
    if index < base.getD dim 0 + count.getD dim 0 then (0, indexes.set dim index)
    else
      let (n, indexes) := loop base count incr ds (indexes.set dim (base.getD dim 0))
      (n + 1, indexes)

-- Also returns the number of dimensions that are back at their base.
def incrementDim (s : ForEachState τ) : Nat × ForEachState τ :=
  let (n, indexes) := incrementDim.loop s.base s.count s.incr s.shape.minorToMajor s.indexes
  (n, { s with indexes })

-- The indices that are visited until the visitor does not continue. The loop need not end within the fuel.
def visit (visitor : List Int → Bool) : Nat → ForEachState τ → Option (List (List Int))
  | 0,        _ => none
  | fuel + 1, s =>
    if visitor s.indexes then
      let (n, s') := s.incrementDim
      if n < s.rank then do
        let visited ← visit visitor fuel s'
        return s.indexes :: visited
      else return [s.indexes]
    else return [s.indexes]

end ForEachState

def forEachIndexInternal (fuel : Nat) (shape : Shape τ) (base count incr : List Int) (visitor : List Int → Bool) :
    Option (List (List Int)) := do
  let s ← ForEachState.make shape base count incr
  if isZeroElementArray shape then
    return []
  s.visit visitor fuel

namespace ForEachIndexInternalParallel

def ceilOfRatio (numerator denominator : Int) : Int :=
  let roundedTowardZero := numerator.tdiv denominator
  let intermediateProduct := roundedTowardZero * denominator
  let needsAdjustment := roundedTowardZero ≥ 0 ∧
    ((denominator > 0 ∧ numerator > intermediateProduct) ∨ (denominator < 0 ∧ numerator < intermediateProduct))
  roundedTowardZero + if needsAdjustment then 1 else 0

def workDims (shape : Shape τ) (count incr : List Int) : List Nat :=
  (List.range shape.dimensions.length).map fun d => (ceilOfRatio (count.getD d 0) (incr.getD d 0)).toNat

def workShape (shape : Shape τ) (count incr : List Int) : Shape τ where
  elementType  := shape.elementType
  dimensions   := workDims shape count incr
  minorToMajor := shape.minorToMajor
  perm         := by
    rw [workDims, List.length_map, List.length_range]
    exact shape.perm

-- The base and the count of a partition.
def adjust (shape : Shape τ) (count incr : List Int) (partition : List (Nat × Nat)) :
    List Int × List Int → Nat → List Int × List Int
  | (partitionBase, partitionCount), d =>
    let (partitionStart, partitionSize) := partition.getD d (0, 0)
    let dim := shape.major d
    (partitionBase.set dim (partitionBase.getD dim 0 + partitionStart * incr.getD dim 0),
      partitionCount.set dim
        (min (count.getD dim 0 - partitionStart * incr.getD dim 0) (partitionSize * incr.getD dim 0)))

def processPartition (fuel : Nat) (shape : Shape τ) (base count incr : List Int) (partition : List (Nat × Nat)) :
    Option (List (List Int)) := do
  let (partitionBase, partitionCount) := (List.range partition.length).foldl (adjust shape count incr partition) (base, count)
  let s ← ForEachState.make shape partitionBase partitionCount incr
  s.visit (fun _ => true) fuel

end ForEachIndexInternalParallel

open ForEachIndexInternalParallel in
-- The visitor always continues. The partitions are processed in the order of `parallelFor`.
def forEachIndexInternalParallel (fuel : Nat) (threadCount targetDimPartitionCount : Nat) (parallelFor : Nat → List Nat)
    (shape : Shape τ) (base count incr : List Int) : Option (List (List Int)) := do
  let _ ← ForEachState.make shape base count incr
  if isZeroElementArray shape then
    return []
  let executeInline := forEachIndexInternal fuel shape base count incr fun _ => true
  if count.contains 0 || incr.contains 0 then
    return ← executeInline
  if shape.elementsIn = 1 then
    return ← executeInline
  let workShape := workShape shape count incr
  let partitionCounts := ShapePartitionAssigner.run targetDimPartitionCount workShape threadCount
  let partitionCount := ShapePartitionAssigner.getTotalPartitionCount partitionCounts
  if partitionCount = 1 then
    return ← executeInline
  let iterator ← ShapePartitionIterator.make workShape partitionCounts
  let visited ← (parallelFor partitionCount).mapM fun i => do
    let partition ← iterator.getPartition i
    processPartition fuel shape base count incr partition
  return visited.flatten

end Shape
