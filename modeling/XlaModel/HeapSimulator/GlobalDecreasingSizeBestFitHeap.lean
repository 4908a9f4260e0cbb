import Mathlib.Data.Int.Bitwise
import XlaModel.HeapSimulator.SlicedAllocationFinder
import XlaModel.Lib.MapVector
import XlaModel.Lib.Worklist

namespace HeapSimulator

def int64Max : Int :=
  9223372036854775807

structure BufferInterval (β : Type) where
  buffer                 : β
  size                   : Int
  start                  : Int
  end_                   : Int
  colocations            : List β
  needAllocation         : Bool
  minColocationStartTime : Int := -1
  maxColocationEndTime   : Int := -1

structure HeapResult (β : Type) where
  chunkMap : List (β × Chunk) := []
  heapSize : Int := 0

structure GlobalDecreasingSizeBestFitHeap (β : Type) where
  alignment       : Int
  alignment_pos   : 1 ≤ alignment
  bufferIntervals : List (β × BufferInterval β) := []
  intervalTree    : BufferIntervalTree := .empty
  result          : HeapResult β := {}
  currentTime     : Int := 0

namespace GlobalDecreasingSizeBestFitHeap

variable {β : Type} [DecidableEq β] (heap : GlobalDecreasingSizeBestFitHeap β)

def interval (buffer : β) : Option (BufferInterval β) :=
  heap.bufferIntervals.lookup buffer

def getTransitiveColocations (fuel : Nat) (interval : BufferInterval β) : Option (List β) :=
  Worklist.loop BufferInterval.colocations heap.interval fuel [interval] []

def getMaxColocationSize (fuel : Nat) (bufferInterval : BufferInterval β) : Option Int := do
  let colocations ← heap.getTransitiveColocations fuel bufferInterval
  colocations.foldlM (fun maxColocationSize colocation => do
    let interval ← heap.interval colocation
    return max maxColocationSize interval.size) bufferInterval.size

section MakeFreeChunks

def ceilOfRatio (numerator denominator : Int) : Int :=
  let roundedTowardZero := numerator.tdiv denominator
  let intermediateProduct := roundedTowardZero * denominator
  let needsAdjustment := roundedTowardZero ≥ 0 ∧
    ((denominator > 0 ∧ numerator > intermediateProduct) ∨ (denominator < 0 ∧ numerator < intermediateProduct))
  roundedTowardZero + if needsAdjustment then 1 else 0

def roundUpTo (value divisor : Int) : Int :=
  ceilOfRatio value divisor * divisor

-- Returns `none` if the value of a signed operation exceeds an `int64_t`.
def checked (v : Int) : Option Int :=
  if v ≤ int64Max then some v else none

def computeAlignedChunkEnd (chunkEnd : Int) : Option Int :=
  if heap.alignment ≠ 1 then
    if heap.alignment.toNat.isPowerOfTwo then do
      return Int.land ((← checked (chunkEnd + heap.alignment)) - 1) (Int.lnot (heap.alignment - 1))
    else
      checked (roundUpTo chunkEnd heap.alignment)
  else
    return chunkEnd

def usedChunks (fuel : Nat) (bufferInterval : BufferInterval β) : Option (List Chunk) := do
  let usedChunks ← heap.intervalTree.chunksOverlappingInTime bufferInterval.start bufferInterval.end_ fuel
  let colocations ← heap.getTransitiveColocations fuel bufferInterval
  colocations.foldlM (fun usedChunks colocation => do
    let interval ← heap.interval colocation
    return usedChunks ++ (← heap.intervalTree.chunksOverlappingInTime interval.start interval.end_ fuel)) usedChunks

-- The list of free chunks, and the start of the last one.
def mergeUsedChunks (size : Int) (currentFreeChunkStart currentOffset currentEnd : Int) :
    List Chunk → List (Int × Int) → Option (List (Int × Int) × Int)
  | [],                 freeChunksList => do
    let freeChunksList :=
      if currentOffset - currentFreeChunkStart ≥ size then
        freeChunksList ++ [(currentFreeChunkStart, currentOffset)]
      else
        freeChunksList
    return (freeChunksList, max currentFreeChunkStart (← heap.computeAlignedChunkEnd currentEnd))
  | curr :: usedChunks, freeChunksList =>
    if curr.offset < currentEnd then
      mergeUsedChunks size currentFreeChunkStart currentOffset (max currentEnd curr.chunkEnd) usedChunks freeChunksList
    else do
      let freeChunksList :=
        if currentOffset - currentFreeChunkStart ≥ size then
          freeChunksList ++ [(currentFreeChunkStart, currentOffset)]
        else
          freeChunksList
      let currentFreeChunkStart := max currentFreeChunkStart (← heap.computeAlignedChunkEnd currentEnd)
      mergeUsedChunks size currentFreeChunkStart curr.offset curr.chunkEnd usedChunks freeChunksList

-- The maximum size of the colocated buffers is not used.
def makeFreeChunks (fuel : Nat) (bufferInterval : BufferInterval β) (_maxColocationSize : Int) :
    Option (List (Int × Int)) := do
  let usedChunks ← heap.usedChunks fuel bufferInterval
  match usedChunks.mergeSort (·.offset ≤ ·.offset) with
  | []                 => return [(0, int64Max)]
  | first :: usedChunks =>
    let (freeChunksList, currentFreeChunkStart) ←
      heap.mergeUsedChunks bufferInterval.size 0 first.offset first.chunkEnd usedChunks []
    return DescendingMap.insertAll Prod.fst [] (freeChunksList ++ [(currentFreeChunkStart, int64Max)]).reverse

end MakeFreeChunks

-- Whether a chunk intersects with the preferred location. The aligned end and the sum are only computed if the
-- comparison of the offsets in front of them holds.
def intersectsPreferred (size preferredOffset : Int) (usedChunk : Chunk) : Option Bool :=
  if usedChunk.offset < preferredOffset then
    return preferredOffset < (← heap.computeAlignedChunkEnd usedChunk.chunkEnd)
  else
    return usedChunk.offset < (← checked (preferredOffset + size))

-- A failed check and an overflow are an inner `none`. The search stops at an overflow.
def findLatestEndWithFreeChunkAtPreferredOffset (fuel : Nat) (bufferInterval : BufferInterval β) (preferredOffset : Int) :
    Option (Option Int) :=
  if 0 ≤ preferredOffset then do
    let latestEnd ← heap.intervalTree.applyToSortedNodesOverlapping bufferInterval.start bufferInterval.end_ fuel
      (fun latestEnd node =>
        match heap.intersectsPreferred bufferInterval.size preferredOffset node.chunk with
        | some true  => (some (node.start - 1), true)
        | some false => (latestEnd, false)
        | none       => (none, true)) (some bufferInterval.end_)
    return latestEnd.join
  else
    some none

end GlobalDecreasingSizeBestFitHeap
end HeapSimulator
