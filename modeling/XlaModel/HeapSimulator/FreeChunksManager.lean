import XlaModel.HeapSimulator.GlobalDecreasingSizeBestFitHeap
import XlaModel.Lib.BTreeSet

namespace HeapSimulator

structure MemoryChunk where
  offset             : Int := -1
  end_               : Int := -1
  alignedChunkOffset : Int := -1
  id                 : Int := -1
  deriving DecidableEq

namespace MemoryChunk

def alignedSize (chunk : MemoryChunk) : Int :=
  chunk.end_ - chunk.alignedChunkOffset

def OffsetLessThan (a b : MemoryChunk) : Prop :=
  a.offset < b.offset ∨ a.offset = b.offset ∧ a.end_ < b.end_

def AlignedSizeLessThan (a b : MemoryChunk) : Prop :=
  a.alignedSize < b.alignedSize ∨
  a.alignedSize = b.alignedSize ∧ (a.offset < b.offset ∨ a.offset = b.offset ∧ a.id < b.id)

instance : DecidableRel OffsetLessThan := fun _ _ =>
  inferInstanceAs (Decidable (_ ∨ _))

instance : DecidableRel AlignedSizeLessThan := fun _ _ =>
  inferInstanceAs (Decidable (_ ∨ _))

end MemoryChunk

structure FreeChunksManager where
  freeChunksByOffset    : List MemoryChunk := []
  freeChunksBySize      : List MemoryChunk := []
  freeChunksToBeRemoved : List Int := []
  nextFreeChunkId       : Int := 1

namespace FreeChunksManager

open MemoryChunk

variable (chunkAlignment : Int → Int)

-- Dummy chunks that are never united with the real ones.
def veryBeginningChunk : MemoryChunk :=
  { offset := -2, end_ := -1, alignedChunkOffset := -1, id := 1 }

def veryEndChunk : MemoryChunk :=
  { offset := int64Max - 2, end_ := int64Max - 1, alignedChunkOffset := -1, id := 3 }

def create : FreeChunksManager :=
  let realFreeChunk : MemoryChunk :=
    { offset := 0, end_ := int64Max - 3, alignedChunkOffset := chunkAlignment 0, id := 2 }
  { freeChunksByOffset := [veryBeginningChunk, realFreeChunk, veryEndChunk]
    freeChunksBySize   := [realFreeChunk]
    nextFreeChunkId    := 4 }

def addNewFreeChunk (offset end_ : Int) (manager : FreeChunksManager) : FreeChunksManager :=
  let chunk : MemoryChunk := { offset, end_, alignedChunkOffset := chunkAlignment offset, id := manager.nextFreeChunkId }
  { manager with
    freeChunksByOffset := BTreeSet.insert OffsetLessThan chunk manager.freeChunksByOffset
    freeChunksBySize   := BTreeSet.insert AlignedSizeLessThan chunk manager.freeChunksBySize
    nextFreeChunkId    := manager.nextFreeChunkId + 1 }

-- The chunk leaves the index by size only when a query passes over it.
def removeFreeChunk (chunk : MemoryChunk) (manager : FreeChunksManager) : FreeChunksManager :=
  { manager with
    freeChunksByOffset    := manager.freeChunksByOffset.erase chunk
    freeChunksToBeRemoved := chunk.id :: manager.freeChunksToBeRemoved }

-- Fails where the check of the containment does.
def allocate (offset end_ : Int) (manager : FreeChunksManager) : Option FreeChunksManager := do
  let freeChunk ← (BTreeSet.before OffsetLessThan { offset, end_ := int64Max } manager.freeChunksByOffset).getLast?
  guard (freeChunk.offset ≤ offset ∧ end_ ≤ freeChunk.end_)
  let manager := manager.removeFreeChunk freeChunk
  let manager := if freeChunk.end_ > end_ then manager.addNewFreeChunk chunkAlignment end_ freeChunk.end_ else manager
  return if freeChunk.offset < offset then manager.addNewFreeChunk chunkAlignment freeChunk.offset offset else manager

-- The two halves of a deallocation: the end of the new free chunk, and then its offset.
def deallocateAbove (end_ : Int) (manager : FreeChunksManager) : Int × FreeChunksManager :=
  let freeChunkAbove :=
    (BTreeSet.lowerBound OffsetLessThan { offset := end_, end_ := end_ + 1 } manager.freeChunksByOffset).head?
  match freeChunkAbove.filter (·.offset = end_) with
  | some chunk => (chunk.end_, manager.removeFreeChunk chunk)
  | none       => (end_, manager)

def deallocateBelow (offset right : Int) (manager : FreeChunksManager) : Option FreeChunksManager := do
  let freeChunkBelow ←
    (BTreeSet.before OffsetLessThan { offset, end_ := offset + 1 } manager.freeChunksByOffset).getLast?
  if freeChunkBelow.end_ ≥ offset then
    let manager := manager.removeFreeChunk freeChunkBelow
    return manager.addNewFreeChunk chunkAlignment freeChunkBelow.offset (max right freeChunkBelow.end_)
  else
    return manager.addNewFreeChunk chunkAlignment offset right

def deallocate (offset end_ : Int) (manager : FreeChunksManager) : Option FreeChunksManager :=
  let (right, manager) := manager.deallocateAbove end_
  manager.deallocateBelow chunkAlignment offset right

def findJustLargeEnough (size : Int) (manager : FreeChunksManager) : Option MemoryChunk × FreeChunksManager :=
  let queryChunk : MemoryChunk := { offset := 0, end_ := 0, alignedChunkOffset := -size, id := -1 }
  let chunks := (BTreeSet.lowerBound AlignedSizeLessThan queryChunk manager.freeChunksBySize).dropWhile
    (·.id ∈ manager.freeChunksToBeRemoved)
  (chunks.head?, { manager with
    freeChunksBySize := BTreeSet.before AlignedSizeLessThan queryChunk manager.freeChunksBySize ++ chunks })

def getFreeChunks (manager : FreeChunksManager) : List MemoryChunk :=
  (manager.freeChunksByOffset.tail.map fun chunk => { offset := chunk.offset, end_ := chunk.end_ }).dropLast

inductive Call
  | allocate (offset end_ : Int)
  | deallocate (offset end_ : Int)
  | findJustLargeEnough (size : Int)

def apply (manager : FreeChunksManager) : Call → Option FreeChunksManager
  | .allocate offset end_      => manager.allocate chunkAlignment offset end_
  | .deallocate offset end_    => manager.deallocate chunkAlignment offset end_
  | .findJustLargeEnough size  => (manager.findJustLargeEnough size).2

def run (manager : FreeChunksManager) (calls : List Call) : Option FreeChunksManager :=
  calls.foldlM (apply chunkAlignment) manager

end FreeChunksManager
end HeapSimulator
