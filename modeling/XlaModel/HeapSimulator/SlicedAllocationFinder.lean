import XlaModel.HeapSimulator.BufferIntervalTree
import XlaModel.Lib.SortedMap

namespace HeapSimulator.Chunk

def chunkEnd (c : Chunk) : Int :=
  c.offset + c.size

def fromOffsetEnd (offset end_ : Int) : Chunk where
  offset := offset
  size   := end_ - offset

def toString (c : Chunk) : String :=
  s!"[{c.offset},{c.chunkEnd})"

-- The sizes are checked.
def overlapsWith (c other : Chunk) : Option Bool :=
  if c.size = 0 ∨ other.size = 0 then none
  else some <| c.offset < other.chunkEnd ∧ other.offset < c.chunkEnd

instance : Membership Int Chunk where
  mem c x := c.offset ≤ x ∧ x < c.chunkEnd

variable {c d : Chunk} {x : Int}

instance : Decidable (x ∈ c) :=
  inferInstanceAs (Decidable (_ ∧ _))

theorem mem_def : x ∈ c ↔ c.offset ≤ x ∧ x < c.chunkEnd :=
  .rfl

@[simp]
theorem chunkEnd_fromOffsetEnd {offset end_ : Int} : (fromOffsetEnd offset end_).chunkEnd = end_ := by
  simp [chunkEnd, fromOffsetEnd]

@[simp]
theorem offset_fromOffsetEnd {offset end_ : Int} : (fromOffsetEnd offset end_).offset = offset :=
  rfl

theorem size_pos_iff : 0 < c.size ↔ c.offset < c.chunkEnd := by
  rw [chunkEnd]
  omega

theorem overlapsWith_eq (hc : 0 < c.size) (hd : 0 < d.size) :
    c.overlapsWith d = some (decide (c.offset < d.chunkEnd ∧ d.offset < c.chunkEnd)) :=
  if_neg (by omega)

end HeapSimulator.Chunk

namespace HeapSimulator

open DescendingMap

-- The map from the offsets of the free chunks to their ends.
structure FreeChunks where
  toList     : List (Int × Int)
  descending : Descending Prod.fst toList
  nonneg     : ∀ p ∈ toList, 0 ≤ p.1 ∧ p.1 ≤ p.2
  disjoint   : toList.Pairwise fun p q => q.2 ≤ p.1

structure FreeChunkPiece where
  earliestFreeSliceTime : Nat
  dimensions            : Chunk
  deriving DecidableEq

namespace FreeChunkPiece

def offset (piece : FreeChunkPiece) : Int :=
  piece.dimensions.offset

-- The parts of a piece before, in and after a free chunk.
def split (piece : FreeChunkPiece) (freeChunk : Chunk) (freeChunkSliceTime : Nat) : List FreeChunkPiece :=
  let dimensions := piece.dimensions
  let newPiece0 : FreeChunkPiece :=
    ⟨piece.earliestFreeSliceTime, .fromOffsetEnd dimensions.offset (min freeChunk.offset dimensions.chunkEnd)⟩
  let newPiece1 : FreeChunkPiece :=
    ⟨freeChunkSliceTime,
      .fromOffsetEnd (max freeChunk.offset dimensions.offset) (min freeChunk.chunkEnd dimensions.chunkEnd)⟩
  let newPiece2 : FreeChunkPiece :=
    ⟨piece.earliestFreeSliceTime, .fromOffsetEnd freeChunk.chunkEnd dimensions.chunkEnd⟩
  (if freeChunk.offset > dimensions.offset then [newPiece0] else []) ++ [newPiece1] ++
    (if freeChunk.chunkEnd < dimensions.chunkEnd then [newPiece2] else [])

end FreeChunkPiece

structure FreeChunkRoot where
  chunk  : Chunk
  pieces : List FreeChunkPiece
  deriving DecidableEq

namespace FreeChunkRoot

def offset (root : FreeChunkRoot) : Int :=
  root.chunk.offset

def new (freeChunk : Chunk) (freeChunkSliceTime : Nat) : FreeChunkRoot where
  chunk  := freeChunk
  pieces := [⟨freeChunkSliceTime, freeChunk⟩]

section Update

variable (freeChunk : Chunk) (freeChunkSliceTime : Nat)

-- The result is `none` if a check fails.
def updateLoop : List FreeChunkPiece → List FreeChunkPiece → List FreeChunkPiece →
    Option (List FreeChunkPiece × List FreeChunkPiece)
  | [],          pieces, newPieces => some (pieces, newPieces)
  | piece :: it, pieces, newPieces =>
    if piece.dimensions.chunkEnd ≥ freeChunk.offset then do
      let overlaps ← freeChunk.overlapsWith piece.dimensions
      if !overlaps || freeChunkSliceTime + 1 ≠ piece.earliestFreeSliceTime then
        updateLoop it pieces newPieces
      else
        let newPieces := newPieces ++ piece.split freeChunk freeChunkSliceTime
        updateLoop it (erase FreeChunkPiece.offset pieces piece.offset) newPieces
    else
      some (pieces, newPieces)

def update (root : FreeChunkRoot) : Option FreeChunkRoot := do
  let it := lowerBound FreeChunkPiece.offset root.pieces (freeChunk.chunkEnd - 1)
  let (pieces, newPieces) ← updateLoop freeChunk freeChunkSliceTime it root.pieces []
  return { root with pieces := insertAll FreeChunkPiece.offset pieces newPieces }

end Update
end FreeChunkRoot

-- The requirements of the constructor are fields. An iterator is given by the permutations that it emits.
-- Sums of offsets and sizes fit into an `int64_t`.
structure SliceRequest where
  sortedSliceSizes     : List Int
  maxColocationSize    : Int
  preferredOffset      : Int
  alignment            : Int
  sliceTimePermutation : List (List Nat)
  isOffsetAllowed      : Int → Bool
  sizes_nonneg         : ∀ size ∈ sortedSliceSizes, 0 ≤ size
  alignment_pos        : 1 ≤ alignment
  legal                : ∀ p ∈ sliceTimePermutation, p.Perm (List.range sortedSliceSizes.length)

structure SlicedAllocationFinder extends SliceRequest where
  freeChunks : List FreeChunkRoot

namespace SlicedAllocationFinder

def sliceSizeSum (request : SliceRequest) : Int :=
  request.sortedSliceSizes.sum

def latestSliceTime (request : SliceRequest) : Nat :=
  request.sortedSliceSizes.length - 1

-- A size that is too small, such as -1, is replaced.
def effectiveMaxColocationSize (request : SliceRequest) : Int :=
  if request.maxColocationSize < sliceSizeSum request then sliceSizeSum request else request.maxColocationSize

section New

variable (freeChunkSliceTime : Nat)

def initialRoots : List (Int × Int) → List FreeChunkRoot → Option (List FreeChunkRoot)
  | [],                         freeChunks => some freeChunks
  | (offset, end_) :: chunks, freeChunks =>
    let freeChunk := Chunk.fromOffsetEnd offset end_
    if freeChunk.size = 0 then
      initialRoots chunks freeChunks
    else if freeChunk.size > 0 then
      initialRoots chunks <| insert FreeChunkRoot.offset freeChunks <| .new freeChunk freeChunkSliceTime
    else
      none

-- Updates the roots from a position on, while they overlap with a free chunk. Also returns their number.
def updateRoots (freeChunk : Chunk) : List FreeChunkRoot → Option (List FreeChunkRoot × Nat)
  | []         => some ([], 0)
  | root :: it => do
    if ← root.chunk.overlapsWith freeChunk then
      let root ← root.update freeChunk freeChunkSliceTime
      let (roots, count) ← updateRoots freeChunk it
      return (root :: roots, count + 1)
    else
      return (root :: it, 0)

def sliceRoots : List (Int × Int) → Nat → List FreeChunkRoot → Option (List FreeChunkRoot)
  | [],                       _,  freeChunks => some freeChunks
  | (offset, end_) :: chunks, it, freeChunks =>
    let freeChunk := Chunk.fromOffsetEnd offset end_
    if freeChunk.size = 0 then
      sliceRoots chunks it freeChunks
    else if freeChunk.size > 0 then
      let it := it + ((freeChunks.drop it).takeWhile (freeChunk.chunkEnd - 1 < ·.chunk.offset)).length
      if it = freeChunks.length then
        some freeChunks
      else do
        let (roots, count) ← updateRoots freeChunkSliceTime freeChunk (freeChunks.drop it)
        -- The last updated root may overlap with the next free chunk as well.
        sliceRoots chunks (it + (count - 1)) (freeChunks.take it ++ roots)
    else
      none

end New

-- The slice times from `freeChunkSliceTime - 1` down to 0.
def sliceTimes (freeChunksPerSliceTime : List FreeChunks) :
    Nat → List FreeChunkRoot → Option (List FreeChunkRoot)
  | 0,                      freeChunks => some freeChunks
  | freeChunkSliceTime + 1, freeChunks => do
    let chunks ← freeChunksPerSliceTime[freeChunkSliceTime]?
    let freeChunks ← sliceRoots freeChunkSliceTime chunks.toList 0 freeChunks
    sliceTimes freeChunksPerSliceTime freeChunkSliceTime freeChunks

def new (freeChunksPerSliceTime : List FreeChunks) (request : SliceRequest) : Option SlicedAllocationFinder := do
  guard <| request.sortedSliceSizes.length = freeChunksPerSliceTime.length
  let latest ← freeChunksPerSliceTime.getLast?
  let freeChunks ← initialRoots (latestSliceTime request) latest.toList []
  let freeChunks ← sliceTimes freeChunksPerSliceTime (latestSliceTime request) freeChunks
  return { request with maxColocationSize := effectiveMaxColocationSize request, freeChunks }

inductive FitError
  | invalidArgument (message : String)
  | failedPrecondition (message : String)
  | internal (message : String)
  deriving DecidableEq

variable (finder : SlicedAllocationFinder)

section Fit

variable (root : FreeChunkRoot)

-- The pieces are visited by ascending offsets. A slice is given by its slice time and its size.
def fitLoop : List FreeChunkPiece → List (Nat × Int) → Nat → Int → Int → Except FitError Unit
  | _,               [],                                 _,          _,                             _             => .ok ()
  | [],              _ :: _,                             _,          _,                             _             =>
    .error <| .internal <| s!"Ran out of space in root {root.chunk.toString} to fit slice permutation; however, " ++
      "we should have caught such a condition earlier."
  | piece :: pieces, (currentSliceTime, size) :: slices, sliceIndex, amountOfCurrentSliceConsumed, currentOffset =>
    let remainingInSlice := size - amountOfCurrentSliceConsumed
    let remainingInPiece := piece.dimensions.chunkEnd - currentOffset
    let amountToConsume := min remainingInSlice remainingInPiece
    if piece.earliestFreeSliceTime > currentSliceTime then
      .error <| .failedPrecondition <| s!"At slice time t{currentSliceTime}, slice {sliceIndex} does not fit at " ++
        s!"offset {currentOffset} in root {root.chunk.toString}"
    else if remainingInSlice = remainingInPiece then
      fitLoop pieces slices (sliceIndex + 1) 0 (currentOffset + amountToConsume)
    else if remainingInSlice > remainingInPiece then
      fitLoop pieces ((currentSliceTime, size) :: slices) sliceIndex
        (amountOfCurrentSliceConsumed + amountToConsume) (currentOffset + amountToConsume)
    else
      fitLoop (piece :: pieces) slices (sliceIndex + 1) 0 (currentOffset + amountToConsume)
  termination_by pieces slices => pieces.length + slices.length

def doesPermutationFit (permutationOfSliceTimes : List Nat) (offset : Int) : Except FitError Unit :=
  let sizes := finder.sortedSliceSizes
  let end_ := offset + finder.maxColocationSize
  if permutationOfSliceTimes.length ≠ sizes.length then
    .error <| .invalidArgument <| s!"{sizes.length} slices times expected in permutation. " ++
      s!"{permutationOfSliceTimes.length} specified."
  else if offset ≥ root.chunk.chunkEnd then
    .error <| .failedPrecondition s!"Free chunk root {root.chunk.toString} does not overlap with offset {offset}."
  else if end_ > root.chunk.chunkEnd then
    .error <| .failedPrecondition <| s!"Not enough space to fit enitre allocation [{offset}, {end_}) in free chunk " ++
      s!"root {root.chunk.toString}"
  else if !finder.isOffsetAllowed offset then
    .error <| .failedPrecondition s!"We are not permitted to place an allocation at offset {offset}."
  else
    match lowerBound FreeChunkPiece.offset root.pieces offset with
    | []         =>
      .error <| .failedPrecondition s!"Offset {offset} comes before free chunk root {root.chunk.toString}"
    | piece :: _ =>
      let pieces := piece :: (root.pieces.takeWhile (offset < ·.offset)).reverse
      fitLoop root pieces (permutationOfSliceTimes.zip sizes) 0 0 offset

end Fit

section Find

abbrev ChunksSortedBySliceTime := List Chunk

def placeSlices : List (Nat × Int) → Int → ChunksSortedBySliceTime → ChunksSortedBySliceTime × Int
  | [],                     currentOffset, chunks => (chunks, currentOffset)
  | (time, size) :: slices, currentOffset, chunks =>
    placeSlices slices (currentOffset + size) (chunks.set time ⟨currentOffset, size⟩)

def permutationToChunks (permutationOfSliceTimes : List Nat) (offset : Int) : ChunksSortedBySliceTime :=
  let chunks := List.replicate (permutationOfSliceTimes.length + 1) ⟨-1, 1⟩
  let (chunks, currentOffset) := placeSlices (permutationOfSliceTimes.zip finder.sortedSliceSizes) offset chunks
  chunks.set (chunks.length - 1) ⟨currentOffset, finder.maxColocationSize - (currentOffset - offset)⟩

def findAtOffsets (root : FreeChunkRoot) (lastEnd offset : Int) : ChunksSortedBySliceTime :=
  if offset + finder.maxColocationSize ≤ lastEnd then
    match finder.sliceTimePermutation.find? (finder.doesPermutationFit root · offset |>.isOk) with
    | some permutation => finder.permutationToChunks permutation offset
    | none             =>
      -- A root with a single piece represents the same space at all slice times.
      if root.pieces.length = 1 then [] else findAtOffsets root lastEnd (offset + finder.alignment)
  else
    []
  termination_by (lastEnd + 1 - finder.maxColocationSize - offset).toNat
  decreasing_by
    have := finder.alignment_pos
    omega

def firstOffset (root : FreeChunkRoot) : Int :=
  let firstOffset := root.chunk.offset
  if firstOffset % finder.alignment ≠ 0 then
    firstOffset + (finder.alignment - firstOffset % finder.alignment)
  else
    firstOffset

def findInRoot (root : FreeChunkRoot) (onlyTryThisOffset : Option Int) : ChunksSortedBySliceTime :=
  match onlyTryThisOffset with
  | some offset =>
    if offset % finder.alignment ≠ 0 then []
    else finder.findAtOffsets root (offset + finder.maxColocationSize) offset
  | none        =>
    finder.findAtOffsets root root.chunk.chunkEnd (finder.firstOffset root)

def findForOffset (offset : Int) : ChunksSortedBySliceTime :=
  match lowerBound FreeChunkRoot.offset finder.freeChunks offset with
  | []        => []
  | root :: _ => finder.findInRoot root offset

-- Whether a root comes before another one in the heap.
def heapLe (lhs rhs : FreeChunkRoot) : Bool :=
  if lhs.chunk.size ≠ rhs.chunk.size then lhs.chunk.size ≤ rhs.chunk.size else lhs.chunk.offset ≤ rhs.chunk.offset

def findInHeap : List FreeChunkRoot → ChunksSortedBySliceTime
  | []               => []
  | root :: rootHeap =>
    let chunks := finder.findInRoot root none
    if chunks ≠ [] then chunks else findInHeap rootHeap

def find : ChunksSortedBySliceTime :=
  let chunks := if finder.preferredOffset ≥ 0 then finder.findForOffset finder.preferredOffset else []
  if chunks ≠ [] then chunks else finder.findInHeap (finder.freeChunks.reverse.mergeSort heapLe)

end Find
end SlicedAllocationFinder
end HeapSimulator
