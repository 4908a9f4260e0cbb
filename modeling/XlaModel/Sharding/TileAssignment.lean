import Mathlib.Algebra.BigOperators.Group.List.Basic
import Mathlib.Tactic

namespace Sharding

-- An n-dimensional array. The values are in row-major order.
@[ext]
structure Array (α : Type) where
  sizes  : List Nat
  values : List α
  deriving DecidableEq

namespace Array

variable {α : Type}

structure Valid (a : Array α) : Prop where
  length_values : a.values.length = a.sizes.prod

def numElements (a : Array α) : Nat :=
  a.values.length

def dim (a : Array α) (n : Nat) : Nat :=
  a.sizes.getD n 1

def iota (sizes : List Nat) (value : Int) : Array Int where
  sizes  := sizes
  values := (List.range sizes.prod).map fun (i : Nat) => value + i

def calculateIndex (a : Array α) (indexes : List Nat) : Nat :=
  (a.sizes.zip indexes).foldl (fun index (size, i) => index * size + i) 0

def get (a : Array α) (indexes : List Nat) : Option α :=
  a.values[a.calculateIndex indexes]?

-- The functions below return `none` if a `CHECK` fails.
def reshape (a : Array α) (newDimensions : List Nat) : Option (Array α) :=
  if newDimensions.prod = a.numElements then some { a with sizes := newDimensions } else none

def isIdentityPermutation (permutation : List Nat) : Bool :=
  permutation == List.range permutation.length

-- Advances the index and returns whether it has not wrapped around. The limit can have more dimensions than the index.
def nextIndex : List Nat → List Nat → Bool × List Nat
  | limit :: limits, i :: index =>
    match nextIndex limits index with
    | (true, index)  => (true, i :: index)
    | (false, index) => if i + 1 < limit then (true, (i + 1) :: index) else (false, 0 :: index)
  | _, index => (false, index)

def eachFrom (sizes : List Nat) : List α → List Nat → List (List Nat × α)
  | [],          _     => []
  | v :: values, index => (index, v) :: eachFrom sizes values (nextIndex sizes index).2

-- The arguments that `Each` calls its function with.
def each (a : Array α) : List (List Nat × α) :=
  eachFrom a.sizes a.values (a.sizes.map fun _ => 0)

namespace Transpose2D

-- The values that are not written yet are `none`.
structure State (α : Type) where
  permuted      : List (Option α)
  srcValueIndex : Nat
  dstValueIndex : Nat

def column (a : Array α) (s : State α) : State α where
  permuted      := s.permuted.set s.dstValueIndex a.values[s.srcValueIndex]?
  srcValueIndex := s.srcValueIndex + 1
  dstValueIndex := s.dstValueIndex + a.dim 0

def row (a : Array α) (s : State α) (i₀ : Nat) : State α :=
  (column a)^[a.dim 1] { s with dstValueIndex := i₀ }

end Transpose2D

def transposeDimensionsImpl2D (a : Array α) (permuted : List (Option α)) : List (Option α) :=
  ((List.range (a.dim 0)).foldl (Transpose2D.row a) ⟨permuted, 0, 0⟩).permuted

-- The state of a single dimension in the traversal of the source array.
structure Cursor where
  size          : Nat
  stride        : Nat
  srcIndex      : Nat
  dstValueIndex : Nat

namespace Cursor

-- Advances the minor-most dimension that is not at its end and resets the dimensions that are minor to it.
-- Also returns the new index in the destination array.
def next : List Cursor → Option (List Cursor × Nat)
  | [] => none
  | c :: cs =>
    match next cs with
    | some (cs, dstValueIndex) => some (c :: cs, dstValueIndex)
    | none =>
      if c.srcIndex + 1 < c.size then
        let dstValueIndex := c.dstValueIndex + c.stride
        some ({ c with srcIndex := c.srcIndex + 1, dstValueIndex } ::
          cs.map ({ · with srcIndex := 0, dstValueIndex }), dstValueIndex)
      else none

def scatter : List α → List Cursor → Nat → List (Option α) → List (Option α)
  | [],          _,  _,             permuted => permuted
  | x :: values, cs, dstValueIndex, permuted =>
    let permuted := permuted.set dstValueIndex (some x)
    match next cs with
    | some (cs, dstValueIndex) => scatter values cs dstValueIndex permuted
    | none                     => permuted

end Cursor

def strides : List Nat → List Nat
  | []               => []
  | [_]              => [1]
  | _ :: size :: sizes =>
    let minor := strides (size :: sizes)
    minor.headD 1 * size :: minor

def transposeDimensionsImpl3DOrMore (a : Array α) (permutation permutedDims : List Nat)
    (permuted : List (Option α)) : List (Option α) :=
  let stridesAlignedWithSrcArray := (permutation.zip (strides permutedDims)).foldl
    (fun aligned (dim, stride) => aligned.set dim stride) (List.replicate a.sizes.length 0)
  let cursors := List.zipWith (fun size stride => ⟨size, stride, 0, 0⟩) a.sizes stridesAlignedWithSrcArray
  Cursor.scatter a.values cursors 0 permuted

def transposeDimensions (a : Array α) (permutation : List Nat) : Option (Array α) := do
  if a.sizes.length ≠ permutation.length then
    none
  else if isIdentityPermutation permutation then
    return a
  else
    let permutedDims := permutation.map a.dim
    let permuted := List.replicate permutedDims.prod none
    let permuted :=
      if a.sizes.length = 2 then transposeDimensionsImpl2D a permuted
      else transposeDimensionsImpl3DOrMore a permutation permutedDims permuted
    return { sizes := permutedDims, values := ← permuted.mapM id }

end Array
end Sharding

namespace Sharding

namespace CanonicalizeIotaDims

-- The new index of each dimension, or `none` for the dimensions of size one.
def oldToNewDims (newNdims : Nat) : List Nat → List (Option Nat)
  | []          => []
  | dim :: dims =>
    if dim = 1 then none :: oldToNewDims newNdims dims
    else some newNdims :: oldToNewDims (newNdims + 1) dims

structure CompactState where
  dims   : List Nat
  perm   : List Nat
  newIdx : Nat

-- Moves a dimension and an entry of the permutation within their vectors.
def compact (oldToNewDims : List (Option Nat)) (s : CompactState) (i : Nat) : CompactState :=
  let dims := ((oldToNewDims.getD i none).map (s.dims.set · (s.dims.getD i 0))).getD s.dims
  match oldToNewDims.getD (s.perm.getD i 0) none with
  | some newPermDim => { dims, perm := s.perm.set s.newIdx newPermDim, newIdx := s.newIdx + 1 }
  | none            => { s with dims }

def removeOneDims (dims perm : List Nat) : List Nat × List Nat :=
  let newNdims := dims.countP (· ≠ 1)
  if newNdims ≠ dims.length then
    let s := (List.range dims.length).foldl (compact (oldToNewDims 0 dims)) ⟨dims, perm, 0⟩
    (s.dims.take newNdims, s.perm.take newNdims)
  else
    (dims, perm)

structure MergeState where
  dims    : List Nat
  base    : Nat
  changed : Bool

def mergeDim (perm : List Nat) (s : MergeState) (i : Nat) : MergeState :=
  let baseDim := perm.getD s.base 0
  let dim     := perm.getD i 0
  if baseDim + (i - s.base) = dim then
    let merged := s.dims.set baseDim (s.dims.getD baseDim 0 * s.dims.getD dim 0)
    { s with dims := merged.set dim 1, changed := true }
  else
    { s with base := i }

def mergeDims (dims perm : List Nat) : MergeState :=
  (List.range' 1 (dims.length - 1)).foldl (mergeDim perm) ⟨dims, 0, false⟩

def loop : Nat → List Nat → List Nat → Option (List Nat × List Nat)
  | 0,        _,    _    => none
  | fuel + 1, dims, perm =>
    let (dims, perm) := removeOneDims dims perm
    let merged := mergeDims dims perm
    if merged.changed then loop fuel merged.dims perm else some (merged.dims, perm)

end CanonicalizeIotaDims

-- Every iteration but the last one leaves a dimension of size one that the next iteration removes.
def canonicalizeIotaDims (dims perm : List Nat) : Option (List Nat × List Nat) :=
  if dims.length ≤ 1 then some (dims, perm)
  else CanonicalizeIotaDims.loop (dims.length + 1) dims perm

@[ext]
structure IotaTileAssignment where
  dims          : List Nat
  reshapeDims   : List Nat
  transposePerm : List Nat

-- Materializes the array representation.
def toArray (reshapeDims transposePerm dims : List Nat) : Option (Array Int) := do
  let array ← (Array.iota reshapeDims 0).transposeDimensions transposePerm
  array.reshape dims

namespace IotaTileAssignment

instance : BEq IotaTileAssignment where
  beq t t' := t.dims == t'.dims && t.reshapeDims == t'.reshapeDims && t.transposePerm == t'.transposePerm

def createTrivial (dims : List Nat) : IotaTileAssignment where
  dims          := dims
  reshapeDims   := [dims.prod]
  transposePerm := [0]

-- Returns `none` if the write to the first canonicalized dimension is out of bounds.
def create (dims reshapeDims transposePerm : List Nat) : Option IotaTileAssignment := do
  let (canonicalizedDims, canonicalizedPerm) ← canonicalizeIotaDims reshapeDims transposePerm
  if canonicalizedDims ≠ [] then
    return { dims, reshapeDims := canonicalizedDims, transposePerm := canonicalizedPerm }
  else if reshapeDims ≠ [] ∧ transposePerm ≠ [] then
    return { dims, reshapeDims := [1], transposePerm := [0] }
  else
    none

def toArray (t : IotaTileAssignment) : Option (Array Int) :=
  Sharding.toArray t.reshapeDims t.transposePerm t.dims

namespace ValueAt

def linearIndex (dims index : List Nat) : Option Nat := do
  let first ← index.head?
  return (dims.tail.zip index.tail).foldl (fun linearIndex (dim, i) => linearIndex * dim + i) first

-- The conversion of an `int64_t` to `int`.
def toInt (n : Nat) : Int :=
  Int.bmod n (2 ^ 32)

structure State where
  linearIndex  : Int
  reshapeIndex : List Int

-- Returns `none` for a division by zero.
def digit (reshapeDims : List Nat) (s : State) (dim : Nat) : Option State :=
  let dimSize := toInt (reshapeDims.getD dim 0)
  if dimSize = 0 then none
  else some {
    linearIndex  := s.linearIndex.tdiv dimSize
    reshapeIndex := s.reshapeIndex.set dim (s.linearIndex.tmod dimSize)
  }

def value (reshapeDims : List Nat) (reshapeIndex : List Int) : Option Int := do
  let first ← reshapeIndex.head?
  return (reshapeDims.tail.zip reshapeIndex.tail).foldl (fun value (dim, i) => value * dim + i) first

end ValueAt

open ValueAt

def valueAt (t : IotaTileAssignment) (index : List Nat) : Option Int := do
  let linearIndex ← linearIndex t.dims index
  let s ← t.transposePerm.reverse.foldlM (digit t.reshapeDims)
    ⟨linearIndex, List.replicate t.reshapeDims.length 0⟩
  value t.reshapeDims s.reshapeIndex

end IotaTileAssignment
end Sharding

namespace Sharding

-- If `iota` is set, then `array_` is a lazy cache of the materialized array.
structure TileAssignment where
  iota   : Option IotaTileAssignment
  array_ : Option (Array Int)

namespace TileAssignment

def ofIota (iota : IotaTileAssignment) : TileAssignment where
  iota   := iota
  array_ := none

def ofArray (array : Array Int) : TileAssignment where
  iota   := none
  array_ := array

def maybeMaterializeFullArray (t : TileAssignment) : Option TileAssignment := do
  match t.array_ with
  | some _ => return t
  | none   => return { t with array_ := ← (← t.iota).toArray }

def array (t : TileAssignment) : Option (Array Int) := do
  (← t.maybeMaterializeFullArray).array_

def dimensions (t : TileAssignment) : Option (List Nat) :=
  (t.array_.map Array.sizes).or (t.iota.map IotaTileAssignment.dims)

def numElements (t : TileAssignment) : Option Nat :=
  (t.array_.map Array.numElements).or (t.iota.map (·.dims.prod))

def each (t : TileAssignment) : Option (List (List Nat × Int)) := do
  return (← t.array).each

def beq (t t' : TileAssignment) : Option Bool := do
  match t.iota, t'.iota with
  | some iota, some iota' => return iota == iota'
  | _,         _          => return (← t.array) = (← t'.array)

-- The hash state combines the values and the dimensions of an array by the function `combine`.
def hashValue (combine : H → List Int → List Nat → H) (h : H) (t : TileAssignment) : Option H := do
  let array ← t.array
  return combine h array.values array.sizes

end TileAssignment
end Sharding
