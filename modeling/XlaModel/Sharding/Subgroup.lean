import Mathlib.Data.List.Sort
import XlaModel.Sharding.HloSharding
import XlaModel.Sharding.Transpose

namespace Sharding

namespace GroupMinorIotaDimsSorted

structure Grouped where
  groupedDims     : Nat
  -- The dimension that is split and the size of its major part.
  splitDimAndSize : Option (Nat × Nat)

-- The entries of the permutation are visited from minor to major. Returns `none` if the dimensions can not be grouped.
def group (dims : List Nat) : List Nat → Nat → Nat → Option Grouped
  | [],          _,         groupedDims => some ⟨groupedDims, none⟩
  | dim :: perm, groupSize, groupedDims =>
    let dimSize := dims.getD dim 0
    if dimSize ≤ groupSize then
      if groupSize % dimSize ≠ 0 then none
      else group dims perm (groupSize / dimSize) (groupedDims + 1)
    else if dimSize % groupSize ≠ 0 then none
    else some ⟨groupedDims + 1, some (dim, dimSize / groupSize)⟩

def splitDims (dims : List Nat) (splitI size : Nat) : List Nat :=
  dims.take splitI ++ [size, dims.getD splitI 0 / size] ++ dims.drop (splitI + 1)

def shift (splitI permDim : Nat) : Nat :=
  if permDim ≤ splitI then permDim else permDim + 1

def splitPerm (splitI : Nat) : List Nat → List Nat
  | []              => []
  | permDim :: perm =>
    if permDim = splitI then shift splitI permDim :: (shift splitI permDim + 1) :: perm.map (shift splitI)
    else shift splitI permDim :: splitPerm splitI perm

def sortEnd (groupedDims : Nat) (perm : List Nat) : List Nat :=
  perm.take (perm.length - groupedDims) ++ (perm.drop (perm.length - groupedDims)).insertionSort (· ≤ ·)

end GroupMinorIotaDimsSorted

open GroupMinorIotaDimsSorted in
-- Groups minor dimensions totaling a given group size.
def groupMinorIotaDimsSorted (dims perm : List Nat) (groupSize : Nat) : Option (List Nat × List Nat) := do
  let grouped ← group dims perm.reverse groupSize 0
  match grouped.splitDimAndSize with
  | none                => return (dims, sortEnd grouped.groupedDims perm)
  | some (splitI, size) =>
    return (splitDims dims splitI size, sortEnd grouped.groupedDims (splitPerm splitI perm))

namespace HloSharding

-- The tile assignment of a replicated sharding is an array without elements.
def replicate : HloSharding :=
  { ofTileAssignment (.ofArray ⟨[0], []⟩) false with replicated := true }

-- Returns `none` if a group exceeds the elements.
def sortGroups (groupSize : Nat) : Nat → List Int → Option (List Int)
  | _,        []     => some []
  | 0,        _      => none
  | fuel + 1, values => do
    guard (groupSize ≤ values.length)
    return (values.take groupSize).insertionSort (· ≤ ·) ++ (← sortGroups groupSize fuel (values.drop groupSize))

-- The fuel is enough as no group is empty.
def sortedTile (tileAssignmentLastDimReplicate : TileAssignment) (groupSize : Nat) : Option TileAssignment := do
  let sortedTile ← tileAssignmentLastDimReplicate.array
  return .ofArray { sortedTile with values := ← sortGroups groupSize sortedTile.numElements sortedTile.values }

def partialTile (tileAssignmentLastDimReplicate : TileAssignment) : Except Failure HloSharding := do
  let numElements ← required tileAssignmentLastDimReplicate.numElements
  let dimensions ← required tileAssignmentLastDimReplicate.dimensions
  let groupSize ← required dimensions.getLast?
  if dimensions.length = 1 ∨ groupSize = numElements then
    return replicate
  if groupSize = 1 then
    return ofTileAssignment (← required (tileAssignmentLastDimReplicate.reshape dimensions.dropLast)) false
  if let some iota := tileAssignmentLastDimReplicate.iota then
    if (← required (iota.reshapeDims[← required iota.transposePerm.getLast?]?)) = groupSize then
      return ofTileAssignment tileAssignmentLastDimReplicate true
    if let some (newReshapeDims, newTransposePerm) :=
        groupMinorIotaDimsSorted iota.reshapeDims iota.transposePerm groupSize then
      let grouped ← required (IotaTileAssignment.create iota.dims newReshapeDims newTransposePerm)
      return ofTileAssignment (.ofIota grouped) true
  return ofTileAssignment (← required (sortedTile tileAssignmentLastDimReplicate groupSize)) true

def beq (s s' : HloSharding) : Except Failure Bool := do
  if s.replicated = s'.replicated ∧ s.singleDevice = s'.singleDevice ∧ s.manual = s'.manual ∧
      s.unknown = s'.unknown ∧ s.unreduced = s'.unreduced then
    let equal ← required (s.tileAssignment.beq s'.tileAssignment)
    return equal && s.replicateOnLastTileDim = s'.replicateOnLastTileDim && s.subgroupTypes = s'.subgroupTypes
  else
    return false

end HloSharding
end Sharding

namespace Sharding

def TileAssignment.valueAt (t : TileAssignment) (indexes : List Nat) : Option Int :=
  match t.array_ with
  | some array => array.get indexes
  | none       => do (← t.iota).valueAt indexes

namespace HloSharding

def ofManual : HloSharding :=
  { ofTileAssignment (.ofArray ⟨[0], []⟩) false with manual := true }

def ofUnreduced : HloSharding :=
  { ofTileAssignment (.ofArray ⟨[0], []⟩) false with unreduced := true }

open OpSharding (SubgroupType)

namespace Subgroups

-- The span of the data dimensions is not shortened if there are more types than dimensions.
def dataTileShape (dims : List Nat) (subgroupTypes : List SubgroupType) : List Nat :=
  if subgroupTypes.length ≤ dims.length then dims.take (dims.length - subgroupTypes.length) else dims

def simpleSharding : SubgroupType → Option HloSharding
  | .manual     => some ofManual
  | .replicated => some replicate
  | .unreduced  => some ofUnreduced
  | _           => none

structure Dims where
  typeToDims    : SubgroupType → List Nat
  subgroupCount : Nat
  needsMerging  : Bool
  removedDims   : List Nat

def addDim (dims : List Nat) (s : Dims) (type : SubgroupType) (dim : Nat) : Dims :=
  if dims.getD dim 0 = 1 then
    { s with removedDims := s.removedDims ++ [dim], needsMerging := true }
  else
    let typeDims := s.typeToDims type
    { s with
      typeToDims    := Function.update s.typeToDims type (typeDims ++ [dim])
      subgroupCount := if typeDims ≠ [] then s.subgroupCount else s.subgroupCount + 1
      needsMerging  := s.needsMerging || typeDims ≠ []
    }

def collectDims (dims : List Nat) (subgroupTypes : List SubgroupType) : Dims :=
  let dataDims := dims.length - subgroupTypes.length
  let s := (subgroupTypes.zipIdx dataDims).foldl (fun s p => addDim dims s p.1 p.2) ⟨fun _ => [], 0, false, []⟩
  { s with needsMerging := s.needsMerging || s.subgroupCount > 1 }

def kOrderedTypes : List SubgroupType :=
  [.maximal, .tuple, .other, .manual, .unreduced, .replicated, .unknown]

structure Merged where
  perm            : List Nat
  mergedShape     : List Nat
  transposedShape : List Nat
  mergedTypes     : List SubgroupType

def mergeType (dims : List Nat) (typeToDims : SubgroupType → List Nat) (m : Merged) (type : SubgroupType) : Merged :=
  let typeDims := typeToDims type
  if typeDims = [] then
    m
  else
    let sizes := typeDims.map (dims.getD · 0)
    {
      perm            := m.perm ++ typeDims
      mergedShape     := m.mergedShape ++ [sizes.prod]
      transposedShape := m.transposedShape ++ sizes
      mergedTypes     := m.mergedTypes ++ [type]
    }

def merge (dims dataTileShape : List Nat) (typeToDims : SubgroupType → List Nat) : Merged :=
  kOrderedTypes.foldl (mergeType dims typeToDims)
    ⟨List.range dataTileShape.length, dataTileShape, dataTileShape, []⟩

def srcIndices (numDimensions : Nat) (perm indices : List Nat) : List Nat :=
  (perm.zip indices).foldl (fun srcIndices (dim, i) => srcIndices.set dim i) (List.replicate numDimensions 0)

def newTiles (t : TileAssignment) (numDimensions : Nat) (m : Merged) : Option TileAssignment := do
  let indices := (Array.iota m.transposedShape 0).each.map Prod.fst
  let values ← indices.mapM fun indices => t.valueAt (srcIndices numDimensions m.perm indices)
  return .ofArray (← (⟨m.transposedShape, values⟩ : Array Int).reshape m.mergedShape)

def newTileAssignment (t : TileAssignment) (numDimensions : Nat) (m : Merged) (removedDims : List Nat) :
    Option TileAssignment := do
  match t.iota with
  | some iota =>
    match ← iota.transpose (m.perm ++ removedDims) with
    | some transposed =>
      return .ofIota (← IotaTileAssignment.create m.mergedShape transposed.reshapeDims transposed.transposePerm)
    | none => newTiles t numDimensions m
  | none => newTiles t numDimensions m

def createSharding (tiles : TileAssignment) (types : List SubgroupType) : Except Failure HloSharding := do
  if types = [.replicated] then
    return ← partialTile tiles
  let numElements ← required tiles.numElements
  let dimensions ← required tiles.dimensions
  if types = [.manual] ∧ dimensions.getLast? = some numElements then
    return ofManual
  if types.getLast? = some .replicated then
    -- The elements are sorted by a partially replicated sharding without other subgroups.
    let sharding ← partialTile tiles
    return { sharding with replicateOnLastTileDim := false, subgroupTypes := sharding.subgroupTypes ++ types }
  return ofSubgroupTypes tiles types

-- Removes trivial dimensions, merges dimensions of the same type and sorts the types.
def normalize (t : TileAssignment) (dims : List Nat) (subgroupTypes : List SubgroupType) :
    Except Failure HloSharding := do
  check (subgroupTypes.length ≤ dims.length)
  let s := collectDims dims subgroupTypes
  if s.needsMerging then
    let m := merge dims (dataTileShape dims subgroupTypes) s.typeToDims
    createSharding (← required (newTileAssignment t dims.length m s.removedDims)) m.mergedTypes
  else
    createSharding t subgroupTypes

end Subgroups

open Subgroups in
def subgroup (t : TileAssignment) (subgroupTypes : List SubgroupType) : Except Failure HloSharding := do
  match subgroupTypes with
  | []        => return ofTileAssignment t false
  | type :: _ =>
    let dims ← required t.dimensions
    let simple := if subgroupTypes.all (· = type) ∧ (dataTileShape dims subgroupTypes).prod = 1
      then simpleSharding type else none
    match simple with
    | some sharding => return sharding
    | none          => normalize t dims subgroupTypes

end HloSharding
end Sharding
