import XlaModel.Sharding.TileAssignment

namespace Sharding

namespace OpSharding

inductive SubgroupType where
  | replicated | maximal | tuple | other | manual | unknown | unreduced
  deriving DecidableEq

end OpSharding

-- A sharding that is represented by a tile assignment.
structure HloSharding where
  tileAssignment         : TileAssignment
  subgroupTypes          : List OpSharding.SubgroupType
  replicated             : Bool
  singleDevice           : Bool
  tuple                  : Bool
  manual                 : Bool
  unknown                : Bool
  unreduced              : Bool
  replicateOnLastTileDim : Bool

inductive Failure where
  -- A failed `CHECK` or an access out of bounds.
  | check
  | invalidArgument (message : String)
  -- A failed `TF_RET_CHECK`.
  | retCheck

namespace HloSharding

def ofTileAssignment (tileAssignment : TileAssignment) (replicateOnLastTileDim : Bool) : HloSharding where
  tileAssignment         := tileAssignment
  subgroupTypes          := []
  replicated             := false
  singleDevice           := false
  tuple                  := false
  manual                 := false
  unknown                := false
  unreduced              := false
  replicateOnLastTileDim := replicateOnLastTileDim

def ofSubgroupTypes (tileAssignment : TileAssignment) (subgroupTypes : List OpSharding.SubgroupType) : HloSharding where
  tileAssignment         := tileAssignment
  subgroupTypes          := subgroupTypes
  replicated             := false
  singleDevice           := false
  tuple                  := false
  manual                 := false
  unknown                := false
  unreduced              := false
  replicateOnLastTileDim := false

variable (s : HloSharding)

def isTiledLeaf : Bool :=
  !s.replicated && !s.singleDevice && !s.manual && !s.unreduced && !s.unknown

def required (a? : Option α) : Except Failure α :=
  match a? with
  | some a => return a
  | none   => throw .check

def check (condition : Bool) : Except Failure Unit :=
  if condition then return else throw .check

def dimensions : Except Failure (List Nat) :=
  required s.tileAssignment.dimensions

def numDimensions : Except Failure Int := do
  return (← s.dimensions).length

def numDevices : Except Failure Nat :=
  required s.tileAssignment.numElements

def dimension (i : Nat) : Except Failure Nat := do
  if s.replicated then return 1 else required (← s.dimensions)[i]?

-- It does not include subgroup dimensions.
def tiledDataRank : Except Failure Int := do
  check s.isTiledLeaf
  let rank ← s.numDimensions
  let rank := if s.replicateOnLastTileDim then rank - 1 else rank
  return rank - s.subgroupTypes.length

-- Returns -1 if there is no such dimension.
def subgroupReplicationDim : Except Failure Int := do
  match s.subgroupTypes.findIdx? (· = .replicated) with
  | some i => return i + (← s.tiledDataRank)
  | none   => if s.replicateOnLastTileDim then return (← s.numDimensions) - 1 else return -1

def ceilOfRatio (dividend divisor : Nat) : Except Failure Nat :=
  if divisor = 0 then throw .check else return (dividend + divisor - 1) / divisor

def numReplicas : Except Failure Nat := do
  let replicationDim ← s.subgroupReplicationDim
  if replicationDim = -1 then return 1 else required (← s.dimensions)[replicationDim.toNat]?

structure Tile where
  deviceId : Int
  offset   : List Nat
  limit    : List Nat
  deriving DecidableEq

-- The tiles that `EachTile` has called its function with.
structure EachTileState where
  uniqueTileIndex : List Nat
  flatTileIndex   : Nat
  tiles           : List Tile

namespace EachTile

def bounds (dims tileDims index : List Nat) : List Nat :=
  List.zipWith min (List.zipWith (· * ·) tileDims index) dims

def replica (flatTileAssignment : List Int) (deviceCount : Nat) (offset limit : List Nat) (s : EachTileState) :
    Except Failure EachTileState := do
  check (s.flatTileIndex < deviceCount)
  let deviceId ← required flatTileAssignment[s.flatTileIndex]?
  if deviceId < 0 ∨ deviceId ≥ deviceCount then
    throw (.invalidArgument
      s!"Out of range device id in device_assignment: {deviceId}; valid range: [0, {deviceCount})")
  return { s with
    flatTileIndex := s.flatTileIndex + 1
    tiles         := s.tiles ++ [⟨deviceId, offset, limit⟩]
  }

def replicas (flatTileAssignment : List Int) (deviceCount : Nat) (offset limit : List Nat) :
    Nat → EachTileState → Except Failure EachTileState
  | 0,     s => return s
  | n + 1, s => do
    let s ← replica flatTileAssignment deviceCount offset limit s
    replicas flatTileAssignment deviceCount offset limit n s

-- The fuel is enough if it is the number of indices.
def loop (dims shardingDims tileDims : List Nat) (numReplicas : Nat) (flatTileAssignment : List Int)
    (deviceCount : Nat) : Nat → EachTileState → Except Failure EachTileState
  | 0,        _ => throw .check
  | fuel + 1, s => do
    let offset := bounds dims tileDims s.uniqueTileIndex
    let limit  := bounds dims tileDims (s.uniqueTileIndex.map (· + 1))
    let s ← replicas flatTileAssignment deviceCount offset limit numReplicas s
    let (notWrapped, index) := Array.nextIndex shardingDims s.uniqueTileIndex
    let s := { s with uniqueTileIndex := index }
    if notWrapped then loop dims shardingDims tileDims numReplicas flatTileAssignment deviceCount fuel s
    else return s

end EachTile

-- The tiles that the function is called with.
def eachTile (dims : List Nat) : Except Failure (List Tile) := do
  check (!s.tuple && !s.manual && !s.unknown && !s.replicated && !s.singleDevice)
  let shardingDims ← s.dimensions
  let rank ← s.tiledDataRank
  if dims.length ≠ rank then
    throw (.invalidArgument s!"Shape rank is not same as tile rank: {dims.length} vs {rank}")
  let tileDims ← (dims.zip shardingDims).mapM fun (dim, shardingDim) => ceilOfRatio dim shardingDim
  let numReplicas ← s.numReplicas
  let array ← required s.tileAssignment.array
  let state ← EachTile.loop dims shardingDims tileDims numReplicas array.values (← s.numDevices)
    (shardingDims.take dims.length).prod ⟨dims.map fun _ => 0, 0, []⟩
  return state.tiles

def tileIndexForDevice (device : Int) : Except Failure (List Nat) := do
  check (!s.replicated && !s.singleDevice && !s.manual && !s.unknown && !s.tuple)
  let each ← required s.tileAssignment.each
  let retIndex := each.foldl (fun retIndex (index, d) => if d = device then index else retIndex) []
  check (retIndex ≠ [])
  let rank ← s.tiledDataRank
  return retIndex.take rank.toNat ++ List.replicate (rank.toNat - retIndex.length) 0

-- The `delta` is zero for the offset and one for the limit.
def tileBoundForDevice (shape : List Nat) (device : Int) (delta : Nat) : Except Failure (List Nat) := do
  check (shape.length = (← s.tiledDataRank))
  let index ← s.tileIndexForDevice device
  (index.zip shape).zipIdx.mapM fun ((i, shapeDim), dim) => do
    return min ((i + delta) * (← ceilOfRatio shapeDim (← s.dimension dim))) shapeDim

def tileOffsetForDevice (shape : List Nat) (device : Int) : Except Failure (List Nat) := do
  check (!s.tuple && !s.manual && !s.unknown)
  if s.replicated || s.singleDevice then return shape.map fun _ => 0
  s.tileBoundForDevice shape device 0

def tileLimitForDevice (shape : List Nat) (device : Int) : Except Failure (List Nat) := do
  check (!s.tuple && !s.manual && !s.unknown)
  if s.replicated || s.singleDevice then return shape
  s.tileBoundForDevice shape device 1

end HloSharding
end Sharding
