import XlaModel.Sharding.NamedSharding
import XlaModel.Sharding.Subgroup

namespace Sharding

open HloSharding (required check)

namespace MeshProto

structure MeshAxis where
  name : String
  size : Int

structure IotaTransform where
  reshapeDims   : List Int
  transposePerm : List Int

end MeshProto

structure MeshProto where
  axes          : List MeshProto.MeshAxis
  deviceIds     : List Int
  iotaTransform : Option MeshProto.IotaTransform

structure AxisRefProto.SubAxis where
  preSize : Int
  size    : Int

structure AxisRefProto where
  meshAxisIndex : Int
  subAxisInfo   : Option AxisRefProto.SubAxis

structure NamedShardingProto.DimensionSharding where
  axes     : List AxisRefProto
  isClosed : Bool

structure NamedShardingProto where
  mesh           : MeshProto
  dimShardings   : List NamedShardingProto.DimensionSharding
  replicatedAxes : List AxisRefProto
  unreducedAxes  : List AxisRefProto
  manualAxes     : List AxisRefProto

inductive OpSharding.ShardGroupType where
  | as | like
  deriving DecidableEq

structure OpSharding where
  type                     : OpSharding.SubgroupType          := .replicated
  tileAssignmentDimensions : List Int                         := []
  tileAssignmentDevices    : List Int                         := []
  tupleShardings           : List OpSharding                  := []
  replicateOnLastTileDim   : Bool                             := false
  lastTileDims             : List OpSharding.SubgroupType     := []
  iotaReshapeDims          : List Int                         := []
  iotaTransposePerm        : List Int                         := []
  isShardGroup             : Bool                             := false
  shardGroupId             : Int                              := 0
  shardGroupType           : OpSharding.ShardGroupType        := .as
  namedSharding            : Option NamedShardingProto        := none

namespace Mesh

def validateAxesNames : List String → List String → Except String Unit
  | _,             []        => return
  | seenAxisNames, name :: names =>
    if name ∈ seenAxisNames then
      .error s!"Mesh has duplicate axis names. Duplicate axis name: {name}"
    else
      validateAxesNames (name :: seenAxisNames) names

def validateDeviceIds (deviceIds : List Int) : Except String Unit := do
  if let some deviceId := deviceIds.find? (· < 0) then
    throw s!"Mesh device ids must be non-negative. Device id: {deviceId}"
  let iota := (List.range deviceIds.length).map Int.ofNat
  if deviceIds = iota then
    throw "Non-iota device assignment has iota device id list [0,1,2,3...]."
  if deviceIds.insertionSort (· ≤ ·) ≠ iota then
    throw "Device ids must be a permutation of [0,1,2,3...]."

def validate (m : Mesh) : Except Failure Unit := do
  let dimensions ← required m.deviceAssignment.dimensions
  let numElements ← required m.deviceAssignment.numElements
  if dimensions.length = 0 then
    if numElements ≤ 1 then
      return
    throw (.invalidArgument
      s!"Non-maximal mesh must have exactly 1 device id. Number of device ids: {numElements}")
  if dimensions.length ≠ m.axesNames.length then
    throw (.invalidArgument
      ("Number of axes names must match number of dimensions in the device assignment. " ++
        s!"Number of axes names: {m.axesNames.length}, Number of dimensions: {dimensions.length}"))
  if let .error message := validateAxesNames [] m.axesNames then
    throw (.invalidArgument message)
  if m.deviceAssignment.iota.isSome then
    return
  let array ← required m.deviceAssignment.array
  if let .error message := validateDeviceIds array.values then
    throw (.invalidArgument message)

def empty : Mesh where
  deviceAssignment := .ofArray ⟨[0], []⟩
  axesNames        := []

def maximal (deviceId : Int) : Mesh where
  deviceAssignment := .ofArray ⟨[1], [deviceId]⟩
  axesNames        := []

def ofDeviceAssignment (deviceAssignment : TileAssignment) (axesNames : List String) : Except Failure Mesh :=
  let m : Mesh := ⟨deviceAssignment, axesNames⟩
  match m.validate with
  | .ok _    => return m
  | .error _ => throw .check

def fromProto (proto : MeshProto) : Except Failure Mesh := do
  if proto.axes.length = 0 then
    if proto.deviceIds.length = 0 then
      return empty
    check (proto.deviceIds.length = 1)
    return maximal (← required proto.deviceIds.head?)
  check (proto.axes.all (·.size > 0))
  let meshAxisSizes := proto.axes.map (·.size.toNat)
  let meshAxisNames := proto.axes.map (·.name)
  if proto.deviceIds.length = 0 then
    match proto.iotaTransform with
    | some transform =>
      let iota ← required (IotaTileAssignment.create meshAxisSizes (transform.reshapeDims.map Int.toNat)
        (transform.transposePerm.map Int.toNat))
      return ← ofDeviceAssignment (.ofIota iota) meshAxisNames
    | none => return ← ofDeviceAssignment (.ofIota (.createTrivial meshAxisSizes)) meshAxisNames
  check proto.iotaTransform.isNone
  check (proto.deviceIds.length = meshAxisSizes.prod)
  ofDeviceAssignment (.ofArray ⟨meshAxisSizes, proto.deviceIds⟩) meshAxisNames

end Mesh

namespace AxisRef

def fromProto (proto : AxisRefProto) : Except Failure AxisRef :=
  match proto.subAxisInfo with
  | some sub => required (ofSubAxis proto.meshAxisIndex sub.preSize sub.size)
  | none     => return ⟨proto.meshAxisIndex, none⟩

end AxisRef

namespace DimensionSharding

def fromProto (proto : NamedShardingProto.DimensionSharding) : Except Failure DimensionSharding := do
  return ⟨← proto.axes.mapM AxisRef.fromProto, proto.isClosed⟩

end DimensionSharding

namespace NamedSharding

def fromProto (proto : NamedShardingProto) : Except Failure NamedSharding := do
  let dimShardings ← proto.dimShardings.mapM DimensionSharding.fromProto
  let replicatedAxes ← proto.replicatedAxes.mapM AxisRef.fromProto
  let unreducedAxes ← proto.unreducedAxes.mapM AxisRef.fromProto
  let manualAxes ← proto.manualAxes.mapM AxisRef.fromProto
  let n : NamedSharding := ⟨← Mesh.fromProto proto.mesh, dimShardings, replicatedAxes, unreducedAxes, manualAxes⟩
  match verifyNamedSharding n with
  | .ok _    => return n
  | .error _ => throw .check

end NamedSharding

structure ShardGroup where
  shardGroupId : Int
  shardAs      : Bool
  shardLike    : Bool
  deriving DecidableEq

namespace ShardGroup

def notShardGroup : ShardGroup where
  shardGroupId := -1
  shardAs      := false
  shardLike    := false

def ofShardAs (shardGroupId : Int) : ShardGroup where
  shardGroupId := shardGroupId
  shardAs      := true
  shardLike    := false

def ofShardLike (shardGroupId : Int) : ShardGroup where
  shardGroupId := shardGroupId
  shardAs      := false
  shardLike    := true

def fromProto (proto : OpSharding) : ShardGroup :=
  if proto.isShardGroup then
    match proto.shardGroupType with
    | .as   => ofShardAs proto.shardGroupId
    | .like => ofShardLike proto.shardGroupId
  else
    notShardGroup

end ShardGroup

-- A sharding in any of its representations. Metadata is left out, as it is not compared.
inductive HloShardingTree where
  | leaf (s : HloSharding) (shardGroup : ShardGroup)
  | named (n : NamedSharding)
  | tuple (elements : List HloShardingTree) (shardGroup : ShardGroup)

namespace HloSharding

def ofUnknown : HloSharding :=
  { ofTileAssignment (.ofArray ⟨[0], []⟩) false with unknown := true }

def ofSingleDevice (deviceId : Int) : HloSharding :=
  { ofTileAssignment (.ofArray ⟨[1], [deviceId]⟩) false with singleDevice := true }

def retCheck (condition : Bool) : Except Failure Unit :=
  if condition then return else throw .retCheck

-- Also returns whether an overflow or a negative input occurs.
def overflowSafeMultiply (x y : Int) : Int × Bool :=
  let result := Int.bmod (x * y) (2 ^ 64)
  (result, result ≠ x * y ∨ x < 0 ∨ y < 0)

namespace FromProto

structure Product where
  productOfDimensions : Int
  anyOverflow         : Bool

-- The overflow of a multiplication is not recorded.
def multiply (p : Product) (dimension : Int) : Product :=
  let (productOfDimensions, _) := overflowSafeMultiply p.productOfDimensions dimension
  { p with productOfDimensions }

def productNoOverflow (dims : List Int) : Except Failure Int := do
  let p := dims.foldl multiply ⟨1, false⟩
  retCheck (!p.anyOverflow)
  return p.productOfDimensions

-- Negative entries of the iota form are not rejected. They have no counterpart here.
def createTileAssignment (proto : OpSharding) : Except Failure TileAssignment := do
  let dims := proto.tileAssignmentDimensions.map Int.toNat
  if proto.iotaReshapeDims ≠ [] then
    let iota ← required (IotaTileAssignment.create dims (proto.iotaReshapeDims.map Int.toNat)
      (proto.iotaTransposePerm.map Int.toNat))
    return .ofIota iota
  else
    return .ofArray ⟨dims, proto.tileAssignmentDevices⟩

def checkDevices (proto : OpSharding) : Except Failure Unit :=
  if proto.iotaReshapeDims ≠ [] then do
    retCheck (proto.tileAssignmentDevices = [])
    retCheck (proto.iotaReshapeDims.length = proto.iotaTransposePerm.length)
  else
    retCheck (proto.tileAssignmentDevices ≠ [])

def isSingleDevice (proto : OpSharding) : Bool :=
  if proto.iotaReshapeDims ≠ [] then proto.iotaReshapeDims.all (· = 1)
  else proto.tileAssignmentDevices.length = 1

def checkDimensions (proto : OpSharding) : Except Failure Unit := do
  retCheck (proto.tileAssignmentDimensions ≠ [])
  retCheck (proto.tileAssignmentDimensions.all (· > 0))
  let productOfDimensions ← productNoOverflow proto.tileAssignmentDimensions
  if proto.iotaReshapeDims ≠ [] then
    let productOfIotaDimensions ← productNoOverflow proto.iotaReshapeDims
    retCheck (productOfDimensions = productOfIotaDimensions)
  else
    retCheck (productOfDimensions = proto.tileAssignmentDevices.length)

def fromOther (proto : OpSharding) : Except Failure HloSharding := do
  checkDevices proto
  if isSingleDevice proto then
    return replicate
  checkDimensions proto
  if proto.lastTileDims ≠ [] then
    retCheck (!proto.replicateOnLastTileDim)
    return ← subgroup (← createTileAssignment proto) proto.lastTileDims
  if proto.replicateOnLastTileDim then
    return ← partialTile (← createTileAssignment proto)
  return ofTileAssignment (← createTileAssignment proto) false

def fromLeaf (proto : OpSharding) : Except Failure HloSharding :=
  match proto.type with
  | .replicated => return replicate
  | .manual     => return ofManual
  | .unreduced  => return ofUnreduced
  | .unknown    => return ofUnknown
  | .maximal    => do
    retCheck (proto.tileAssignmentDevices.length = 1)
    return ofSingleDevice (← required proto.tileAssignmentDevices.head?)
  | .other      => fromOther proto
  -- A tuple is not a leaf.
  | .tuple      => throw .retCheck

end FromProto
end HloSharding

namespace HloShardingTree

open HloSharding

mutual

def fromProto : OpSharding → Except Failure HloShardingTree
  | proto@{ tupleShardings, .. } => do
    if let some namedSharding := proto.namedSharding then
      return .named (← NamedSharding.fromProto namedSharding)
    if proto.type = .tuple then
      return .tuple (← fromProtos tupleShardings) (.fromProto proto)
    return .leaf (← FromProto.fromLeaf proto) (.fromProto proto)

def fromProtos : List OpSharding → Except Failure (List HloShardingTree)
  | []              => return []
  | proto :: protos => do return (← fromProto proto) :: (← fromProtos protos)

end

end HloShardingTree
end Sharding
