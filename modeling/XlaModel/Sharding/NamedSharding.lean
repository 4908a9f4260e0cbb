import Mathlib.Data.List.Sort
import XlaModel.Sharding.MeshAndAxis

namespace Sharding

structure DimensionSharding where
  axes     : List AxisRef
  isClosed : Bool
deriving DecidableEq

namespace DimensionSharding

-- The initial value of the source has the type `int`, so the product is narrowed in each step.
def getShardedSize (d : DimensionSharding) (mesh : Mesh) : Int :=
  d.axes.foldl (fun cur axis => Int.bmod (cur * axis.size mesh) (2 ^ 32)) 1

def append (d other : DimensionSharding) (mesh : Mesh) : DimensionSharding :=
  match d.axes.getLast?, other.axes with
  | _,         []            => d
  | none,      _             => { d with axes := other.axes }
  | some back, front :: axes =>
    match back.merge front mesh with
    | some merged => { d with axes := d.axes.dropLast ++ [merged] ++ axes }
    | none        => { d with axes := d.axes ++ [front] ++ axes }

-- Returns the sliced axes and the remaining axes. The option outside is `none` if a division by zero
-- is reached or a `CHECK` fails.
def sliceAxes (mesh : Mesh) (slicedAxes : List AxisRef) :
    List AxisRef → Int → Option (Option (List AxisRef × List AxisRef))
  | [],               sliceSize => if sliceSize ≠ 1 then some none else none
  | currAxis :: axes, sliceSize =>
    let currAxisSize : Int := currAxis.size mesh
    if sliceSize = currAxisSize then
      some (some (slicedAxes ++ [currAxis], axes))
    else if currAxisSize = 0 then
      none
    else if sliceSize.tmod currAxisSize = 0 then
      sliceAxes mesh (slicedAxes ++ [currAxis]) axes (sliceSize.tdiv currAxisSize)
    else if currAxisSize.tmod sliceSize = 0 then do
      let slicedAxis ← AxisRef.ofSubAxis currAxis.meshAxisIndex currAxis.preSize sliceSize
      let remainingAxis ← AxisRef.ofSubAxis currAxis.meshAxisIndex (currAxis.preSize * sliceSize)
        (currAxisSize.tdiv sliceSize)
      return some (slicedAxes ++ [slicedAxis], remainingAxis :: axes)
    else
      some none

-- Also returns the updated dimension sharding.
def slice (d : DimensionSharding) (mesh : Mesh) (sliceSize : Int) :
    Option (Option DimensionSharding × DimensionSharding) :=
  if sliceSize = 1 then
    some (some ⟨[], d.isClosed⟩, d)
  else if sliceSize = 0 then
    none
  else if (d.getShardedSize mesh).tmod sliceSize ≠ 0 then
    some (none, d)
  else do
    match ← sliceAxes mesh [] d.axes sliceSize with
    | none                             => return (none, d)
    | some (slicedAxes, remainingAxes) =>
      return (some ⟨slicedAxes, d.isClosed⟩, { d with axes := remainingAxes })

end DimensionSharding

structure NamedSharding where
  mesh           : Mesh
  dimShardings   : List DimensionSharding
  replicatedAxes : List AxisRef
  unreducedAxes  : List AxisRef
  manualAxes     : List AxisRef

namespace VerifyNamedSharding

-- The axes that have been verified, by their mesh axis index.
abbrev SeenAxes := Int → List AxisRef

def verifyAndTrack (axis : AxisRef) (mesh : Mesh) (seenAxes : SeenAxes) : Except String SeenAxes := do
  axis.validate mesh
  if (seenAxes axis.meshAxisIndex).any fun other => !axis.canCoexistWithoutOverlap other then
    throw "Axes cannot coexist or axes overlap."
  return Function.update seenAxes axis.meshAxisIndex (seenAxes axis.meshAxisIndex ++ [axis])

def verifyAxes (name : String) (mesh : Mesh) :
    Option AxisRef → List AxisRef → SeenAxes → Except String SeenAxes
  | _,    [],           seenAxes => return seenAxes
  | prev, axis :: axes, seenAxes => do
    let seenAxes ← verifyAndTrack axis mesh seenAxes
    if let some prev := prev then
      if prev.canMerge axis then
        throw s!"Adjacent axes in {name} can be merged: {prev.toString mesh}, {axis.toString mesh}"
    verifyAxes name mesh (some axis) axes seenAxes

def isSorted : List AxisRef → Bool
  | axis :: next :: axes => !next.lt axis && isSorted (next :: axes)
  | _                    => true

def verifySortedAxes (axes : List AxisRef) (name : String) (mesh : Mesh) (seenAxes : SeenAxes) :
    Except String SeenAxes := do
  if !isSorted axes then
    throw s!"{name} axes must be sorted by mesh axis index and sub-axis pre-size."
  verifyAxes s!"{name} axes" mesh none axes seenAxes

def verifyDimShardings (mesh : Mesh) : List DimensionSharding → SeenAxes → Except String SeenAxes
  | [],      seenAxes => return seenAxes
  | d :: ds, seenAxes => do verifyDimShardings mesh ds (← verifyAxes "dimension sharding" mesh none d.axes seenAxes)

end VerifyNamedSharding

open VerifyNamedSharding in
def verifyNamedSharding (n : NamedSharding) : Except String Unit := do
  let seenAxes ← verifyDimShardings n.mesh n.dimShardings fun _ => []
  let seenAxes ← verifySortedAxes n.replicatedAxes "Replicated" n.mesh seenAxes
  let seenAxes ← verifySortedAxes n.unreducedAxes "Unreduced" n.mesh seenAxes
  let _ ← verifySortedAxes n.manualAxes "Manual" n.mesh seenAxes

namespace NamedSharding

namespace GetImplicitlyReplicatedAxes

structure State where
  -- The used axes that have not been visited.
  used : List AxisRef
  axes : List AxisRef

def pieceEnd (mesh : Mesh) (i : Int) (axis : AxisRef) : Nat :=
  match axis.subAxisInfo with
  | some sub => sub.nextPreSize
  | none     => mesh.axisSize i

-- Visits the used pieces of a mesh axis. Also returns the end of the last piece.
def visitUsed (mesh : Mesh) (i : Int) (axes : List AxisRef) (pre : Nat) :
    List AxisRef → Option (State × Nat)
  | []           => some (⟨[], axes⟩, pre)
  | axis :: used =>
    if axis.meshAxisIndex = i then do
      let axes ←
        if axis.preSize > pre then
          (AxisRef.ofSubAxis i pre (axis.preSize / pre : Nat)).map fun gap => axes ++ [gap]
        else
          some axes
      visitUsed mesh i axes (pieceEnd mesh i axis) used
    else
      some (⟨axis :: used, axes⟩, pre)

def visitAxis (mesh : Mesh) (s : State) (i : Nat) : Option State := do
  let (s, pre) ← visitUsed mesh i s.axes 1 s.used
  if pre < mesh.axisSize i then
    if pre = 1 then
      return { s with axes := s.axes ++ [⟨i, none⟩] }
    else
      return { s with axes := s.axes ++ [← AxisRef.ofSubAxis i pre (mesh.axisSize i / pre : Nat)] }
  else
    return s

end GetImplicitlyReplicatedAxes

def usedAxes (n : NamedSharding) : List AxisRef :=
  n.replicatedAxes ++ n.manualAxes ++ n.unreducedAxes ++ n.dimShardings.flatMap (·.axes)

open GetImplicitlyReplicatedAxes in
-- Returns `none` if a `CHECK` fails.
def getImplicitlyReplicatedAxes (n : NamedSharding) : Option (List AxisRef) := do
  let used := n.usedAxes.insertionSort fun a b => !b.lt a
  let s ← (List.range n.mesh.numAxes).foldlM (visitAxis n.mesh) ⟨used, []⟩
  return s.axes

end NamedSharding
end Sharding
