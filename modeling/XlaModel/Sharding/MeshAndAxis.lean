import XlaModel.Sharding.TileAssignment

namespace Sharding

structure Mesh where
  deviceAssignment : TileAssignment
  axesNames        : List String

namespace Mesh

def numAxes (m : Mesh) : Nat :=
  m.axesNames.length

def axisSizes (m : Mesh) : List Nat :=
  m.deviceAssignment.dimensions.getD []

-- The source does not check that the axis exists.
def axisSize (m : Mesh) (axisIndex : Int) : Nat :=
  if axisIndex < 0 then 0 else m.axisSizes.getD axisIndex.toNat 0

end Mesh

-- The sizes that the constructor of `AxisRef` checks.
structure SubAxis where
  preSize      : Nat
  size         : Nat
  preSize_pos  : 0 < preSize
  one_lt_size  : 1 < size
deriving DecidableEq

namespace SubAxis

def nextPreSize (s : SubAxis) : Nat :=
  s.preSize * s.size

def mulSize (s : SubAxis) (n : Nat) (h : 1 < n) : SubAxis where
  preSize     := s.preSize
  size        := s.size * n
  preSize_pos := s.preSize_pos
  one_lt_size := Nat.one_lt_mul_iff.mpr ⟨s.one_lt_size.le, h.le, .inl s.one_lt_size⟩

end SubAxis

-- The axis is a full axis if there is no sub-axis info.
structure AxisRef where
  meshAxisIndex : Int
  subAxisInfo   : Option SubAxis
deriving DecidableEq

namespace AxisRef

-- Returns `none` if a `CHECK` fails, as do the functions below that return an option of their result.
def ofSubAxis (meshAxisIndex preSize size : Int) : Option AxisRef :=
  if h : 0 < preSize ∧ 1 < size then
    some ⟨meshAxisIndex, some ⟨preSize.toNat, size.toNat, by omega, by omega⟩⟩
  else
    none

def preSize (a : AxisRef) : Nat :=
  match a.subAxisInfo with
  | some sub => sub.preSize
  | none     => 1

def size (a : AxisRef) (mesh : Mesh) : Nat :=
  match a.subAxisInfo with
  | some sub => sub.size
  | none     => mesh.axisSize a.meshAxisIndex

def lt (a other : AxisRef) : Bool :=
  if a.meshAxisIndex ≠ other.meshAxisIndex then
    a.meshAxisIndex < other.meshAxisIndex
  else
    match a.subAxisInfo, other.subAxisInfo with
    | none,     _          => other.preSize > 1
    | some _,   none       => a.preSize = 1
    | some sub, some other =>
      if sub.preSize ≠ other.preSize then sub.preSize < other.preSize else sub.size < other.size

def toString (a : AxisRef) (mesh : Mesh) : String :=
  let axis := "'" ++ mesh.axesNames.getD a.meshAxisIndex.toNat "" ++ "'"
  match a.subAxisInfo with
  | some sub => s!"{axis}:({sub.preSize}){sub.size}"
  | none     => axis

def canSubAxesCoexist (minPreSize maxPreSize minNextPreSize maxNextPreSize : Nat) : Bool :=
  if minNextPreSize > maxPreSize then
    -- Check if overlapping and non-overlapping parts are valid.
    minNextPreSize % maxPreSize = 0 ∧ maxPreSize % minPreSize = 0 ∧ maxNextPreSize % minNextPreSize = 0
  else
    maxPreSize % minNextPreSize = 0

def canCoexist (a other : AxisRef) : Bool :=
  if a.meshAxisIndex ≠ other.meshAxisIndex then
    true
  else
    match a.subAxisInfo, other.subAxisInfo with
    | some sub, some other =>
      canSubAxesCoexist (min sub.preSize other.preSize) (max sub.preSize other.preSize)
        (min sub.nextPreSize other.nextPreSize) (max sub.nextPreSize other.nextPreSize)
    | _, _ => true

def overlaps (a other : AxisRef) : Bool :=
  if a.meshAxisIndex ≠ other.meshAxisIndex then
    false
  else
    match a.subAxisInfo, other.subAxisInfo with
    | some sub, some other => sub.preSize < other.nextPreSize ∧ other.preSize < sub.nextPreSize
    | _, _                 => true

def getPrefixWithoutOverlap (a other : AxisRef) : Option (Option AxisRef) := do
  if !a.canCoexist other then return none
  if !a.overlaps other then return some a
  if a.preSize ≥ other.preSize then return none
  return some (← ofSubAxis a.meshAxisIndex a.preSize (other.preSize / a.preSize))

def canCoexistWithoutOverlap (a other : AxisRef) : Bool :=
  if a.meshAxisIndex ≠ other.meshAxisIndex then
    true
  else
    match a.subAxisInfo, other.subAxisInfo with
    | some sub, some other =>
      if sub.nextPreSize > other.preSize ∧ other.nextPreSize > sub.preSize then
        false
      else
        max sub.preSize other.preSize % min sub.nextPreSize other.nextPreSize = 0
    | _, _ => false

def canMerge (a other : AxisRef) : Bool :=
  if a.meshAxisIndex ≠ other.meshAxisIndex then
    false
  else
    match a.subAxisInfo, other.subAxisInfo with
    | some sub, some other => sub.nextPreSize = other.preSize
    | _, _                 => false

-- Returns `none` if the axes can not be merged.
def merge (a other : AxisRef) (mesh : Mesh) : Option AxisRef :=
  if a.canMerge other then
    match a.subAxisInfo, other.subAxisInfo with
    | some sub, some other =>
      let sub := sub.mulSize other.size other.one_lt_size
      if sub.size = mesh.axisSize a.meshAxisIndex then
        some { a with subAxisInfo := none }
      else
        some { a with subAxisInfo := sub }
    | _, _ => none
  else
    none

def validate (a : AxisRef) (mesh : Mesh) : Except String Unit :=
  if a.meshAxisIndex ≥ mesh.numAxes then
    .error <| s!"Axis index must be less than number of axes. Axis index: {a.meshAxisIndex}, " ++
      s!"Number of axes: {mesh.numAxes}"
  else
    match a.subAxisInfo with
    | none     => .ok ()
    | some sub =>
      let axisSize := mesh.axisSize a.meshAxisIndex
      if axisSize % sub.nextPreSize ≠ 0 then
        .error <| s!"Sub-axis next_pre_size must divide the full axis size. Next pre-size: {sub.nextPreSize}, " ++
          s!"Axis size: {axisSize}"
      else if sub.size ≥ axisSize then
        .error <| s!"Sub-axis size must be strictly less than the full axis size. Sub-axis size: {sub.size}, " ++
          s!"Axis size: {axisSize}"
      else
        .ok ()

end AxisRef

def axesCanCoexistWithoutOverlap : List AxisRef → Bool
  | []           => true
  | axis :: axes => axes.all axis.canCoexistWithoutOverlap && axesCanCoexistWithoutOverlap axes

namespace ValidateSpanOfAxes

def checkNeighbors (mesh : Mesh) : List AxisRef → Except String Unit
  | axis :: next :: axes =>
    if axis.canMerge next then
      .error s!"Adjacent axes in dimension sharding can be merged: {axis.toString mesh}, {next.toString mesh}"
    else
      checkNeighbors mesh (next :: axes)
  | _ => .ok ()

end ValidateSpanOfAxes

def validateSpanOfAxes (axes : List AxisRef) (mesh : Mesh) (allowMergeableNeighbors : Bool) : Except String Unit := do
  axes.forM (·.validate mesh)
  if !axesCanCoexistWithoutOverlap axes then
    throw "Axes cannot coexist or axes overlap."
  if allowMergeableNeighbors then
    return
  ValidateSpanOfAxes.checkNeighbors mesh axes

-- The inner loop that narrows an axis against each other axis.
def getPrefixWithoutOverlaps : List AxisRef → AxisRef → Option (Option AxisRef)
  | [],              axis => some axis
  | other :: others, axis => do
    match ← axis.getPrefixWithoutOverlap other with
    | none      => return none
    | some axis => getPrefixWithoutOverlaps others axis

-- Also returns whether the axes have changed.
def truncateAxesByRemovingOverlaps (otherAxisRefs : List AxisRef) : List AxisRef → Option (List AxisRef × Bool)
  | []           => some ([], false)
  | axis :: axes => do
    match ← getPrefixWithoutOverlaps otherAxisRefs axis with
    | none       => return ([], true)
    | some front =>
      if axis ≠ front then
        return ([front], true)
      else
        let (axes, changed) ← truncateAxesByRemovingOverlaps otherAxisRefs axes
        return (axis :: axes, changed)

end Sharding
