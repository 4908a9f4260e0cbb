import XlaModel.Sharding.TileAssignment

namespace Sharding

namespace ExtractCommonFactorSequence

-- Reads elements as long as the current value is one.
def next : Nat → List Nat → Nat × List Nat
  | val, []      => (val, [])
  | val, x :: xs => if val = 1 then next x xs else (val, x :: xs)

theorem next_sum_le (val : Nat) (xs : List Nat) : (next val xs).1 + (next val xs).2.sum ≤ val + xs.sum := by
  fun_induction next val xs
  case case1         => exact le_rfl
  case case2 x xs hi =>
    rw [List.sum_cons]
    omega
  case case3         => exact le_rfl

-- Returns `none` if the arrays have no common factor sequence.
def loop (val1 val2 : Nat) (array1 array2 : List Nat) : Option (List Nat) :=
  let s1 := next val1 array1
  let s2 := next val2 array2
  if s1.1 = 1 ∧ s2.1 = 1 then
    some []
  else if s1.1 = 1 ∨ s2.1 = 1 then
    none
  else
    let common := min s1.1 s2.1
    if common = 0 ∨ s1.1 % common ≠ 0 ∨ s2.1 % common ≠ 0 then
      none
    else
      (loop (s1.1 / common) (s2.1 / common) s1.2 s2.2).map (common :: ·)
termination_by val1 + array1.sum + (val2 + array2.sum)
decreasing_by
  have h1 := next_sum_le val1 array1
  have h2 := next_sum_le val2 array2
  have hd1 : (next val1 array1).1 / common ≤ (next val1 array1).1 := Nat.div_le_self _ _
  have hd2 : (next val2 array2).1 / common < (next val2 array2).1 :=
    Nat.div_lt_self (show 0 < s2.1 by omega) (show 1 < min s1.1 s2.1 by omega)
  exact (Nat.add_lt_add_of_le_of_lt (Nat.add_le_add_right hd1 _ |>.trans h1)
    (Nat.lt_of_lt_of_le (Nat.add_lt_add_right hd2 _) h2))

end ExtractCommonFactorSequence

def extractCommonFactorSequence (array1 array2 : List Nat) : List Nat :=
  (ExtractCommonFactorSequence.loop 1 1 array1 array2).getD []

structure SubDimInfo where
  tileDimIndex    : Nat
  tileSubDimIndex : Nat
  reshapeDimIndex : Nat
  size            : Nat
deriving DecidableEq

namespace GetOrderedSubDims

-- The number of dimensions that are not processed yet is the index of the current one plus one.
structure State where
  tileDims      : Nat
  transPerms    : Nat
  accTileSize   : Nat
  accDeviceSize : Nat
  subDim        : Nat
  subDims       : List SubDimInfo

def skipOnes (dims : List Nat) : Nat → Nat
  | 0            => 0
  | tileDims + 1 => if dims.getD tileDims 0 = 1 then skipOnes dims tileDims else tileDims + 1

-- Returns `none` for an access in front of the first dimension.
def step (dims deviceShape transposePerm : List Nat) (s : State) (axisSize : Nat) : Option State :=
  match skipOnes dims s.tileDims, s.transPerms with
  | tileDimIndex + 1, transPermIndex + 1 =>
    let subDimInfo := ⟨tileDimIndex, s.subDim, transposePerm.getD transPermIndex 0, axisSize⟩
    let tileDone   := dims.getD tileDimIndex 0 = s.accTileSize * axisSize
    let deviceDone := deviceShape.getD transPermIndex 0 = s.accDeviceSize * axisSize
    some {
      tileDims      := if tileDone then tileDimIndex else tileDimIndex + 1
      transPerms    := if deviceDone then transPermIndex else transPermIndex + 1
      accTileSize   := if tileDone then 1 else s.accTileSize * axisSize
      accDeviceSize := if deviceDone then 1 else s.accDeviceSize * axisSize
      subDim        := if tileDone then 0 else s.subDim + 1
      subDims       := s.subDims ++ [subDimInfo]
    }
  | _, _ => none

def le (a b : SubDimInfo) : Bool :=
  a.reshapeDimIndex < b.reshapeDimIndex ∨
    (a.reshapeDimIndex = b.reshapeDimIndex ∧ a.tileDimIndex ≤ b.tileDimIndex)

def errorMessage (dims reshapeDims transposePerm : List Nat) : String :=
  "Failed to extract common factor sequence: dims: [" ++ ",".intercalate (dims.map toString) ++
    "] reshape_dims: [" ++ ",".intercalate (reshapeDims.map toString) ++
    "] transpose_perm: T(" ++ ",".intercalate (transposePerm.map toString) ++ ")"

end GetOrderedSubDims

open GetOrderedSubDims

-- The outer result is `none` if an access is out of bounds.
def getOrderedSubDims (dims reshapeDims transposePerm : List Nat) : Option (Except String (List SubDimInfo)) :=
  let deviceShape := transposePerm.map (reshapeDims.getD · 0)
  let axisSizes := extractCommonFactorSequence dims deviceShape
  if axisSizes = [] then
    some (.error (errorMessage dims reshapeDims transposePerm))
  else do
    let s ← axisSizes.reverse.foldlM (step dims deviceShape transposePerm)
      ⟨dims.length, transposePerm.length, 1, 1, 0, []⟩
    return .ok (s.subDims.mergeSort le)

def getOrderedSubDimsFromIotaTileAssignment (iota : IotaTileAssignment) : Option (Option (List SubDimInfo)) := do
  return (← getOrderedSubDims iota.dims iota.reshapeDims iota.transposePerm).toOption

structure AnalyzeTileAssignmentResult where
  subDims   : List SubDimInfo
  localMesh : List Nat
  iota      : IotaTileAssignment

def analyzeResult (subDims : List SubDimInfo) (iota : IotaTileAssignment) : AnalyzeTileAssignmentResult where
  subDims   := subDims
  localMesh := subDims.map SubDimInfo.size
  iota      := iota

-- The outer result is `none` if a `CHECK` fails or an access is out of bounds.
def analyzeTileAssignment (tileAssignment : TileAssignment) : Option (Option AnalyzeTileAssignmentResult) := do
  match tileAssignment.iota with
  | some iota =>
    let subDims ← ← getOrderedSubDimsFromIotaTileAssignment iota
    return some (analyzeResult subDims iota)
  | none =>
    let dimensions ← tileAssignment.dimensions
    let transposePerm := List.range dimensions.length
    match ← getOrderedSubDims dimensions dimensions transposePerm with
    | .error _    => return none
    | .ok subDims =>
      let iota ← IotaTileAssignment.create dimensions dimensions transposePerm
      let equal ← (← tileAssignment.each).mapM fun (index, deviceId) =>
        return decide (deviceId = (← iota.valueAt index))
      let isIota := equal.all id
      return if isIota then some (analyzeResult subDims iota) else none

end Sharding
