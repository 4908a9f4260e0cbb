import XlaModel.Sharding.TileAssignment

namespace Sharding

inductive TransposeKind where
  -- Nothing to do.
  | noop
  -- The flat array is identical but degenerate dimensions have moved.
  | reshape
  | transpose
  deriving DecidableEq

def GetTransposeKind.loop (dims : List Nat) : List Nat → Nat → Int → TransposeKind → TransposeKind
  | [],        _, _,             kind => kind
  | d :: perm, i, prevNonOneDim, kind =>
    if dims.getD d 0 = 1 then
      loop dims perm (i + 1) prevNonOneDim (if d ≠ i ∧ dims.getD i 0 ≠ 1 then .reshape else kind)
    else if d ≤ prevNonOneDim then .transpose
    else loop dims perm (i + 1) d kind

def getTransposeKind (dims perm : List Nat) : TransposeKind :=
  GetTransposeKind.loop dims perm 0 (-1) .noop

namespace FullyDecanonicalize

-- Divides by `i` as long as possible. Also returns the divisors in the order in which they are found.
def divideOut (i : Nat) : Nat → Nat → Option (List Nat × Nat)
  | 0,        _       => none
  | fuel + 1, dimSize =>
    if dimSize % i = 0 then do
      let (divisors, dimSize) ← divideOut i fuel (dimSize / i)
      return (i :: divisors, dimSize)
    else
      some ([], dimSize)

-- The divisor is an `int`. Hence the loop is left with undefined behavior once its square overflows.
def trialDivision : Nat → Nat → Nat → Option (List Nat × Nat)
  | 0,        _, _       => none
  | fuel + 1, i, dimSize =>
    if 2 ^ 31 ≤ i * i then none
    else if i * i ≤ dimSize then do
      let (divisors, dimSize) ← divideOut i dimSize dimSize
      let (divisors', dimSize) ← trialDivision fuel (i + 2) dimSize
      return (divisors ++ divisors', dimSize)
    else
      some ([], dimSize)

-- The square of `46341` overflows.
def factors (dimSize : Nat) : Option (List Nat) := do
  let (twos, dimSize) ← divideOut 2 dimSize dimSize
  let (divisors, dimSize) ← trialDivision 46341 3 dimSize
  if 1 < dimSize then
    guard (2 < dimSize)
    return twos ++ divisors ++ [dimSize]
  else
    return twos ++ divisors

structure Info where
  newReshapeDims                          : List Nat
  newTransposePerm                        : List Nat
  newTransposePermIdxToOriginalReshapeDim : List Nat
  originalReshapeDimToNewTransposePermIndices : List (List Nat)

def appendFactors (s : List Nat × List Nat) (dimSize : Nat) : Option (List Nat × List Nat) := do
  let newReshapeDims := s.1 ++ (← factors dimSize)
  return (newReshapeDims, s.2 ++ [newReshapeDims.length])

def appendIndex (oldDim : Nat) (info : Info) (j : Nat) : Info :=
  { info with
    newTransposePerm := info.newTransposePerm ++ [j]
    newTransposePermIdxToOriginalReshapeDim := info.newTransposePermIdxToOriginalReshapeDim ++ [oldDim]
    originalReshapeDimToNewTransposePermIndices :=
      info.originalReshapeDimToNewTransposePermIndices.modify oldDim (· ++ [info.newTransposePerm.length])
  }

def appendIndices (oldToNewDims : List Nat) (info : Info) (oldDim : Nat) : Info :=
  let first := oldToNewDims.getD oldDim 0
  let last  := oldToNewDims.getD (oldDim + 1) 0
  (List.range' first (last - first)).foldl (appendIndex oldDim) info

end FullyDecanonicalize

-- Decanonicalizes the dimensions into prime factors.
def fullyDecanonicalize (reshapeDims transposePerm : List Nat) : Option FullyDecanonicalize.Info := do
  let (newReshapeDims, oldToNewDims) ← reshapeDims.foldlM FullyDecanonicalize.appendFactors ([], [0])
  return transposePerm.foldl (FullyDecanonicalize.appendIndices oldToNewDims)
    ⟨newReshapeDims, [], [], List.replicate transposePerm.length []⟩

namespace IotaTileAssignment

namespace Transpose

open FullyDecanonicalize

structure NonOneDims where
  nonOneDims      : List Nat
  oneToNonOne     : List (Option Nat)
  isPureTranspose : Bool

def nonOneDim (t : IotaTileAssignment) (s : NonOneDims) (dim : Nat) : NonOneDims :=
  let n := s.nonOneDims.length
  if dim = 1 then
    { s with oneToNonOne := s.oneToNonOne ++ [none] }
  else {
    nonOneDims      := s.nonOneDims ++ [dim]
    oneToNonOne     := s.oneToNonOne ++ [some n]
    isPureTranspose := s.isPureTranspose ∧ n < t.reshapeDims.length ∧
      t.reshapeDims.getD (t.transposePerm.getD n 0) 0 = dim
  }

def swap (xs : List Nat) (i j : Nat) : List Nat :=
  (xs.set i (xs.getD j 0)).set j (xs.getD i 0)

-- Also returns the reshape dimensions, which are swapped if a later dimension divides the target.
def generateCandidate (info : Info) (target transposePermIdx : Nat) : Option (Nat × Info) :=
  let dims := info.newReshapeDims
  let perm := info.newTransposePerm
  let reshapeDimIdx := perm.getD transposePermIdx 0
  if target % dims.getD reshapeDimIdx 0 = 0 then
    some (reshapeDimIdx, info)
  else do
    let originalReshapeDim := info.newTransposePermIdxToOriginalReshapeDim.getD transposePermIdx 0
    let candidates := info.originalReshapeDimToNewTransposePermIndices.getD originalReshapeDim []
    let candidate ← candidates.find? fun candidate =>
      transposePermIdx < candidate ∧ target % dims.getD (perm.getD candidate 0) 0 = 0
    return (reshapeDimIdx, { info with newReshapeDims := swap dims reshapeDimIdx (perm.getD candidate 0) })

structure GroupState where
  info             : Info
  transposePermIdx : Nat

-- Collects a group of dimensions. The fuel is the number of dimensions that are left.
def collect : Nat → GroupState → Nat → List Nat × Nat × GroupState
  | 0,        s, target => ([], target, s)
  | fuel + 1, s, target =>
    match generateCandidate s.info target s.transposePermIdx with
    | none => ([], target, s)
    | some (reshapeDimIdx, info) =>
      let target := target / info.newReshapeDims.getD reshapeDimIdx 0
      let (group, target, s) := collect fuel ⟨info, s.transposePermIdx + 1⟩ target
      (reshapeDimIdx :: group, target, s)

-- Returns `none` if the dimensions can not be grouped.
def groupReshapeDims : GroupState → List Nat → Option (List (List Nat) × GroupState)
  | s, []                => some ([], s)
  | s, target :: targets =>
    let n := s.info.newReshapeDims.length
    if s.transposePermIdx < n then
      let (group, target, s) := collect (n - s.transposePermIdx) s target
      if target ≠ 1 then none
      else do
        let (groups, s) ← groupReshapeDims s targets
        return (group :: groups, s)
    else
      some (List.replicate (targets.length + 1) [], s)

def pureTranspose (t : IotaTileAssignment) (perm newDims : List Nat) (s : NonOneDims) :
    Option IotaTileAssignment := do
  guard (t.reshapeDims.length = s.nonOneDims.length)
  let newPerm := perm.filterMap fun dim =>
    if t.dims.getD dim 0 = 1 then none
    else some (t.transposePerm.getD ((s.oneToNonOne.getD dim none).getD 0) 0)
  guard (t.reshapeDims.length = newPerm.length)
  create newDims t.reshapeDims newPerm

def groupedTranspose (t : IotaTileAssignment) (perm newDims : List Nat) (s : NonOneDims) :
    Option (Option IotaTileAssignment) := do
  let info ← fullyDecanonicalize t.reshapeDims t.transposePerm
  guard (s.nonOneDims.length ≤ info.newReshapeDims.length)
  match groupReshapeDims ⟨info, 0⟩ s.nonOneDims with
  | none => return none
  | some (groupedReshapeDims, s') =>
    let flattenedTransposePerm := perm.flatMap fun dim =>
      ((s.oneToNonOne.getD dim none).map (groupedReshapeDims.getD · [])).getD []
    guard (flattenedTransposePerm.length = info.newTransposePerm.length)
    return some (← create newDims s'.info.newReshapeDims flattenedTransposePerm)

end Transpose

open Transpose

-- The outer `none` is a failed check or undefined behavior.
def transpose (t : IotaTileAssignment) (perm : List Nat) : Option (Option IotaTileAssignment) :=
  let newDims := perm.map (t.dims.getD · 0)
  match getTransposeKind t.dims perm with
  | .noop      => some (some t)
  | .reshape   => (create newDims t.reshapeDims t.transposePerm).map some
  | .transpose =>
    if t.reshapeDims.length = 1 then
      (create newDims t.dims perm).map some
    else
      let s := t.dims.foldl (nonOneDim t) ⟨[], [], true⟩
      if s.isPureTranspose then (pureTranspose t perm newDims s).map some
      else groupedTranspose t perm newDims s

end IotaTileAssignment

namespace TileAssignment

def reshape (t : TileAssignment) (newDimensions : List Nat) : Option TileAssignment := do
  match t.iota with
  | some iota =>
    guard (newDimensions.prod = iota.dims.prod)
    return ofIota (← IotaTileAssignment.create newDimensions iota.reshapeDims iota.transposePerm)
  | none => return ofArray (← (← t.array).reshape newDimensions)

def transposeArray (t : TileAssignment) (perm : List Nat) : Option TileAssignment := do
  return ofArray (← (← t.array).transposeDimensions perm)

def transpose (t : TileAssignment) (perm : List Nat) : Option TileAssignment := do
  if getTransposeKind (← t.dimensions) perm = .noop then
    return t
  match t.iota with
  | some iota =>
    match ← iota.transpose perm with
    | some transposed => return ofIota transposed
    | none            => t.transposeArray perm
  | none => t.transposeArray perm

end TileAssignment
end Sharding
