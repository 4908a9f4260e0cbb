import Mathlib.Data.List.Sort
import XlaModel.Shape.AlignLayouts

namespace Shape

structure ConvertedDimensionNumbers where
  transformedFromDimensions   : List Nat := []
  untransformedFromDimensions : List Nat := []
  toDimensions                : List Nat := []
  splitFromDimensions         : List Nat := []
  splitFromSizes              : List Nat := []
  splitToDimensions           : List Nat := []

namespace ConvertDimensionNumbers

variable (fromDimensions fromSizes toSizes : List Nat)

-- Divides a size by the sizes of dimensions as long as they are factors of it. A division by zero traps.
def splitDimension : List Nat → Nat → Except Failure (Nat × List Nat)
  | [],              fromSize => return (fromSize, [])
  | toDim :: toDims, fromSize => do
    let toSize ← required toSizes[toDim]?
    check (toSize ≠ 0)
    if fromSize % toSize = 0 then
      let (fromSize, toDimensions) ← splitDimension toDims (fromSize / toSize)
      return (fromSize, toDim :: toDimensions)
    else
      return (fromSize, [])

-- A group without dimensions counts as present.
def convertGroup (bounds nextBounds : Nat × Nat) (dimensions : ConvertedDimensionNumbers) :
    Except Failure ConvertedDimensionNumbers := do
  let group := List.range' bounds.1 (nextBounds.1 - bounds.1)
  let toGroup := List.range' bounds.2 (nextBounds.2 - bounds.2)
  if group.all (· ∈ fromDimensions) then
    return { dimensions with
      toDimensions              := dimensions.toDimensions ++ toGroup
      transformedFromDimensions := dimensions.transformedFromDimensions ++ group }
  else if group.any (· ∈ fromDimensions) then
    let dimensions ←
      if bounds.1 + 2 = nextBounds.1 ∧ bounds.1 + 1 ∈ fromDimensions then do
        -- The second dimension of the group is partially mapped to the last dimensions.
        let (fromSize, toDimensions) ← splitDimension toSizes toGroup.reverse (← required fromSizes[nextBounds.1 - 1]?)
        if toDimensions ≠ [] then
          pure { dimensions with
            toDimensions        := dimensions.toDimensions ++ toDimensions
            splitFromSizes      := dimensions.splitFromSizes ++ [fromSize]
            splitFromDimensions := dimensions.splitFromDimensions ++ [bounds.1 + 1] }
        else
          pure dimensions
      else
        pure dimensions
    return { dimensions with
      untransformedFromDimensions := dimensions.untransformedFromDimensions ++ group.filter (· ∈ fromDimensions) }
  else
    return dimensions

def convertGroups : List (Nat × Nat) → ConvertedDimensionNumbers → Except Failure ConvertedDimensionNumbers
  | bounds :: nextBounds :: commonFactors, dimensions => do
    let dimensions ← convertGroup fromDimensions fromSizes toSizes bounds nextBounds dimensions
    convertGroups (nextBounds :: commonFactors) dimensions
  | _,                                     dimensions => return dimensions

end ConvertDimensionNumbers

open ConvertDimensionNumbers in
def convertDimensionNumbers (fromDimensions fromSizes toSizes : List Nat) : Except Failure ConvertedDimensionNumbers := do
  let commonFactors ← commonFactorsInt64 fromSizes toSizes
  let dimensions ← convertGroups fromDimensions fromSizes toSizes commonFactors {}
  return { dimensions with toDimensions := dimensions.toDimensions.insertionSort (· ≤ ·) }

end Shape
