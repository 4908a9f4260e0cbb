import XlaModel.Shape.Util

structure Tile where
  dimensions : List Nat
  deriving DecidableEq

namespace Tile

def rank (t : Tile) : Nat :=
  t.dimensions.length

end Tile

-- An array whose layout has tiles.
structure TiledShape (τ : Type) extends Shape τ where
  tiles : List Tile

namespace TiledShape

namespace NestedTiling

def ceilOfRatio (dividend divisor : Nat) : Nat :=
  (dividend + divisor - 1) / divisor

-- The sizes, or the indices, are in major-to-minor order. A tile applies to a suffix of them.
def padShape (tile : Tile) (shape : List Nat) : List Nat :=
  List.replicate (tile.rank - shape.length) 1 ++ shape

def tileShape (tile : Tile) (shape : List Nat) : List Nat :=
  let suffixStart := shape.length - tile.rank
  shape.take suffixStart ++ List.zipWith ceilOfRatio (shape.drop suffixStart) tile.dimensions ++ tile.dimensions

def tileIndices (tile : Tile) (indices : List Nat) : List Nat :=
  let suffixStart := indices.length - tile.rank
  indices.take suffixStart ++ List.zipWith (· / ·) (indices.drop suffixStart) tile.dimensions ++
    List.zipWith (· % ·) (indices.drop suffixStart) tile.dimensions

structure State where
  currentShape   : List Nat
  currentIndices : List Nat

def applyTile (s : State) (tile : Tile) : State :=
  let padSize := tile.rank - s.currentShape.length
  {
    currentShape   := tileShape tile (padShape tile s.currentShape)
    currentIndices := tileIndices tile (List.replicate padSize 0 ++ s.currentIndices)
  }

-- The pairs of a size and an index, from the minor-most one on.
def linearize (s : State) : Nat :=
  ((s.currentShape.zip s.currentIndices).foldr
    (fun (size, index) (linearIndex, multiplier) => (linearIndex + index * multiplier, multiplier * size)) (0, 1)).1

structure TilingStep where
  shapeBefore : List Nat
  tile        : Tile

-- The final expanded shape and the steps that lead to it.
def expand : List Nat → List Tile → List Nat × List TilingStep
  | shape, []            => (shape, [])
  | shape, tile :: tiles =>
    let padded := padShape tile shape
    let (expanded, steps) := expand (tileShape tile padded) tiles
    (expanded, ⟨padded, tile⟩ :: steps)

def delinearize (shape : List Nat) (linearIndex : Nat) : List Nat :=
  (shape.foldr (fun size (indices, remainingIndex) => (remainingIndex % size :: indices, remainingIndex / size))
    ([], linearIndex)).1

-- Combines the outer and the inner indices of a tile.
def collapse (step : TilingStep) (currentIndices : List Nat) : List Nat :=
  let tileRank    := step.tile.rank
  let suffixStart := step.shapeBefore.length - tileRank
  let outer       := (currentIndices.drop suffixStart).take tileRank
  let inner       := (currentIndices.drop (suffixStart + tileRank)).take tileRank
  currentIndices.take suffixStart ++
    List.zipWith (· + ·) (List.zipWith (· * ·) outer step.tile.dimensions) inner

end NestedTiling

open NestedTiling

variable {τ : Type} (s : TiledShape τ)

-- The dimensions in major-to-minor order.
def physicalDims : List Nat :=
  s.minorToMajor.reverse

def physicalShape : List Nat :=
  s.physicalDims.map s.dimension

def expandedShape : List Nat :=
  (expand s.physicalShape s.tiles).1

-- The number of elements of the tiled array fits into an `int64_t`.
def FitsInt64 : Prop :=
  s.expandedShape.prod ≤ Shape.int64Max

-- Returns `none` if a `CHECK` fails.
def linearIndexForNestedTiling (indices : List Nat) : Option Nat :=
  if s.rank ≠ indices.length then none
  else if s.rank = 0 then some 0
  else some (linearize (s.tiles.foldl applyTile ⟨s.physicalShape, s.physicalDims.map (indices.getD · 0)⟩))

def delinearizeIndexForNestedTiling (linearIndex : Nat) : List Nat :=
  if s.rank = 0 then []
  else
    let (shape, steps) := expand s.physicalShape s.tiles
    let indices   := steps.foldr collapse (delinearize shape linearIndex)
    let padOffset := indices.length - s.rank
    (s.physicalDims.zip (indices.drop padOffset)).foldl (fun logical (dim, index) => logical.set dim index)
      (List.replicate s.rank 0)

end TiledShape

namespace TiledShape

open NestedTiling

variable {τ : Type} (s : TiledShape τ)

section LinearIndex

-- The first tile of the layout, or a tile without dimensions.
def topLevelTile : Tile :=
  s.tiles.headD ⟨[]⟩

structure LinearIndex.State where
  linearIndex          : Nat
  tileMultiplier       : Nat
  withinTileMultiplier : Nat

def LinearIndex.step (tile : Tile) (indices : List Nat) (state : State) : Nat × Nat → State
  | (logicalDim, minor) =>
    let shapeDimSize := s.dimension logicalDim
    let index := indices.getD logicalDim 0
    if minor < tile.rank then
      let tileDimSize := tile.dimensions.getD (tile.rank - 1 - minor) 0
      {
        linearIndex := state.linearIndex +
          (state.tileMultiplier * (index / tileDimSize) + state.withinTileMultiplier * (index % tileDimSize))
        tileMultiplier       := state.tileMultiplier * ceilOfRatio shapeDimSize tileDimSize
        withinTileMultiplier := state.withinTileMultiplier * tileDimSize
      }
    else
      { state with
        linearIndex    := state.linearIndex + index * state.tileMultiplier
        tileMultiplier := state.tileMultiplier * shapeDimSize }

-- Only looks at the top-level tile. Returns `none` if a `CHECK` fails.
def linearIndex (indices : List Nat) : Option Nat :=
  if s.rank ≠ indices.length then none
  else if s.rank = 0 then some 0
  else if s.rank = 1 then indices[0]?
  else
    let tile := s.topLevelTile
    some (s.minorToMajor.zipIdx.foldl (LinearIndex.step s tile indices) ⟨0, tile.dimensions.foldl (· * ·) 1, 1⟩).linearIndex

end LinearIndex

section IsUntiledLayout

-- The number of tiles in each dimension of a tiled shape, or `none` in case of a padding or of multiple tiles that are
-- not allowed. Fails if a tile has a size of zero.
def IsUntiledLayout.split (allowMultipleTiles : Bool) : List Nat → List Nat → Option (Option (List Nat))
  | size :: tiledShape, tileSize :: tile => do
    if tileSize = 0 then
      none
    else if size % tileSize ≠ 0 then
      return none
    else if !allowMultipleTiles && size / tileSize ≠ 1 then
      return none
    else
      return (← split (allowMultipleTiles && tileSize = 1) tiledShape tile).map (size / tileSize :: ·)
  | _,                  _                => some (some [])

-- Returns `none` if a `CHECK` fails.
def isUntiledLayout : List Tile → List Nat → Option Bool
  | [],            _            => some true
  | tile :: tiles, currentShape =>
    if currentShape.length < tile.rank then none
    else do
      let prefixSize := currentShape.length - tile.rank
      match ← IsUntiledLayout.split true (currentShape.drop prefixSize) tile.dimensions with
      | none       => return false
      | some outer => isUntiledLayout tiles (currentShape.take prefixSize ++ (outer ++ tile.dimensions))

end IsUntiledLayout

end TiledShape
