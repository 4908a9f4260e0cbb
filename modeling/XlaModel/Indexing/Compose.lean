import XlaModel.Indexing.Compress

namespace Indexing

open Symbolic SymbolicExpr

-- Fails if the number of dimensions does not match the number of results of the other map.
def SymbolicMap.compose (m other : SymbolicMap) : Option SymbolicMap :=
  if m.numDims ≠ other.exprs.length then
    none
  else do
    let newDims := other.numDims
    let newSyms := m.numSymbols + other.numSymbols
    -- The symbols of the other map are moved after the symbols of this map.
    let updatedOther ← other.replaceDimsAndSymbols (createVariableRange other.numDims 0)
      (createVariableRange other.numSymbols (newDims + m.numSymbols)) newDims newSyms
    m.replaceDimsAndSymbols (updatedOther.exprs.map some) (createVariableRange m.numSymbols newDims)
      newDims newSyms

namespace IndexingMap

def verifyVariableIntervals (m : IndexingMap) : Bool :=
  m.dimVars.all (·.isFeasible) ∧ m.rangeVars.all (·.isFeasible) ∧ m.rtVars.all (·.isFeasible)

def create (symbolicMap : SymbolicMap) (dimVars rangeVars rtVars : List Interval) : IndexingMap :=
  let m : IndexingMap :=
    { symbolicMap, dimVars, rangeVars, rtVars, constraints := [], isKnownEmpty := false }
  if m.verifyVariableIntervals then m else m.resetToKnownEmpty

-- From the order range variables of the second map, runtime variables of the second map, range
-- variables of the first map, runtime variables of the first map to the order of the composed map. No
-- permutation is needed if the second map has no runtime variables.
def getComposedSymbolsPermutationToCorrectOrder (first second : IndexingMap) (numDims : Nat) :
    List (Option SymbolicExpr) :=
  if second.rtVars.length = 0 then
    []
  else
    createVariableRange second.rangeVars.length numDims ++
    createVariableRange second.rtVars.length
      (numDims + (first.rangeVars.length + second.rangeVars.length)) ++
    createVariableRange first.rangeVars.length (numDims + second.rangeVars.length) ++
    createVariableRange first.rtVars.length
      (numDims + (first.rangeVars.length + second.rangeVars.length + second.rtVars.length))

def mapSymbolsToComposedSymbolsList (m composed : IndexingMap) : List (Option SymbolicExpr) :=
  let numDims := m.symbolicMap.numDims
  createVariableRange m.rangeVars.length
    (numDims + (composed.rangeVars.length - m.rangeVars.length)) ++
  createVariableRange m.rtVars.length
    (numDims + (composed.symbolicMap.numSymbols - m.rtVars.length))

def composeSymbolicMaps (first second : IndexingMap) : Option SymbolicMap := do
  let composedMap ← second.symbolicMap.compose first.symbolicMap
  let symbolReplacements :=
    getComposedSymbolsPermutationToCorrectOrder first second composedMap.numDims
  if symbolReplacements ≠ [] then
    composedMap.replaceDimsAndSymbols [] symbolReplacements composedMap.numDims composedMap.numSymbols
  else
    some composedMap

-- The constraints of the second map.
def remapConstraints (first second composed : IndexingMap) : Option (List (SymbolicExpr × Interval)) := do
  let symbolReplacements :=
    getComposedSymbolsPermutationToCorrectOrder first second composed.symbolicMap.numDims
  let constraintsMap ← SymbolicMap.compose
    ⟨second.symbolicMap.numDims, second.symbolicMap.numSymbols, MapVector.keys second.constraints⟩
    first.symbolicMap
  let remapped ← constraintsMap.replaceDimsAndSymbols [] symbolReplacements
    composed.symbolicMap.numDims composed.symbolicMap.numSymbols
  some (remapped.exprs.zip (second.constraints.map (·.2)))

def composeIndexingMaps (first second : IndexingMap) : Option IndexingMap := do
  let composedMap ← composeSymbolicMaps first second
  let composed := create composedMap first.dimVars (second.rangeVars ++ first.rangeVars)
    (second.rtVars ++ first.rtVars)
  let composed ← composed.addConstraints (← remapConstraints first second composed)
  -- The constraints of the first map.
  let toComposed := createVariableRange composedMap.numDims 0 ++
    mapSymbolsToComposedSymbolsList first composed
  let composed ← composed.addConstraints
    (first.constraints.map fun c => (c.1.replaceVariables toComposed, c.2))
  -- The results of the first map are dimensions of the second map.
  composed.addConstraints
    ((first.symbolicMap.exprs.map (·.replaceVariables toComposed)).zip second.dimVars)

end IndexingMap
end Indexing

namespace Indexing

open Symbolic SymbolicExpr

def replaceSymbols (e : SymbolicExpr) (symReplacements : List (Option SymbolicExpr)) (numDims : Nat) : SymbolicExpr :=
  e.replaceVariables (createVariableRange numDims 0 ++ symReplacements)

namespace IndexingMap

-- No constraint is added if the bounds of a variable are infeasible.
def createConstrained (symbolicMap : SymbolicMap) (dimVars rangeVars rtVars : List Interval)
    (constraints : List (SymbolicExpr × Interval)) : Option IndexingMap :=
  let m : IndexingMap := { symbolicMap, dimVars, rangeVars, rtVars, constraints := [], isKnownEmpty := false }
  if m.verifyVariableIntervals then m.addConstraints constraints else some m.resetToKnownEmpty

def convertSymbolsToDimensions (m : IndexingMap) : Option IndexingMap :=
  let numSymbols := m.symbolicMap.numSymbols
  if m.isKnownEmpty ∨ numSymbols = 0 then
    some m
  else do
    let numDims := m.symbolicMap.numDims
    let numVars := numDims + numSymbols
    let newDimVars := m.dimVars ++ (m.rangeVars ++ m.rtVars)
    let symsReplacements := createVariableRange (m.rangeVars.length + m.rtVars.length) numDims
    let newConstraints := m.constraints.map fun c => (replaceSymbols c.1 symsReplacements numDims, c.2)
    let canonicalMap ← m.symbolicMap.replaceDimsAndSymbols [] symsReplacements numVars 0
    createConstrained canonicalMap newDimVars [] [] newConstraints

structure ConvertedVars where
  symbolReplacements : List (Option SymbolicExpr)
  dims               : List Interval
  rangeVars          : List Interval
  updatedCount       : Nat

section RangeVars

variable (numDims : Nat) (rangeVarIndices : List Nat)

def convertRangeVar (s : ConvertedVars) (rangeVar : Interval × Nat) : ConvertedVars :=
  if rangeVarIndices[s.updatedCount]? = some rangeVar.2 then
    { s with
      symbolReplacements := s.symbolReplacements ++ [some (var (numDims + s.updatedCount))]
      dims               := s.dims ++ [rangeVar.1]
      updatedCount       := s.updatedCount + 1
    }
  else
    { s with
      symbolReplacements := s.symbolReplacements ++
        [some (var (numDims + rangeVarIndices.length + (rangeVar.2 - s.updatedCount)))]
      rangeVars          := s.rangeVars ++ [rangeVar.1]
    }

def convertRangeVars (dims rangeVars : List Interval) : ConvertedVars :=
  rangeVars.zipIdx.foldl (convertRangeVar numDims rangeVarIndices) ⟨[], dims, [], 0⟩

end RangeVars

-- Fails if the indices are not sorted or not all of them are used.
def convertRangeVariablesToDimensions (m : IndexingMap) (rangeVarIndices : List Nat) : Option IndexingMap :=
  let numDims := m.symbolicMap.numDims
  let numResultDims := numDims + rangeVarIndices.length
  let numResultSymbols := m.symbolicMap.numSymbols - rangeVarIndices.length
  let vars := convertRangeVars numDims rangeVarIndices m.dimVars m.rangeVars
  let symbolReplacements := vars.symbolReplacements ++
    createVariableRange m.rtVars.length (numResultDims + (m.rangeVars.length - rangeVarIndices.length))
  if ¬rangeVarIndices.Pairwise (· ≤ ·) then
    none
  else if vars.updatedCount ≠ rangeVarIndices.length then
    none
  else if symbolReplacements.length ≠ m.symbolicMap.numSymbols then
    none
  else do
    let converted ← m.symbolicMap.replaceDimsAndSymbols [] symbolReplacements numResultDims numResultSymbols
    let constraints := m.constraints.map fun c => (replaceSymbols c.1 symbolReplacements numDims, c.2)
    createConstrained converted vars.dims vars.rangeVars m.rtVars constraints

end IndexingMap
end Indexing
