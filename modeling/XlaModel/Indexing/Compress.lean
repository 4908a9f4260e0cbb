import XlaModel.Lib.MapVector
import XlaModel.Indexing.Map
import XlaModel.Lib.Compaction
import XlaModel.Symbolic.Expr

namespace Indexing

open Symbolic SymbolicExpr

namespace IndexingMap

-- The bounds of the runtime variables are not reset.
def resetToKnownEmpty (m : IndexingMap) : IndexingMap where
  symbolicMap  := { m.symbolicMap with exprs := m.symbolicMap.exprs.map fun _ => const 0 }
  dimVars      := m.dimVars.map fun _ => ⟨0, -1⟩
  rangeVars    := m.rangeVars.map fun _ => ⟨0, -1⟩
  rtVars       := m.rtVars
  constraints  := []
  isKnownEmpty := true

def setSymbolBound (m : IndexingMap) (id : Nat) (i : Interval) : IndexingMap :=
  if id < m.rangeVars.length then
    { m with rangeVars := m.rangeVars.set id i }
  else
    { m with rtVars := m.rtVars.set (id - m.rangeVars.length) i }

def resetIfEmpty (m : IndexingMap) (range : Interval) : IndexingMap :=
  if range.isFeasible then m else m.resetToKnownEmpty

def addVariableConstraint (m : IndexingMap) (id : Nat) (range : Interval) : Option IndexingMap :=
  let numDims := m.dimVars.length
  if id < numDims then do
    let range := (← m.getDimensionBound id).intersect range
    some ({ m with dimVars := m.dimVars.set id range }.resetIfEmpty range)
  else do
    let range := (← m.getSymbolBound (id - numDims)).intersect range
    some ((m.setSymbolBound (id - numDims) range).resetIfEmpty range)

def insertConstraint (m : IndexingMap) (expr : SymbolicExpr) (range : Interval) : IndexingMap :=
  match m.constraints.lookup expr with
  | none         => { m with constraints := m.constraints ++ [(expr, range)] }
  | some current =>
    let range := current.intersect range
    { m with constraints := MapVector.set m.constraints expr range }.resetIfEmpty range

def addConstraint (m : IndexingMap) (expr : SymbolicExpr) (range : Interval) : Option IndexingMap :=
  -- The constraint is not added if the domain is already empty.
  if m.isKnownEmpty then
    some m
  else if ¬range.isFeasible then
    some m.resetToKnownEmpty
  else
    match expr with
    | var id        => m.addVariableConstraint id range
    | const v       => some (if v ∈ range then m else m.resetToKnownEmpty)
    | binary op l r => some (m.insertConstraint (binary op l r) range)

def addConstraints (m : IndexingMap) (constraints : List (SymbolicExpr × Interval)) : Option IndexingMap :=
  constraints.foldlM (fun m c => m.addConstraint c.1 c.2) m

end IndexingMap
end Indexing

namespace Indexing

open Symbolic SymbolicExpr Compaction

def createVariableRange (num offset : Nat) : List (Option SymbolicExpr) :=
  (List.range num).map fun i => some (var (offset + i))

-- The variables that are not marked are numbered from `start`.
def compactReplacements (removed : Option SymbolicExpr) : (start : Nat) → List Bool →
    List (Option SymbolicExpr)
  | _,     []              => []
  | start, true :: unused  => removed :: compactReplacements removed start unused
  | start, false :: unused => some (var start) :: compactReplacements removed (start + 1) unused

namespace SymbolicMap

-- Fails if a list of replacements has the wrong length.
def replaceDimsAndSymbols (m : SymbolicMap) (dimReplacements symReplacements : List (Option SymbolicExpr))
    (numResultDims numResultSymbols : Nat) : Option SymbolicMap :=
  if (dimReplacements ≠ [] → dimReplacements.length = m.numDims) ∧
      (symReplacements ≠ [] → symReplacements.length = m.numSymbols) then
    let dims := if dimReplacements ≠ [] then dimReplacements else createVariableRange m.numDims 0
    let syms := if symReplacements ≠ [] then symReplacements else
      createVariableRange m.numSymbols numResultDims
    some ⟨numResultDims, numResultSymbols, m.exprs.map (·.replaceVariables (dims ++ syms))⟩
  else
    none

def usedVariables (m : SymbolicMap) : List Nat :=
  m.exprs.flatMap (·.usedVariables)

def getUnusedDimensions (m : SymbolicMap) : List Bool :=
  (List.range m.numDims).map (· ∉ m.usedVariables)

def getUnusedSymbols (m : SymbolicMap) : List Bool :=
  (List.range m.numSymbols).map (m.numDims + · ∉ m.usedVariables)

-- Fails if a variable that is used is marked as unused.
def compressDims (m : SymbolicMap) (unusedDims : List Bool) : Option SymbolicMap :=
  if unusedDims.length ≠ m.numDims then
    none
  else if unusedDims.count true = 0 then
    some m
  else if ∃ i < m.numDims, unusedDims.getD i false ∧ ¬m.getUnusedDimensions.getD i false then
    none
  else
    let newNumDims := m.numDims - unusedDims.count true
    m.replaceDimsAndSymbols (compactReplacements none 0 unusedDims)
      (createVariableRange m.numSymbols newNumDims) newNumDims m.numSymbols

def compressSymbols (m : SymbolicMap) (unusedSymbols : List Bool) : Option SymbolicMap :=
  if unusedSymbols.length ≠ m.numSymbols then
    none
  else if unusedSymbols.count true = 0 then
    some m
  else if ∃ i < m.numSymbols, unusedSymbols.getD i false ∧ ¬m.getUnusedSymbols.getD i false then
    none
  else
    m.replaceDimsAndSymbols (createVariableRange m.numDims 0)
      (compactReplacements none m.numDims unusedSymbols) m.numDims
      (m.numSymbols - unusedSymbols.count true)

def compress (m : SymbolicMap) (unusedDims unusedSymbols : List Bool) : Option SymbolicMap :=
  (if unusedDims.count true > 0 then m.compressDims unusedDims else some m).bind fun m =>
    if unusedSymbols.count true > 0 then m.compressSymbols unusedSymbols else some m

end SymbolicMap

structure UsedParameters where
  dimensionIds : List Nat
  symbolIds    : List Nat

def getUsedParameters (expr : SymbolicExpr) (numDims : Nat) : UsedParameters where
  dimensionIds := expr.usedVariables.filter (· < numDims)
  symbolIds    := (expr.usedVariables.filter (numDims ≤ ·)).map (· - numDims)

structure UnusedVariables where
  unusedDims                    : List Bool
  unusedSymbols                 : List Bool
  constraintsWithUnusedVarsOnly : List SymbolicExpr
deriving DecidableEq

def isFunctionOfUnusedVarsOnly (used : UsedParameters) (unusedDims unusedSymbols : List Bool)
    (removingDims removingSymbols : Bool) : Bool :=
  (used.dimensionIds = [] ∨ removingDims) ∧ (used.symbolIds = [] ∨ removingSymbols) ∧
  (∀ id ∈ used.dimensionIds, unusedDims.getD id false) ∧
  (∀ id ∈ used.symbolIds, unusedSymbols.getD id false)

def clearBits (bits : List Bool) (ids : List Nat) : List Bool :=
  ids.foldl (fun bits id => bits.set id false) bits

namespace IndexingMap

-- The list of the candidates is the third component.
def markUsedVariables (numDims : Nat) (removingDims removingSymbols : Bool) (unused : UnusedVariables)
    (expr : SymbolicExpr) : UnusedVariables :=
  let used := getUsedParameters expr numDims
  if isFunctionOfUnusedVarsOnly used unused.unusedDims unused.unusedSymbols removingDims removingSymbols then
    { unused with constraintsWithUnusedVarsOnly := unused.constraintsWithUnusedVarsOnly ++ [expr] }
  else
    { unused with
      unusedDims    := clearBits unused.unusedDims used.dimensionIds
      unusedSymbols := clearBits unused.unusedSymbols used.symbolIds }

def detectUnusedVariables (m : IndexingMap) (removingDims removingSymbols : Bool) : UnusedVariables :=
  let numDims := m.symbolicMap.numDims
  let unused := (MapVector.keys m.constraints).foldl (markUsedVariables numDims removingDims removingSymbols)
    ⟨m.symbolicMap.getUnusedDimensions, m.symbolicMap.getUnusedSymbols, []⟩
  { unused with
    constraintsWithUnusedVarsOnly := unused.constraintsWithUnusedVarsOnly.filter fun expr =>
      isFunctionOfUnusedVarsOnly (getUsedParameters expr numDims) unused.unusedDims unused.unusedSymbols
        removingDims removingSymbols }

-- Replaces the variables of the constraints.
def updateConstraints (m : IndexingMap) (replacements : List (Option SymbolicExpr)) : Option IndexingMap :=
  let updated := m.constraints.filter fun c => c.1.replaceVariables replacements ≠ c.1
  let toAdd := updated.map fun c => (c.1.replaceVariables replacements, c.2)
  let toRemove := MapVector.keys updated
  { m with constraints := toRemove.foldl MapVector.erase m.constraints }.addConstraints toAdd

-- The symbols of the constraints are not replaced if only dimensions are removed.
def compressVars (m : IndexingMap) (unusedDims unusedSymbols : List Bool) : Option (Bool × IndexingMap) := do
  let numDimsChanged := unusedDims.count true > 0
  let numSymbolsChanged := unusedSymbols.count true > 0
  if ¬numDimsChanged ∧ ¬numSymbolsChanged then
    some (false, m)
  else
    let numDimsBefore := m.symbolicMap.numDims
    let numDimsAfter := numDimsBefore - unusedDims.count true
    let symbolicMap ← m.symbolicMap.compress unusedDims unusedSymbols
    let dimReplacements :=
      if numDimsChanged then compactReplacements (some (const 0)) 0 unusedDims
      else createVariableRange numDimsBefore 0
    let symbolReplacements :=
      if numSymbolsChanged then compactReplacements (some (const 0)) numDimsAfter unusedSymbols else []
    let rangeCount := m.rangeVars.length
    let m := { m with
      symbolicMap
      dimVars   := if numDimsChanged then keep unusedDims m.dimVars else m.dimVars
      rangeVars := if numSymbolsChanged then keep (unusedSymbols.take rangeCount) m.rangeVars
        else m.rangeVars
      rtVars    := if numSymbolsChanged then keep (unusedSymbols.drop rangeCount) m.rtVars
        else m.rtVars }
    let m ← m.updateConstraints (dimReplacements ++ symbolReplacements)
    some (true, m)

def eraseConstraints (m : IndexingMap) (exprs : List SymbolicExpr) : IndexingMap :=
  { m with constraints := exprs.foldl MapVector.erase m.constraints }

-- Returns the removed variables.
def removeUnusedSymbols (m : IndexingMap) : Option (List Bool × IndexingMap) := do
  if m.symbolicMap.numSymbols = 0 then
    some ([], m)
  else
    let unused := m.detectUnusedVariables false true
    let m := m.eraseConstraints unused.constraintsWithUnusedVarsOnly
    let (changed, m) ← m.compressVars [] unused.unusedSymbols
    some (if changed then unused.unusedSymbols else [], m)

def removeUnusedVars (m : IndexingMap) : Option (List Bool × IndexingMap) := do
  let unused := m.detectUnusedVariables true true
  let m := m.eraseConstraints unused.constraintsWithUnusedVarsOnly
  let (changed, m) ← m.compressVars unused.unusedDims unused.unusedSymbols
  some (if changed then unused.unusedDims ++ unused.unusedSymbols else [], m)

end IndexingMap
end Indexing
