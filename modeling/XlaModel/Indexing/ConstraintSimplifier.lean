import XlaModel.Indexing.Simplifier
import XlaModel.Lib.MapVector
import XlaModel.Indexing.Map
import XlaModel.Symbolic.Expr

namespace Indexing

open Symbolic SymbolicExpr

-- The outer options are `none` if a check fails or a divisor is zero. The inner options are `none` if
-- the source returns `false`.
variable (range : SymbolicExpr → Option Interval)

-- Drops the summands without a multiplier, if the rounded bound does not depend on their value.
def dropNotMultiplied (add : SymbolicExpr) (i : Interval) :
    Option (Option (SymbolicExpr × Interval)) := do
  if i.lower ≠ 0 then
    return none
  else
    let (multiplied, multiplierGcd, notMultiplied) ← splitSumByGcd range add
    if multiplierGcd = 1 then
      return none
    else
      let notMultipliedRange ← range notMultiplied
      let difference := Interval.sub ⟨i.upper, i.upper⟩ notMultipliedRange
      if (difference.floorDiv multiplierGcd).isPoint then
        return (multiplied.mul (const multiplierGcd), i)
      else
        return none

def simplifyAddConstraint (add : SymbolicExpr) (i : Interval) :
    Option (Option (SymbolicExpr × Interval)) :=
  match add with
  | binary .add l r => do
    let rhs ← range r
    if rhs.isPoint then
      return some (l, ⟨wrap64 (i.lower - rhs.lower), wrap64 (i.upper - rhs.lower)⟩)
    else
      dropNotMultiplied range (binary .add l r) i
  | _ => some none

-- A negative factor or divisor is made positive by negating the range.
def negateRange (c : Int) (i : Interval) : Interval :=
  if c < 0 then ⟨wrap64 (-i.upper), wrap64 (-i.lower)⟩ else i

def negateConstant (c : Int) : Int :=
  if c < 0 then wrap64 (-c) else c

def simplifyMulConstraint (factor : Int) (i : Interval) : Option Interval :=
  if factor = 0 then
    none
  else
    let i := negateRange factor i
    let factor := negateConstant factor
    some ⟨divideCeil i.lower factor, i.upper.fdiv factor⟩

def simplifyFloorDivConstraint (divisor : Int) (i : Interval) : Interval :=
  let i := negateRange divisor i
  let divisor := negateConstant divisor
  ⟨wrap64 (i.lower * divisor), wrap64 ((i.upper + 1) * divisor - 1)⟩

def simplifyConstraintRangeOnce (expr : SymbolicExpr) (i : Interval) :
    Option (Option (SymbolicExpr × Interval)) :=
  match expr with
  | var _           => some none
  | const _         => some none
  | binary .add l r => simplifyAddConstraint range (binary .add l r) i
  | binary op l r   => do
    let rhs ← range r
    if ¬rhs.isPoint then
      return none
    else
      match op with
      | .mul      => return (l, ← simplifyMulConstraint rhs.lower i)
      | .floorDiv => return (l, simplifyFloorDivConstraint rhs.lower i)
      | _         => return none

-- The result tells if the constraint was simplified.
def simplifyConstraintRange : (fuel : Nat) → SymbolicExpr → Interval →
    Option (Bool × SymbolicExpr × Interval)
  | 0,        _,    _ => none
  | fuel + 1, expr, i => do
    match ← simplifyConstraintRangeOnce range expr i with
    | some (expr, i) =>
      let (_, result) ← simplifyConstraintRange fuel expr i
      some (true, result)
    | none => some (false, expr, i)

end Indexing

namespace Indexing

open Symbolic SymbolicExpr

-- The source divides by the least common multiple with truncation.
def Interval.round (i : Interval) (div res : Int) : Interval :=
  let l := wrap64 (i.lower.tdiv div * div + res)
  let h := wrap64 (i.upper.tdiv div * div + res)
  ⟨if l ≥ i.lower then l else wrap64 (l + div), if h ≤ i.upper then h else wrap64 (h - div)⟩

namespace IndexingMap

def setVariableBound (m : IndexingMap) (id : Nat) (i : Interval) : IndexingMap :=
  if id < m.symbolicMap.numDims then
    { m with dimVars := m.dimVars.set id i }
  else if id - m.symbolicMap.numDims < m.rangeVars.length then
    { m with rangeVars := m.rangeVars.set (id - m.symbolicMap.numDims) i }
  else
    { m with rtVars := m.rtVars.set (id - m.symbolicMap.numDims - m.rangeVars.length) i }

def pushLhs (groups : List (SymbolicExpr × List SymbolicExpr)) (c : SymbolicExpr × Interval) :
    List (SymbolicExpr × List SymbolicExpr) :=
  match c.1 with
  | binary .mod l r => MapVector.push groups l (binary .mod l r)
  | _               => groups

def groupByLhs (constraints : List (SymbolicExpr × Interval)) :
    List (SymbolicExpr × List SymbolicExpr) :=
  constraints.foldl pushLhs []

-- The binary operations are constraints of the map. Constraints without a known remainder are skipped.
def pushResidue (constraints : List (SymbolicExpr × Interval)) (groups : List (Int × List SymbolicExpr))
    (binop : SymbolicExpr) : Option (List (Int × List SymbolicExpr)) := do
  let modResult ← constraints.lookup binop
  some (if modResult.isPoint then MapVector.push groups modResult.lower binop else groups)

def groupByResidue (constraints : List (SymbolicExpr × Interval)) (binops : List SymbolicExpr) :
    Option (List (Int × List SymbolicExpr)) :=
  binops.foldlM (pushResidue constraints) []

-- The least common multiple is only defined if it is a 64-bit integer.
def lcmWithDivisor (m : IndexingMap) (div : Int) : SymbolicExpr → Option Int
  | binary _ _ r => do
    let rhs ← m.computeExpressionRange false r
    let lcm : Int := div.lcm rhs.lower
    if overflows lcm then none else some lcm
  | _ => none

def lcmOfDivisors (m : IndexingMap) (ops : List SymbolicExpr) : Option Int :=
  ops.foldlM m.lcmWithDivisor 1

-- Replaces multiple constraints with a merged one.
def mergeConstraints (m : IndexingMap) (lhs : SymbolicExpr) (div res : Int) (ops : List SymbolicExpr) :
    IndexingMap :=
  if ops.length > 1 then
    { m with
      constraints :=
        MapVector.set (ops.foldl MapVector.erase m.constraints) (lhs.mod (const div)) ⟨res, res⟩ }
  else
    m

-- The map and a flag that tells if it was simplified.
def mergeResidue (lhs : SymbolicExpr) (s : Bool × IndexingMap) (group : Int × List SymbolicExpr) :
    Option (Bool × IndexingMap) := do
  let div ← s.2.lcmOfDivisors group.2
  let m := s.2.mergeConstraints lhs div group.1 group.2
  let didSimplify := s.1 || group.2.length > 1
  match lhs with
  | var id =>
    let old ← m.variableBound id
    if div = 0 then
      none
    else
      let new := old.round div group.1
      some (didSimplify || new ≠ old, m.setVariableBound id new)
  | _ => some (didSimplify, m)

def mergeLhs (s : Bool × IndexingMap) (group : SymbolicExpr × List SymbolicExpr) :
    Option (Bool × IndexingMap) := do
  let modGroups ← groupByResidue s.2.constraints group.2
  modGroups.foldlM (mergeResidue group.1) s

def mergeModConstraints (m : IndexingMap) : Option (Bool × IndexingMap) :=
  (groupByLhs m.constraints).foldlM mergeLhs (false, m)

end IndexingMap
end Indexing

namespace Indexing

open Symbolic SymbolicExpr

namespace SymbolicMap

def replace (m : SymbolicMap) (expr replacement : SymbolicExpr) : SymbolicMap :=
  { m with exprs := m.exprs.map (·.replace [(expr, replacement)]) }

end SymbolicMap

-- The source divides by the scaling factor with truncation.
def Interval.rescale (i : Interval) (factor shift : Int) : Interval :=
  ⟨(wrap64 (i.lower - shift)).tdiv factor, (wrap64 (i.upper - shift)).tdiv factor⟩

structure Rescaling where
  toReplace : List (SymbolicExpr × SymbolicExpr)
  toDelete  : List SymbolicExpr
  map       : IndexingMap

namespace IndexingMap

def rescaleSymbol (s : Rescaling) (id : Nat) (factor shift : Int) : Option Rescaling := do
  let replacement := ((const factor).mul (var id)).add (const shift)
  let index := id - s.map.symbolicMap.numDims
  -- The vector of the range variables is also indexed if the symbol is a runtime variable.
  let bounds ← s.map.rangeVars[index]?
  some {
    toReplace := (var id, replacement) :: s.toReplace
    toDelete  := binary .mod (var id) (const factor) :: s.toDelete
    map       := { s.map with
      symbolicMap := s.map.symbolicMap.replace (var id) replacement
      rangeVars   := s.map.rangeVars.set index (bounds.rescale factor shift) }
  }

-- Non-positive divisors are not rescaled. If there are two constraints on a symbol which were not
-- merged, then only the first one is used.
def rescaleConstraint (s : Rescaling) (c : SymbolicExpr × Interval) : Option Rescaling :=
  match c with
  | (binary .mod (var id) (const factor), range) =>
    if range.isPoint ∧ 0 < factor ∧ s.map.symbolicMap.numDims ≤ id ∧ s.toReplace.lookup (var id) = none then
      rescaleSymbol s id factor range.lower
    else
      some s
  | _ => some s

def replaceConstraints (constraints : List (SymbolicExpr × Interval)) (s : Rescaling) :
    List (SymbolicExpr × Interval) :=
  constraints.foldl (fun new c =>
    if c.1 ∈ s.toDelete then new else MapVector.set new (c.1.replace s.toReplace) c.2) []

def rescaleSymbols (m : IndexingMap) : Option (Bool × IndexingMap) := do
  let (_, m) ← m.mergeModConstraints
  let s ← m.constraints.foldlM rescaleConstraint ⟨[], [], m⟩
  some (s.toDelete ≠ [], { s.map with constraints := replaceConstraints m.constraints s })

end IndexingMap
end Indexing
