import Mathlib.Tactic
import XlaModel.Symbolic.Expr

namespace Indexing

def kMin : Int := -2 ^ 63

def kMax : Int := 2 ^ 63 - 1

def overflows (v : Int) : Prop :=
  v < kMin ∨ kMax < v

instance : DecidablePred overflows :=
  fun _ => inferInstanceAs (Decidable (_ ∨ _))

-- The 64-bit value of an integer.
def wrap64 (v : Int) : Int :=
  (v + 9223372036854775808) % 18446744073709551616 - 9223372036854775808

-- The closed interval of the integers between `lower` and `upper`.
structure Interval where
  lower : Int
  upper : Int
deriving DecidableEq

namespace Interval

instance : Membership Int Interval where
  mem i v := i.lower ≤ v ∧ v ≤ i.upper

instance (v : Int) (i : Interval) : Decidable (v ∈ i) :=
  inferInstanceAs (Decidable (_ ∧ _))

def isPoint (i : Interval) : Bool :=
  i.lower = i.upper

def isFeasible (i : Interval) : Bool :=
  i.lower ≤ i.upper

-- Empty results are normalized.
def intersect (i₁ i₂ : Interval) : Interval :=
  let lower := max i₁.lower i₂.lower
  let upper := min i₁.upper i₂.upper
  if upper < lower then ⟨lower, lower - 1⟩ else ⟨lower, upper⟩

def union (i₁ i₂ : Interval) : Interval :=
  ⟨min i₁.lower i₂.lower, max i₁.upper i₂.upper⟩

def contains (i₁ i₂ : Interval) : Bool :=
  i₁.intersect i₂ = i₂

-- Bounds of the minimum or the maximum value are considered to be saturated.
def add (i₁ i₂ : Interval) : Interval :=
  let out : Interval := ⟨i₁.lower + i₂.lower, i₁.upper + i₂.upper⟩
  let out : Interval :=
    if overflows (i₁.lower + i₂.lower) ∨ i₁.lower = kMin ∨ i₂.lower = kMin then
      if i₁.lower < 0 ∨ i₂.lower < 0 then ⟨kMin, out.upper⟩ else ⟨kMax, kMax⟩
    else
      out
  if overflows (i₁.upper + i₂.upper) ∨ i₁.upper = kMax ∨ i₂.upper = kMax then
    if i₁.upper > 0 ∨ i₂.upper > 0 then ⟨out.lower, kMax⟩ else ⟨kMin, kMin⟩
  else
    out

def mulConst (i : Interval) (p : Int) : Interval :=
  let l := if p < 0 then i.upper else i.lower
  let u := if p < 0 then i.lower else i.upper
  ⟨if overflows (l * p) ∨ (p = -1 ∧ l = kMax) then kMin else l * p,
   if overflows (u * p) then kMax else u * p⟩

def mul (i₁ i₂ : Interval) : Interval :=
  (i₁.mulConst i₂.lower).union (i₁.mulConst i₂.upper)

def neg (i : Interval) : Interval :=
  ⟨if i.upper = kMax then kMin else -i.upper, if i.lower = kMin then kMax else -i.lower⟩

def sub (i₁ i₂ : Interval) : Interval :=
  i₁.add i₂.neg

def saturateDiv (lhs rhs : Int) : Int :=
  if lhs = kMin then
    if rhs > 0 then kMin else kMax
  else if lhs = kMax then
    if rhs > 0 then kMax else kMin
  else
    lhs.fdiv rhs

def floorDiv (i : Interval) (rhs : Int) : Interval :=
  let a := saturateDiv i.lower rhs
  let b := saturateDiv i.upper rhs
  ⟨Min.min a b, Max.max a b⟩

def min (i₁ i₂ : Interval) : Interval :=
  ⟨Min.min i₁.lower i₂.lower, Min.min i₁.upper i₂.upper⟩

def max (i₁ i₂ : Interval) : Interval :=
  ⟨Max.max i₁.lower i₂.lower, Max.max i₁.upper i₂.upper⟩

section Comparison

-- The comparisons are `none` if the result is not known.
def gt (i₁ i₂ : Interval) : Option Bool :=
  if ¬i₁.isFeasible ∨ ¬i₂.isFeasible then
    none
  else if i₁.lower > i₂.upper then
    some true
  else if i₁.upper ≤ i₂.lower then
    some false
  else
    none

def lt (i₁ i₂ : Interval) : Option Bool :=
  i₂.gt i₁

def ge (i₁ i₂ : Interval) : Option Bool :=
  (i₂.gt i₁).map not

def le (i₁ i₂ : Interval) : Option Bool :=
  (i₁.gt i₂).map not

def eq (i₁ i₂ : Interval) : Option Bool :=
  let intersection := i₁.intersect i₂
  if ¬intersection.isFeasible then
    some false
  else if intersection.isPoint ∧ i₁.isPoint ∧ i₂.isPoint then
    some true
  else
    none

def ne (i₁ i₂ : Interval) : Option Bool :=
  (i₁.eq i₂).map not

end Comparison

end Interval
end Indexing

namespace Indexing

open Symbolic

-- The first `numDims` variables of the expressions are the dimensions, the next `numSymbols`
-- variables are the symbols.
structure SymbolicMap where
  numDims    : Nat
  numSymbols : Nat
  exprs      : List SymbolicExpr
deriving DecidableEq

-- The symbols are packed as range variables followed by runtime variables. The variables are given by
-- their bounds. The constraints are in the order of their insertion.
structure IndexingMap where
  symbolicMap  : SymbolicMap
  dimVars      : List Interval
  rangeVars    : List Interval
  rtVars       : List Interval
  constraints  : List (SymbolicExpr × Interval)
  isKnownEmpty : Bool
deriving DecidableEq

namespace IndexingMap

def getDimensionBound (m : IndexingMap) (id : Nat) : Option Interval :=
  m.dimVars[id]?

def getSymbolBound (m : IndexingMap) (id : Nat) : Option Interval :=
  if id < m.rangeVars.length then m.rangeVars[id]? else m.rtVars[id - m.rangeVars.length]?

def variableBound (m : IndexingMap) (id : Nat) : Option Interval :=
  if id < m.symbolicMap.numDims then
    m.getDimensionBound id
  else
    m.getSymbolBound (id - m.symbolicMap.numDims)

end IndexingMap
end Indexing

namespace Indexing.IndexingMap

open Symbolic SymbolicExpr

-- The range of a binary operation. The result is `none` if a check fails.
def computeOpRange (op : BinaryOp) (lhs rhs : Interval) : Option Interval :=
  match op with
  | .add => some (lhs.add rhs)
  | .mul => some (lhs.mul rhs)
  | .min => some (lhs.min rhs)
  | .max => some (lhs.max rhs)
  | .mod =>
    if rhs.isPoint then
      let m := rhs.lower
      some (if 0 ≤ lhs.lower ∧ lhs.upper < m then lhs else ⟨0, m - 1⟩)
    else
      none
  | .floorDiv =>
    if rhs.isPoint ∧ rhs.lower ≠ 0 then
      let a := lhs.lower.fdiv rhs.lower
      let b := lhs.upper.fdiv rhs.lower
      some ⟨min a b, max a b⟩
    else
      none
  | .ceilDiv => none

def computeExpressionRange (m : IndexingMap) (useConstraints : Bool) : SymbolicExpr → Option Interval
  | const v       => some ⟨v, v⟩
  | var id        => m.variableBound id
  | binary op l r => do
    let lhs ← m.computeExpressionRange useConstraints l
    let rhs ← m.computeExpressionRange useConstraints r
    let result ← computeOpRange op lhs rhs
    if useConstraints then
      match m.constraints.lookup (binary op l r) with
      | some range => some (result.intersect range)
      | none       => some result
    else
      some result

end Indexing.IndexingMap
