import Mathlib.Algebra.Order.Group.Unbundled.Int
import Mathlib.Data.Int.DivMod
import Mathlib.Tactic

namespace Symbolic

inductive BinaryOp
  | add
  | mul
  | mod
  | floorDiv
  | ceilDiv
  | max
  | min
deriving DecidableEq

-- The types are ordered as in the enumeration of the source: variables and constants come last.
def BinaryOp.type : BinaryOp → Nat
  | add      => 0
  | mul      => 1
  | mod      => 2
  | floorDiv => 3
  | ceilDiv  => 4
  | max      => 5
  | min      => 6

def BinaryOp.isCommutative : BinaryOp → Bool
  | add | mul | max | min    => true
  | mod | floorDiv | ceilDiv => false

def BinaryOp.isDivision : BinaryOp → Bool
  | mod | floorDiv | ceilDiv => true
  | add | mul | max | min    => false

inductive SymbolicExpr
  | var (id : Nat)
  | const (value : Int)
  | binary (op : BinaryOp) (lhs rhs : SymbolicExpr)
deriving DecidableEq

-- The integer division of the source truncates, the result is made non-negative by the second
-- division.
def modulo (a b : Int) : Int :=
  (a.tmod b + |b|).tmod b

def divideCeil (a b : Int) : Int :=
  -(-a).fdiv b

def BinaryOp.eval : BinaryOp → Int → Int → Int
  | add,      a, b => a + b
  | mul,      a, b => a * b
  | mod,      a, b => modulo a b
  | floorDiv, a, b => a.fdiv b
  | ceilDiv,  a, b => divideCeil a b
  | max,      a, b => Max.max a b
  | min,      a, b => Min.min a b

namespace SymbolicExpr

def type : SymbolicExpr → Nat
  | binary op _ _ => op.type
  | var _         => 7
  | const _       => 8

def isConst : SymbolicExpr → Bool
  | const _ => true
  | _       => false

def constValue? : SymbolicExpr → Option Int
  | const v => some v
  | _       => none

-- The value of an expression in an environment. The divisions are only meaningful for environments
-- in which the expression is `Defined`.
def eval (ρ : Nat → Int) : SymbolicExpr → Int
  | var id        => ρ id
  | const v       => v
  | binary op l r => op.eval (l.eval ρ) (r.eval ρ)

-- No divisor evaluates to zero.
def Defined (ρ : Nat → Int) : SymbolicExpr → Prop
  | var _         => True
  | const _       => True
  | binary op l r => l.Defined ρ ∧ r.Defined ρ ∧ (op.isDivision → r.eval ρ ≠ 0)

-- The moduli and the divisors of floor divisions are positive constants.
def PositiveDivisors : SymbolicExpr → Prop
  | var _         => True
  | const _       => True
  | binary op l r =>
    l.PositiveDivisors ∧ r.PositiveDivisors ∧ (op = .mod ∨ op = .floorDiv → ∃ c > 0, r = const c)

def lt : SymbolicExpr → SymbolicExpr → Bool
  | var a,         var b            => a < b
  | const a,       const b          => a < b
  | binary o l₁ r₁, binary o' l₂ r₂ =>
    if o ≠ o' then o.type < o'.type else if l₁ ≠ l₂ then l₁.lt l₂ else r₁.lt r₂
  | a,             b                => a.type < b.type

-- `CreateSymbolicBinaryOp` for a multiplication whose right-hand side is a constant.
def mulConst : SymbolicExpr → Int → SymbolicExpr
  | const v,       c => const (v * c)
  | var id,        c => if c = 0 then const 0 else if c = 1 then var id else binary .mul (var id) (const c)
  | binary op l r, c =>
    if c = 0 then
      const 0
    else if c = 1 then
      binary op l r
    else
      match op, r with
      | .mul, const c₁ => l.mulConst (c₁ * c)
      | _,    _        => binary .mul (binary op l r) (const c)

def trySimplifyMulByConstantRhs (lhs : SymbolicExpr) (c : Int) : Option SymbolicExpr :=
  if c = 0 then
    some (const 0)
  else if c = 1 then
    some lhs
  else
    match lhs with
    | binary .mul l (const c₁) => some <| l.mulConst (c₁ * c)
    | _                        => none

-- Constants are moved to the right-hand side of commutative operations. The divisor of two constants
-- is not zero, if the expression is defined.
def createBinaryOp (op : BinaryOp) (lhs rhs : SymbolicExpr) : SymbolicExpr :=
  let (lhs, rhs) := if op.isCommutative ∧ lhs.isConst then (rhs, lhs) else (lhs, rhs)
  match op, lhs, rhs with
  | .add, lhs,     const 0 => lhs
  | .mul, lhs,     const c => lhs.mulConst c
  | op,   const a, const b => const (op.eval a b)
  | op,   lhs,     rhs     => binary op lhs rhs

def add (lhs rhs : SymbolicExpr) : SymbolicExpr :=
  createBinaryOp .add lhs rhs

def mul (lhs rhs : SymbolicExpr) : SymbolicExpr :=
  createBinaryOp .mul lhs rhs

def mod (lhs rhs : SymbolicExpr) : SymbolicExpr :=
  match rhs with
  | const c => if |c| = 1 then const 0 else createBinaryOp .mod lhs (const c)
  | rhs     => createBinaryOp .mod lhs rhs

def floorDiv (lhs rhs : SymbolicExpr) : SymbolicExpr :=
  if rhs = const 1 then lhs else createBinaryOp .floorDiv lhs rhs

def ceilDiv (lhs rhs : SymbolicExpr) : SymbolicExpr :=
  if rhs = const 1 then lhs else createBinaryOp .ceilDiv lhs rhs

end SymbolicExpr
end Symbolic

namespace Symbolic.SymbolicExpr

-- A null expression in the list leaves the variable as it is.
def replaceVariables (substitutions : List (Option SymbolicExpr)) : SymbolicExpr → SymbolicExpr
  | const v       => const v
  | var id        => substitutions[id]?.join.getD (var id)
  | binary op l r =>
    let newLhs := l.replaceVariables substitutions
    let newRhs := r.replaceVariables substitutions
    if newLhs = l ∧ newRhs = r then binary op l r else createBinaryOp op newLhs newRhs

def replace (replacements : List (SymbolicExpr × SymbolicExpr)) : SymbolicExpr → SymbolicExpr
  | const v       => (replacements.lookup (const v)).getD (const v)
  | var id        => (replacements.lookup (var id)).getD (var id)
  | binary op l r =>
    match replacements.lookup (binary op l r) with
    | some e => e
    | none   =>
      let newLhs := l.replace replacements
      let newRhs := r.replace replacements
      if newLhs = l ∧ newRhs = r then binary op l r else createBinaryOp op newLhs newRhs

def usedVariables : SymbolicExpr → List Nat
  | const _       => []
  | var id        => [id]
  | binary _ l r => l.usedVariables ++ r.usedVariables

end Symbolic.SymbolicExpr
