import XlaModel.Symbolic.Canonicalize

namespace Symbolic

def int64Min : Int :=
  -9223372036854775808

def int64Max : Int :=
  9223372036854775807

def Fits (v : Int) : Prop :=
  int64Min ≤ v ∧ v ≤ int64Max

instance : DecidablePred Fits :=
  fun _ => inferInstanceAs (Decidable (_ ∧ _))

def checked (v : Int) : Option Int :=
  if Fits v then some v else none

-- The operations of `Evaluate`. A result of `none` is a failed check or undefined, which is the case for
-- signed overflow and for divisions by zero.
def BinaryOp.evaluate : BinaryOp → Int → Int → Option Int
  | add,      a, b => checked (a + b)
  | mul,      a, b => checked (a * b)
  | floorDiv, a, b => if b = 0 then none else checked (a.fdiv b)
  | ceilDiv,  a, b => if b = 0 then none else checked (divideCeil a b)
  | max,      a, b => some (Max.max a b)
  | min,      a, b => some (Min.min a b)
  | mod,      a, b =>
    if b = 0 then
      none
    else do
      let _ ← checked (a.tdiv b)
      let abs ← checked |b|
      let sum ← checked (a.tmod b + abs)
      return sum.tmod b

def divisionIsUndefined (a b : Int) : Prop :=
  b = 0 ∨ (a = int64Min ∧ b = -1)

instance (a b : Int) : Decidable (divisionIsUndefined a b) :=
  inferInstanceAs (Decidable (_ ∨ _))

-- The operations of `SafeEvaluateSymbolicExpr`.
def BinaryOp.safeEvaluate : BinaryOp → Int → Int → Option Int
  | add,      a, b => checked (a + b)
  | mul,      a, b => checked (a * b)
  | floorDiv, a, b => if divisionIsUndefined a b then none else some (a.fdiv b)
  | ceilDiv,  a, b => if divisionIsUndefined a b then none else some (divideCeil a b)
  | mod,      a, b => if b ≤ 0 then none else some (a.emod b)
  | max,      a, b => some (Max.max a b)
  | min,      a, b => some (Min.min a b)

namespace SymbolicExpr

def evaluate (variableValues : List Int) : SymbolicExpr → Option Int
  | const v       => some v
  | var id        => variableValues[id]?
  | binary op l r => do op.evaluate (← l.evaluate variableValues) (← r.evaluate variableValues)

-- The variables are the dimensions followed by the symbols.
def safeEvaluate (dims syms : List Int) : SymbolicExpr → Option Int
  | const v       => some v
  | var id        => if dims.length ≤ id then syms[id - dims.length]? else dims[id]?
  | binary op l r => do op.safeEvaluate (← l.safeEvaluate dims syms) (← r.safeEvaluate dims syms)

-- `GetLargestKnownDivisor`, whose products are modulo 2^64.
def getLargestKnownDivisor64 : SymbolicExpr → Nat
  | var _                            => 1
  | const v                          => v.natAbs
  | binary .mul l r                  =>
    l.getLargestKnownDivisor64 * r.getLargestKnownDivisor64 % 18446744073709551616
  | binary .floorDiv l r             => getLargestKnownDivisor.quotient l.getLargestKnownDivisor64 r
  | binary .ceilDiv l r              => getLargestKnownDivisor.quotient l.getLargestKnownDivisor64 r
  | binary .add l r                  => l.getLargestKnownDivisor64.gcd r.getLargestKnownDivisor64
  | binary .mod l r                  => l.getLargestKnownDivisor64.gcd r.getLargestKnownDivisor64
  | binary .min l r                  => l.getLargestKnownDivisor64.gcd r.getLargestKnownDivisor64
  | binary .max l r                  => l.getLargestKnownDivisor64.gcd r.getLargestKnownDivisor64

def isMultipleOf64 (e : SymbolicExpr) (factor : Int) : Bool :=
  e.getLargestKnownDivisor64 % factor.natAbs = 0

end SymbolicExpr
end Symbolic
