import XlaModel.Indexing.Simplifier

-- The simplifier with the reason why it does not return.
namespace Indexing

open Symbolic

-- A check fails or the fuel does not suffice, or the source divides by zero.
inductive Fault
  | call
  | divisionByZero
deriving DecidableEq

instance : MonadFault (Except Fault) where
  divisionByZero := .error .divisionByZero
  returned
    | some a => .ok a
    | none   => .error .call

namespace IndexingMap

def expressionRange (m : IndexingMap) (useConstraints : Bool) (expr : SymbolicExpr) : Except Fault Interval :=
  returned (m.computeExpressionRange useConstraints expr)

end IndexingMap
end Indexing
