import XlaModel.Indexing.Map
import XlaModel.Symbolic.Canonicalize

namespace Indexing

open Symbolic SymbolicExpr

inductive SimplifyPointDimensions
  | replace
  | preserve
deriving DecidableEq

-- The monads in which a computation can divide by zero or not return.
class MonadFault (M : Type → Type) where
  divisionByZero : {α : Type} → M α
  returned       : {α : Type} → Option α → M α

export MonadFault (divisionByZero returned)

instance : MonadFault Option where
  divisionByZero := none
  returned       := id

variable {M : Type → Type} [Monad M] [MonadFault M]

-- The division and the remainder of the source are undefined if the divisor is zero.
def quotient (a b : Int) : M Int :=
  if b = 0 then divisionByZero else pure (a.tdiv b)

def remainder (a b : Int) : M Int :=
  if b = 0 then divisionByZero else pure (a.tmod b)

def getLhs : SymbolicExpr → SymbolicExpr
  | binary _ l _ => l
  | e            => e

section Summands

variable {σ : Type}

-- The function that is mapped over the summands can modify a state of type `σ`.
def mapSummands (fn : σ → SymbolicExpr → M (σ × SymbolicExpr)) :
    σ → SymbolicExpr → M (σ × SymbolicExpr)
  | s, binary .add l r => do
    let (s, lhs) ← mapSummands fn s l
    let (s, rhs) ← mapSummands fn s r
    pure (s, if lhs = l ∧ rhs = r then binary .add l r else lhs.add rhs)
  | s, e => fn s e

def visitSummands (visit : σ → SymbolicExpr → M σ) : σ → SymbolicExpr → M σ
  | s, binary .add l r => do
    let s ← visitSummands visit s l
    visitSummands visit s r
  | s, e => visit s e

def scaleSummands (e : SymbolicExpr) (factor : Int) : M SymbolicExpr :=
  (·.2) <$> mapSummands (fun _ summand => pure ((), summand.mul (const factor))) () e

end Summands

section Simplifier

-- The rules do not return if a check of the range evaluator fails.
variable (range : SymbolicExpr → M Interval)

def getConstantRhs (expr : SymbolicExpr) (op : BinaryOp) : M (Option Int) :=
  match expr with
  | binary op' _ r =>
    if op' = op then do
      let bound ← range r
      pure (if bound.isPoint then some bound.lower else none)
    else
      pure none
  | _ => pure none

def extractMultiplier (expr : SymbolicExpr) : M (SymbolicExpr × Int) := do
  match ← getConstantRhs range expr .mul with
  | some mul => pure (getLhs expr, mul)
  | none     => pure (expr, 1)

section SplitSum

def multiplierGcd (sum : SymbolicExpr) : M (Option Int) :=
  visitSummands (fun gcd expr => do
    match ← getConstantRhs range expr .mul, gcd with
    | some multiplier, some gcd => pure (some (gcd.gcd multiplier))
    | some multiplier, none     => pure (some multiplier)
    | none,            gcd      => pure gcd) none sum

-- Splits a nested sum into `a * gcd + b`.
def splitSumByGcd (sum : SymbolicExpr) : M (SymbolicExpr × Int × SymbolicExpr) := do
  let gcd := (← multiplierGcd range sum).getD 1
  if gcd = 1 then
    pure (const 0, 1, sum)
  else
    let (noMultiplier, scaled) ← mapSummands (fun noMultiplier expr => do
      match ← getConstantRhs range expr .mul with
      | some multiplier =>
        let factor ← quotient multiplier gcd
        pure (noMultiplier, (getLhs expr).mul (const factor))
      | none => pure (noMultiplier.add expr, const 0)) (const 0) sum
    pure (scaled, gcd, noMultiplier)

end SplitSum

-- The recursive calls of `SimplifyOnce` and `Simplify`.
variable (simplifyOnce simplify : SymbolicExpr → M SymbolicExpr)

section Mod

-- Removes the summands that are multiples of `m` and reduces the constant summands.
def removeMultiples (lhs : SymbolicExpr) (m : Int) : M SymbolicExpr := do
  let (extractedConstant, newLhs) ← mapSummands (fun extractedConstant expr =>
    match expr with
    | const v => pure (extractedConstant + v, const 0)
    | expr    => do
      match ← getConstantRhs range expr .mul with
      | some multiplier =>
        let rem ← remainder multiplier m
        pure (extractedConstant, if rem = 0 then const 0 else expr)
      | none => pure (extractedConstant, expr)) 0 lhs
  let rem := extractedConstant - extractedConstant.fdiv m * m
  pure (if rem ≠ 0 then newLhs.add (const rem) else newLhs)

def divideMultipliers (newLhs multiplied : SymbolicExpr) (multiplierGcd multiplierModGcd : Int) :
    M SymbolicExpr :=
  if multiplierModGcd = multiplierGcd then
    pure multiplied
  else if multiplierModGcd > 1 then
    scaleSummands multiplied (multiplierGcd.tdiv multiplierModGcd)
  else
    pure newLhs

-- Extracts a common factor of the multipliers from the modulus. The inner option is `none` if the rule
-- does not apply.
def extractModFactor (newLhs rhs : SymbolicExpr) (m : Int) : M (Option SymbolicExpr) := do
  let (multiplied, multiplierGcd, notMultiplied) ← splitSumByGcd range newLhs
  if multiplierGcd ≠ 1 then
    if (← remainder m multiplierGcd) = 0 then
      let notMultipliedRange ← range notMultiplied
      if notMultipliedRange = ⟨0, 0⟩ then
        let multiplierModGcd : Int := multiplierGcd.gcd m
        let newLhs ← divideMultipliers newLhs multiplied multiplierGcd multiplierModGcd
        return (newLhs.mod (const (m.tdiv multiplierModGcd))).mul (const multiplierModGcd)
      else if Interval.contains ⟨0, multiplierGcd - 1⟩ notMultipliedRange then
        return ((multiplied.mul (const multiplierGcd)).mod rhs).add notMultiplied
      else
        return none
    else
      return none
  else
    return none

def rewriteMod (l r : SymbolicExpr) : M SymbolicExpr := do
  let rhs ← range r
  if ¬rhs.isPoint then
    pure (binary .mod l r)
  else if rhs.lower = 0 then
    pure (const 0)
  else
    let m := rhs.lower
    let lhsSimplified ← simplifyOnce l
    let lhs ← range lhsSimplified
    let offset := lhs.lower.fdiv m * -m
    if lhs.upper + offset < m then
      pure (lhsSimplified.add (const offset))
    else
      match ← getConstantRhs range lhsSimplified .mul with
      | some mul =>
        if mul > 0 ∧ m.tmod mul = 0 then
          pure (((getLhs lhsSimplified).mod (const (m.tdiv mul))).mul (const mul))
        else
          rewriteModSum lhsSimplified m
      | none => rewriteModSum lhsSimplified m
where
  rewriteModSum (lhsSimplified : SymbolicExpr) (m : Int) : M SymbolicExpr := do
    let newLhs ← removeMultiples range lhsSimplified m
    match ← extractModFactor range newLhs r m with
    | some e => pure e
    | none   => pure (if newLhs = l then binary .mod l r else newLhs.mod (const m))

-- The branch of `RewriteMod` that adds an offset, with the 64-bit arithmetic of the source: the simplified
-- dividend, the modulus and the offset.
def rewriteModByOffset (l r : SymbolicExpr) : M (Option (SymbolicExpr × Int × Int)) := do
  let rhs ← range r
  if ¬rhs.isPoint then
    pure none
  else if rhs.lower = 0 then
    pure none
  else
    let m := rhs.lower
    let lhsSimplified ← simplifyOnce l
    let lhs ← range lhsSimplified
    let offset := wrap64 (lhs.lower.fdiv m * wrap64 (-m))
    if wrap64 (lhs.upper + offset) < m then pure (some (lhsSimplified, m, offset)) else pure none

end Mod

section FloorDiv

-- Rewrites `(c mod ab) floordiv a` to `(c floordiv a) mod b`.
def simplifyModDiv (dividend : SymbolicExpr) (divisor : Int) : M (Option SymbolicExpr) := do
  match ← getConstantRhs range dividend .mod with
  | some mod =>
    if (← remainder mod divisor) = 0 then
      return ((getLhs dividend).floorDiv (const divisor)).mod (const (mod.tdiv divisor))
    else
      return none
  | none => return none

-- Rewrites `a floordiv b floordiv c` to `a floordiv (b * c)`.
def simplifyDivDiv (dividend : SymbolicExpr) (divisor : Int) : M (Option SymbolicExpr) := do
  match ← getConstantRhs range dividend .floorDiv with
  | some innerDivisor => return (getLhs dividend).floorDiv (const (divisor * innerDivisor))
  | none              => return none

-- Moves the multiples of the divisor from the dividend to the extracted sum.
def extractMultiples (dividend : SymbolicExpr) (divisor : Int) :
    M (SymbolicExpr × SymbolicExpr) :=
  mapSummands (fun extracted expr => do
    match ← getConstantRhs range expr .mul with
    | some multiplier =>
      if (← remainder multiplier divisor) = 0 then
        pure (extracted.add ((getLhs expr).mul (const (multiplier.tdiv divisor))), const 0)
      else
        pure (extracted, expr)
    | none =>
      match expr with
      | const val =>
        if val ≥ divisor ∨ val ≤ -divisor then
          let count := val.fdiv divisor
          pure (extracted.add (const count), const (val - count * divisor))
        else
          pure (extracted, expr)
      | expr => pure (extracted, expr)) (const 0) dividend

-- Cancels a common factor of the multipliers and the divisor, if the summands without a multiplier do
-- not affect the result.
def cancelDivisorGcd (dividend : SymbolicExpr) (divisor : Int) : M (SymbolicExpr × Int) := do
  let (multiplied, multiplierGcd, notMultiplied) ← splitSumByGcd range dividend
  let multiplierDivisorGcd : Int := divisor.gcd multiplierGcd
  let noMultiplierRange ← range notMultiplied
  if multiplierDivisorGcd ≠ 1 ∧
      Interval.contains ⟨0, multiplierDivisorGcd - 1⟩ noMultiplierRange then
    pure (multiplied.mul (const (multiplierGcd.tdiv multiplierDivisorGcd)),
      divisor.tdiv multiplierDivisorGcd)
  else if noMultiplierRange.isPoint ∧ noMultiplierRange.lower ≠ 0 then
    let multiplierDivisorGcd : Int := noMultiplierRange.lower.gcd multiplierDivisorGcd
    if multiplierDivisorGcd ≠ 1 then
      pure ((multiplied.mul (const (multiplierGcd.tdiv multiplierDivisorGcd))).add
        (const (noMultiplierRange.lower.tdiv multiplierDivisorGcd)),
        divisor.tdiv multiplierDivisorGcd)
    else
      pure (dividend, divisor)
  else
    pure (dividend, divisor)

def innerDivisors (dividend : SymbolicExpr) : M (List Int) :=
  visitSummands (fun divisors summand => do
    match ← getConstantRhs range summand .floorDiv with
    | some divisor => pure (divisors ++ [divisor])
    | none         => pure divisors) [] dividend

-- Rewrites `(a0 floordiv c0 + ...) floordiv c1` to `(a0 + (...) * c0) floordiv (c0 * c1)`, if there is
-- only one inner division.
def mergeInnerDivision (dividend : SymbolicExpr) (divisor : Int) : M (SymbolicExpr × Int) := do
  match ← innerDivisors range dividend with
  | [innerDivisor] =>
    let (_, newDividend) ← mapSummands (fun _ summand => do
      match ← getConstantRhs range summand .floorDiv with
      | some _ => pure ((), getLhs summand)
      | none   => pure ((), summand.mul (const innerDivisor))) () dividend
    pure (newDividend, divisor * innerDivisor)
  | _ => pure (dividend, divisor)

def simplifySumDiv (dividend : SymbolicExpr) (divisor : Int) : M (Option SymbolicExpr) := do
  let (extracted, newDividend) ← extractMultiples range dividend divisor
  let (newDividend, divisor) ← cancelDivisorGcd range newDividend divisor
  let (newDividend, divisor) ← mergeInnerDivision range newDividend divisor
  if newDividend ≠ dividend then
    return (newDividend.floorDiv (const divisor)).add extracted
  else
    return none

def rewriteFloorDiv (l r : SymbolicExpr) : M SymbolicExpr := do
  let rhsRange ← range r
  let lhsSimplified ← simplifyOnce l
  if ¬rhsRange.isPoint then
    let rhsSimplified ← simplifyOnce r
    pure (lhsSimplified.floorDiv rhsSimplified)
  else
    let d := rhsRange.lower
    let unchanged := if lhsSimplified ≠ l then lhsSimplified.floorDiv (const d) else binary .floorDiv l r
    if d > 1 then
      if let some result ← simplifyModDiv range lhsSimplified d then
        return result
      if let some result ← simplifyDivDiv range lhsSimplified d then
        return result
      if let some result ← simplifySumDiv range lhsSimplified d then
        return result
      pure unchanged
    else
      pure unchanged

end FloorDiv

def rewriteMul (l r : SymbolicExpr) : M SymbolicExpr := do
  let rhsRange ← range r
  if ¬rhsRange.isPoint then
    pure (binary .mul l r)
  else
    let multiplier := rhsRange.lower
    let lhs ← simplifyOnce l
    match lhs with
    | binary .add a b => scaleSummands (binary .add a b) multiplier
    | lhs             =>
      if multiplier = 1 then
        pure lhs
      else if lhs = l then
        pure (binary .mul l r)
      else
        pure (lhs.mul (const multiplier))

section Sum

structure SumTerms where
  mods     : Terms
  divs     : Terms
  summands : Terms

def collectTerms (sum : SymbolicExpr) : M SumTerms :=
  visitSummands (fun terms expr => do
    let simplified ← simplifyOnce expr
    let (lhs, multiplier) ← extractMultiplier range simplified
    match lhs with
    | binary .mod _ _      => pure { terms with mods := terms.mods ++ [(lhs, multiplier)] }
    | binary .floorDiv _ _ => pure { terms with divs := terms.divs ++ [(lhs, multiplier)] }
    | _                    => pure { terms with summands := terms.summands.addTo lhs multiplier })
    ⟨[], [], []⟩ sum

-- Removes the first division with the multiplier `modMul * modC`. The inner option is `none` if there
-- is no such division.
def eraseDiv (simplifiedDiv : SymbolicExpr) (modMul modC : Int) : Terms → M (Option Terms)
  | []                    => pure none
  | (div, divMul) :: divs => do
    if simplifiedDiv ≠ div then
      let divs? ← eraseDiv simplifiedDiv modMul modC divs
      return divs?.map ((div, divMul) :: ·)
    else if (← remainder divMul modMul) ≠ 0 ∨ (← quotient divMul modMul) ≠ modC then
      let divs? ← eraseDiv simplifiedDiv modMul modC divs
      return divs?.map ((div, divMul) :: ·)
    else
      return some divs

-- Rewrites `(x mod c) * d + (x floordiv c) * (c * d)` to `x * d`.
def combineMods : (mods : Terms) → SumTerms → M SumTerms
  | [],                    terms => pure terms
  | (mod, modMul) :: mods, terms => do
    let kept := { terms with mods := terms.mods ++ [(mod, modMul)] }
    match ← getConstantRhs range mod .mod with
    | none      => combineMods mods kept
    | some modC =>
      let simplifiedDiv ← simplify ((getLhs mod).floorDiv (const modC))
      match ← eraseDiv simplifiedDiv modMul modC terms.divs with
      | none      => combineMods mods kept
      | some divs =>
        combineMods mods { terms with
          divs     := divs
          summands := terms.summands.addTo (getLhs mod) modMul
        }

-- Rewrites `(x - (x floordiv c) * c) * b` to `(x mod c) * b`, even if there is no `x` in the sum.
def expandDivs : (divs : Terms) → SumTerms → M SumTerms
  | [],                    terms => pure terms
  | (div, divMul) :: divs, terms => do
    let kept := { terms with divs := terms.divs ++ [(div, divMul)] }
    if divMul > 0 then
      expandDivs divs kept
    else
      match ← getConstantRhs range div .floorDiv with
      | none      => expandDivs divs kept
      | some divC =>
        if divC < 0 then
          expandDivs divs kept
        else if (← remainder divMul divC) ≠ 0 then
          expandDivs divs kept
        else
          let b := divMul.tdiv divC
          let x := getLhs div
          let summands ← visitSummands (fun summands summand => pure (Terms.addTo summands summand b))
            terms.summands x
          expandDivs divs { terms with
            mods     := terms.mods ++ [(x.mod (const divC), -b)]
            summands := summands
          }

def rewriteDivs (terms : SumTerms) : M SumTerms := do
  if terms.divs = [] then
    pure terms
  else
    let terms ← combineMods range simplify terms.mods { terms with mods := [] }
    expandDivs range terms.divs { terms with divs := [] }

def sumTerms (terms : SumTerms) : SymbolicExpr :=
  let summands := terms.mods.foldl (fun m t => m.addTo t.1 t.2) terms.summands
  let summands := terms.divs.foldl (fun m t => m.addTo t.1 t.2) summands
  let expanded := summands.map fun t => t.1.mul (const t.2)
  (expanded.insertionSort fun a b => ¬b.lt a).foldl add (const 0)

def rewriteSum (sum : SymbolicExpr) : M SymbolicExpr := do
  let terms ← collectTerms range simplifyOnce sum
  let terms ← rewriteDivs range simplify terms
  pure (sumTerms terms)

end Sum

def rewrite : SymbolicExpr → M SymbolicExpr
  | binary .mul l r      => rewriteMul range simplifyOnce l r
  | binary .add l r      => rewriteSum range simplifyOnce simplify (binary .add l r)
  | binary .mod l r      => rewriteMod range simplifyOnce l r
  | binary .floorDiv l r => rewriteFloorDiv range simplifyOnce l r
  | e                    => pure e

def simplifyOnceWith (mode : SimplifyPointDimensions) (expr : SymbolicExpr) : M SymbolicExpr :=
  match expr with
  | const v => pure (const v)
  | expr    => do
    if mode = .replace then
      let bounds ← range expr
      if bounds.isPoint then pure (const bounds.lower) else rewrite range simplifyOnce simplify expr
    else
      rewrite range simplifyOnce simplify expr

end Simplifier

section Recursion

variable (o : IterationOrder) (range : SymbolicExpr → M Interval) (mode : SimplifyPointDimensions)

-- The loop and the recursion of the source are bounded by `fuel`.
mutual

def simplifyOnce : (fuel : Nat) → SymbolicExpr → M SymbolicExpr
  | 0,        _    => returned none
  | fuel + 1, expr => simplifyOnceWith range (simplifyOnce fuel) (simplify fuel) mode expr

def simplify : (fuel : Nat) → SymbolicExpr → M SymbolicExpr
  | 0,        _    => returned none
  | fuel + 1, expr => do
    let canonical ← returned (canonicalize o fuel expr)
    let simplified ← simplifyOnce fuel canonical
    if simplified = canonical then pure canonical else simplify fuel simplified

end

end Recursion
end Indexing
