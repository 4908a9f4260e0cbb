import Mathlib.Data.List.Sort
import XlaModel.Symbolic.Expr

namespace Symbolic

open SymbolicExpr

abbrev Terms := List (SymbolicExpr × Int)

-- The terms are stored in a hash map, whose iteration order is unspecified.
structure IterationOrder where
  order : Terms → Terms
  perm  : ∀ m, (order m).Perm m

namespace SymbolicExpr

def getBaseAndCoeff : SymbolicExpr → SymbolicExpr × Int
  | binary .mul l (const c) => (l.getBaseAndCoeff.1, l.getBaseAndCoeff.2 * c)
  | e                       => (e, 1)

def extractTerms : SymbolicExpr → Terms
  | binary .add l r => l.extractTerms ++ r.extractTerms
  | e               => [e.getBaseAndCoeff]

def getLargestKnownDivisor : SymbolicExpr → Nat
  | var _                            => 1
  | const v                          => v.natAbs
  | binary .mul l r                  => l.getLargestKnownDivisor * r.getLargestKnownDivisor
  | binary .floorDiv l r             => quotient l.getLargestKnownDivisor r
  | binary .ceilDiv l r              => quotient l.getLargestKnownDivisor r
  | binary .add l r                  => l.getLargestKnownDivisor.gcd r.getLargestKnownDivisor
  | binary .mod l r                  => l.getLargestKnownDivisor.gcd r.getLargestKnownDivisor
  | binary .min l r                  => l.getLargestKnownDivisor.gcd r.getLargestKnownDivisor
  | binary .max l r                  => l.getLargestKnownDivisor.gcd r.getLargestKnownDivisor
where
  quotient (largest : Nat) : SymbolicExpr → Nat
    | const d => if d ≠ 0 ∧ largest % d.natAbs = 0 then largest / d.natAbs else 1
    | _       => 1

def isMultipleOf (e : SymbolicExpr) (factor : Int) : Bool :=
  e.getLargestKnownDivisor % factor.natAbs = 0

end SymbolicExpr

namespace Terms

def sort (ts : Terms) : Terms :=
  ts.insertionSort fun a b => ¬b.1.lt a.1

-- Adds up the coefficients of adjacent terms with the same base.
def merge : Terms → Terms
  | []           => []
  | (b, c) :: ts =>
    match merge ts with
    | (b', c') :: ts' => if b' = b then (b, c + c') :: ts' else (b, c) :: (b', c') :: ts'
    | []              => [(b, c)]

def find (m : Terms) (base : SymbolicExpr) : Option Int :=
  m.lookup base

def set (m : Terms) (base : SymbolicExpr) (value : Int) : Terms :=
  m.map fun t => if t.1 = base then (base, value) else t

-- `term_map[base] += coeff`.
def addTo (m : Terms) (base : SymbolicExpr) (coeff : Int) : Terms :=
  match m.find base with
  | some v => m.set base (v + coeff)
  | none   => m ++ [(base, coeff)]

-- Separates the constant from the other terms and drops the terms that cancel out.
def collect : Terms → (constVal : Int) → (termMap : Terms) → Int × Terms
  | [],           constVal, m => (constVal, m)
  | (b, c) :: ts, constVal, m =>
    if c = 0 then
      collect ts constVal m
    else
      match b with
      | const v => collect ts (constVal + v * c) m
      | b       => collect ts constVal (m.addTo b c)

end Terms

section Canonicalize

-- The recursive calls of `Canonicalize`. The result is `none` if a check fails.
variable (o : IterationOrder) (rec : SymbolicExpr → Option SymbolicExpr)

structure Combined where
  termMap : Terms
  exprs   : List SymbolicExpr
  changed : Bool

def combineFloorDivAndMod : (bases : List SymbolicExpr) → Combined → Option Combined
  | [],            s => some s
  | base :: bases, s =>
    match base, s.termMap.find base with
    | binary .floorDiv x (const c), some value =>
      if value ≠ 0 ∧ c > 0 ∧ value.tmod c = 0 then do
        let y := value.tdiv c
        let modExpr ← rec <| x.mod (const c)
        if s.termMap.find modExpr = some y then
          let expr ← rec <| x.mul (const y)
          combineFloorDivAndMod bases {
            termMap := s.termMap.set base 0 |>.set modExpr 0
            exprs   := s.exprs ++ [expr]
            changed := true
          }
        else
          combineFloorDivAndMod bases s
      else
        combineFloorDivAndMod bases s
    | _, _ => combineFloorDivAndMod bases s

def scaleTerms : Terms → Option (List SymbolicExpr)
  | []           => some []
  | (t, c) :: ts =>
    if c ≠ 0 then do
      let expr ← rec <| t.mul (const c)
      let exprs ← scaleTerms ts
      some (expr :: exprs)
    else
      scaleTerms ts

def constructExprsCombiningFloorDivAndMod (termMap : Terms) : Option (List SymbolicExpr × Bool) := do
  let s ← combineFloorDivAndMod rec (termMap.map (·.1)) ⟨termMap, [], false⟩
  let exprs ← scaleTerms rec s.termMap
  some (s.exprs ++ exprs, s.changed)

def sumExprs (exprs : List SymbolicExpr) : SymbolicExpr :=
  match exprs.insertionSort fun a b => ¬b.lt a with
  | []            => const 0
  | expr :: exprs => exprs.foldl add expr

def canonicalizeAdd (lhs rhs : SymbolicExpr) : Option SymbolicExpr := do
  let terms : Terms := lhs.extractTerms ++ rhs.extractTerms
  let (constVal, termMap) := terms.sort.merge.collect 0 []
  let (exprs, changed) ← constructExprsCombiningFloorDivAndMod rec (o.order termMap)
  let exprs := if constVal ≠ 0 then exprs ++ [const constVal] else exprs
  if changed then rec (sumExprs exprs) else some (sumExprs exprs)

def canonicalizeMul (lhs rhs : SymbolicExpr) : Option SymbolicExpr :=
  match rhs.constValue? >>= lhs.trySimplifyMulByConstantRhs with
  | some simplified =>
    if simplified.isConst ∨ simplified = lhs then some simplified else rec simplified
  | none =>
    match lhs, rhs with
    | binary .mul x (const c), rhs => rec <| (x.mul rhs).mul (const c)
    | binary .add a b,         rhs => rec <| (a.mul rhs).add (b.mul rhs)
    | lhs, binary .add a b         => rec <| (lhs.mul a).add (lhs.mul b)
    | lhs, rhs                     => some <| createBinaryOp .mul lhs rhs

def neg (e : SymbolicExpr) : Option SymbolicExpr :=
  rec <| e.mul (const (-1))

def subtractAndGetConstDiff (lhs rhs : SymbolicExpr) : Option (Option Int) := do
  let negated ← neg rec rhs
  let diff ← rec <| lhs.add negated
  some diff.constValue?

def canonicalizeMin (lhs rhs : SymbolicExpr) : Option SymbolicExpr := do
  match ← subtractAndGetConstDiff rec lhs rhs with
  | some diff => some <| if diff ≤ 0 then lhs else rhs
  | none      => some <| createBinaryOp .min lhs rhs

def canonicalizeMax (lhs rhs : SymbolicExpr) : Option SymbolicExpr := do
  match ← subtractAndGetConstDiff rec lhs rhs with
  | some diff => some <| if diff ≥ 0 then lhs else rhs
  | none      => some <| createBinaryOp .max lhs rhs

-- The inner option is the null expression that is returned if the rule does not apply.
def trySimplifyDivModByGcd (op : BinaryOp) (lhs : SymbolicExpr) (divisor : Int) :
    Option (Option SymbolicExpr) :=
  match lhs with
  | binary .mul a (const c) =>
    let gcd : Nat := c.natAbs.gcd divisor.natAbs
    if gcd ≤ 1 then
      some none
    else
      let newLhs := a.mul (const (c.tdiv gcd))
      let newDivisor := const (divisor.tdiv gcd)
      match op with
      | .floorDiv => some <$> rec (newLhs.floorDiv newDivisor)
      | .ceilDiv  => some <$> rec (newLhs.ceilDiv newDivisor)
      | .mod      => some <$> rec ((newLhs.mod newDivisor).mul (const gcd))
      | _         => none
  | _ => some none

def simplifyModAddOperand (a b : SymbolicExpr) (div : Int) : Option (Option SymbolicExpr) :=
  if a.isMultipleOf div then
    some <$> rec (b.mod (const div))
  else if b.isMultipleOf div then
    some <$> rec (a.mod (const div))
  else
    some none

def simplifyFloorDivAddOperand (a b : SymbolicExpr) (div : Int) : Option (Option SymbolicExpr) :=
  match a with
  | binary .mul x (const c) => simplify x c
  | const c                 => simplify (const 1) c
  | _                       => some none
where
  simplify (remaining : SymbolicExpr) (coeff : Int) : Option (Option SymbolicExpr) :=
    if coeff.tmod div ≠ 0 then
      some none
    else
      some <$> rec ((remaining.mul (const (coeff.tdiv div))).add (b.floorDiv (const div)))

def canonicalizeFloorDiv (lhs rhs : SymbolicExpr) : Option SymbolicExpr :=
  if lhs = const 0 then
    some lhs
  else
    match rhs with
    | const divisor =>
      if divisor = 0 then
        none
      else if divisor = 1 then
        some lhs
      else if divisor = -1 then
        neg rec lhs
      else do
        if let some e ← trySimplifyDivModByGcd rec .floorDiv lhs divisor then
          return e
        if let binary .add a b := lhs then
          if let some e ← simplifyFloorDivAddOperand rec a b divisor then
            return e
          if let some e ← simplifyFloorDivAddOperand rec b a divisor then
            return e
        some <| createBinaryOp .floorDiv lhs (const divisor)
    | rhs => some <| createBinaryOp .floorDiv lhs rhs

def canonicalizeCeilDiv (lhs rhs : SymbolicExpr) : Option SymbolicExpr :=
  if lhs = const 0 then
    some lhs
  else
    match rhs with
    | const divisor =>
      if divisor = 0 then
        none
      else if divisor = 1 then
        some lhs
      else if divisor = -1 then
        neg rec lhs
      else do
        if let some e ← trySimplifyDivModByGcd rec .ceilDiv lhs divisor then
          return e
        if divisor > 0 then
          let sum ← rec <| (lhs.add (const divisor)).add (const (-1))
          rec <| sum.floorDiv (const divisor)
        else
          let negated ← neg rec <| lhs.floorDiv (const (-divisor))
          rec negated
    | rhs => some <| createBinaryOp .ceilDiv lhs rhs

def canonicalizeMod (lhs rhs : SymbolicExpr) : Option SymbolicExpr :=
  if lhs = const 0 then
    some lhs
  else if lhs = rhs then
    some (const 0)
  else
    match rhs with
    | const divisor =>
      if divisor = 0 then
        none
      else if divisor = 1 ∨ divisor = -1 then
        some (const 0)
      else if lhs.isMultipleOf divisor then
        some (const 0)
      else do
        if let some e ← trySimplifyDivModByGcd rec .mod lhs divisor then
          return e
        match lhs with
        | binary .mod x (const inner) =>
          if inner.tmod divisor = 0 then
            rec <| x.mod (const divisor)
          else
            some <| createBinaryOp .mod lhs (const divisor)
        | binary .add a b =>
          if let some e ← simplifyModAddOperand rec a b divisor then
            return e
          some <| createBinaryOp .mod lhs (const divisor)
        | lhs => some <| createBinaryOp .mod lhs (const divisor)
    | rhs => some <| createBinaryOp .mod lhs rhs

def canonicalizeByType (op : BinaryOp) (lhs rhs : SymbolicExpr) : Option SymbolicExpr :=
  match op with
  | .add      => canonicalizeAdd o rec lhs rhs
  | .mul      => canonicalizeMul rec lhs rhs
  | .min      => canonicalizeMin rec lhs rhs
  | .max      => canonicalizeMax rec lhs rhs
  | .floorDiv => canonicalizeFloorDiv rec lhs rhs
  | .ceilDiv  => canonicalizeCeilDiv rec lhs rhs
  | .mod      => canonicalizeMod rec lhs rhs

-- Two constants are folded, unless the divisor is zero.
def canonicalizeOp (op : BinaryOp) (lhs rhs : SymbolicExpr) : Option SymbolicExpr :=
  match lhs, rhs with
  | const a, const b => if op.isDivision ∧ b = 0 then none else some <| const (op.eval a b)
  | lhs, rhs         =>
    if op.isCommutative ∧ rhs.lt lhs then
      canonicalizeByType o rec op rhs lhs
    else
      canonicalizeByType o rec op lhs rhs

end Canonicalize

-- The recursion of the source is not structural, so it is bounded by `fuel`.
def canonicalize (o : IterationOrder) : (fuel : Nat) → SymbolicExpr → Option SymbolicExpr
  | 0,        _             => none
  | _ + 1,    var id        => some (var id)
  | _ + 1,    const v       => some (const v)
  | fuel + 1, binary op l r => do
    let lhs ← canonicalize o fuel l
    let rhs ← canonicalize o fuel r
    canonicalizeOp o (canonicalize o fuel) op lhs rhs

end Symbolic
