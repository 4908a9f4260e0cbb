import XlaModel.Coordination.KeyValueStore
import XlaModel.Symbolic.Evaluate

namespace Symbolic

open Coordination Bytes

-- The operations that build expressions. The result is `none` if a check fails.
structure ExprBuilder (E : Type) where
  createConstant : Int → E
  createVariable : Int → E
  createBinaryOp : BinaryOp → E → E → Option E
  neg            : E → Option E

-- An error is reported for the part of the string that has not been parsed.
inductive ParseError
  | reported (message : String) (remaining : Bytes)
  | checkFailed
  | outOfFuel
deriving DecidableEq

abbrev Parsed := Except ParseError

namespace ExprParser

def isIdentifierCharacter (c : Char) : Bool :=
  c.isAlphanum || c = '_'

def skipWhitespace (s : Bytes) : Bytes :=
  s.dropWhile isSpace

def consumePrefix (word : String) (s : Bytes) : Option Bytes :=
  s.dropPrefix? word.toList

-- Parses a decimal number that fits into an `int64_t`.
def simpleAtoi (s : Bytes) : Option Int := do
  checked (← signed (strip s))

-- A sign or a digit that is followed by digits.
def numberPrefix : Bytes → Bytes
  | c :: s => if c.isDigit ∨ c = '-' then c :: s.takeWhile Char.isDigit else []
  | []     => []

def parseNumber (s : Bytes) : Option (Int × Bytes) :=
  let text := numberPrefix s
  if text = [] then none else (simpleAtoi text).map (·, s.drop text.length)

inductive Operator
  | plus
  | minus
  | times
  | floorDiv
  | ceilDiv
  | mod
deriving DecidableEq

def Operator.apply (b : ExprBuilder E) (lhs rhs : E) : Operator → Option E
  | plus     => b.createBinaryOp .add lhs rhs
  | minus    => do b.createBinaryOp .add lhs (← b.neg rhs)
  | times    => b.createBinaryOp .mul lhs rhs
  | floorDiv => b.createBinaryOp .floorDiv lhs rhs
  | ceilDiv  => b.createBinaryOp .ceilDiv lhs rhs
  | mod      => b.createBinaryOp .mod lhs rhs

def expressionOperators : List (String × Operator) :=
  [("+", .plus), ("-", .minus)]

def termOperators : List (String × Operator) :=
  [("*", .times), ("/", .floorDiv), ("floordiv", .floorDiv), ("floorDiv", .floorDiv), ("ceildiv", .ceilDiv),
   ("ceilDiv", .ceilDiv), ("mod", .mod)]

def consumeOperator (operators : List (String × Operator)) (s : Bytes) : Option (Operator × Bytes) :=
  operators.findSome? fun o => (consumePrefix o.1 s).map (o.2, ·)

def built (e : Option E) : Parsed E :=
  match e with
  | some e => .ok e
  | none   => .error .checkFailed

def expect (word message : String) (s : Bytes) : Parsed Bytes :=
  let s := skipWhitespace s
  match consumePrefix word s with
  | some s => .ok s
  | none   => .error (.reported message s)

end ExprParser

-- The latest assignment of the variable map comes first.
structure ExprParser (E : Type) where
  builder     : ExprBuilder E
  numDims     : Option Int
  variableMap : Option (List (Bytes × E))

namespace ExprParser

variable (p : ExprParser E)

-- The loop of `ParseExpression` and of `ParseTerm`. Each operator takes at least one character.
def parseOperations (operand : Bytes → Parsed (E × Bytes)) (operators : List (String × Operator)) :
    (fuel : Nat) → (lhs : E) → Bytes → Parsed (E × Bytes)
  | 0,        _,   _ => .error .outOfFuel
  | fuel + 1, lhs, s =>
    let s := skipWhitespace s
    match consumeOperator operators s with
    | none         => .ok (lhs, s)
    | some (op, s) => do
      let (rhs, s) ← operand s
      let lhs ← built <| op.apply p.builder lhs rhs
      parseOperations operand operators fuel lhs s

section ParseFactor

variable (parseFactor : Bytes → Parsed (E × Bytes))

def parseTerm (s : Bytes) : Parsed (E × Bytes) := do
  let (lhs, s) ← parseFactor s
  p.parseOperations parseFactor termOperators (s.length + 1) lhs s

def parseExpression (s : Bytes) : Parsed (E × Bytes) := do
  let (lhs, s) ← p.parseTerm parseFactor s
  p.parseOperations (p.parseTerm parseFactor) expressionOperators (s.length + 1) lhs s

-- The name of the function and the opening parenthesis have been consumed.
def parseBinaryFunction (op : BinaryOp) (name : String) (s : Bytes) : Parsed (E × Bytes) := do
  let (lhs, s) ← p.parseExpression parseFactor s
  let s ← expect "," ("Missing ',' in " ++ name ++ "()") s
  let (rhs, s) ← p.parseExpression parseFactor s
  let s ← expect ")" ("Missing ')' in " ++ name ++ "()") s
  let e ← built <| p.builder.createBinaryOp op lhs rhs
  return (e, s)

end ParseFactor

def maybeParseVariableFromMap (s : Bytes) : Option (E × Bytes) := do
  let variableMap ← p.variableMap
  let name := s.takeWhile isIdentifierCharacter
  if name = [] then none else (variableMap.lookup name).map (·, s.drop name.length)

-- The letter of the variable has been consumed.
def parseVariable (s : Bytes) : Parsed (E × Bytes) :=
  match parseNumber s with
  | some (varId, s) => .ok (p.builder.createVariable varId, s)
  | none            => .error (.reported "Cannot parse variable id" s)

def parseSymbol (s : Bytes) : Parsed (E × Bytes) :=
  match p.numDims with
  | none         => .error (.reported "Symbol cannot be parsed because number of dimensions is not set." s)
  | some numDims =>
    match parseNumber s with
    | some (symId, s) => .ok (p.builder.createVariable (numDims + symId), s)
    | none            => .error (.reported "Cannot parse symbol id after 's'" s)

def parseConstant (s : Bytes) : Parsed (E × Bytes) :=
  match parseNumber s with
  | some (val, s) => .ok (p.builder.createConstant val, s)
  | none          => .error (.reported "Failed to parse expression" s)

def parseAtom (s : Bytes) : Parsed (E × Bytes) :=
  match p.maybeParseVariableFromMap s with
  | some parsed => .ok parsed
  | none        =>
    match s with
    | 'v' :: s => p.parseVariable s
    | 'd' :: s => p.parseVariable s
    | 's' :: s => p.parseSymbol s
    | s        => p.parseConstant s

def parseFactorWith (parseFactor : Bytes → Parsed (E × Bytes)) (s : Bytes) : Parsed (E × Bytes) :=
  let s := skipWhitespace s
  if s = [] then
    .error (.reported "Unexpected end of expression" s)
  else if let some s := consumePrefix "-" s then do
    let (e, s) ← parseFactor s
    return (← built <| p.builder.neg e, s)
  else if let some s := consumePrefix "max(" s then
    p.parseBinaryFunction parseFactor .max "max" s
  else if let some s := consumePrefix "min(" s then
    p.parseBinaryFunction parseFactor .min "min" s
  else if let some s := consumePrefix "(" s then do
    let (e, s) ← p.parseExpression parseFactor s
    return (e, ← expect ")" "Missing parenthesis" s)
  else
    p.parseAtom s

-- A factor within a factor starts after at least one character.
def parseFactor : (fuel : Nat) → Bytes → Parsed (E × Bytes)
  | 0,        _ => .error .outOfFuel
  | fuel + 1, s => p.parseFactorWith (parseFactor fuel) s

def parsePartial (s : Bytes) : Parsed (E × Bytes) :=
  p.parseExpression (p.parseFactor (s.length + 1)) s

def parse (s : Bytes) : Parsed E := do
  let (e, s) ← p.parsePartial s
  let s := skipWhitespace s
  if s = [] then return e else .error (.reported "Did not parse entire string" s)

end ExprParser

-- Advances the string past the expression.
def parseSymbolicExprAndAdvance (b : ExprBuilder E) (exprStr : Bytes) (numDims : Option Int) : Parsed (E × Bytes) :=
  { builder := b, numDims, variableMap := none : ExprParser E }.parsePartial exprStr

def parseSymbolicExpr (b : ExprBuilder E) (exprStr : Bytes) (numDims : Option Int) : Parsed E := do
  return (← parseSymbolicExprAndAdvance b exprStr numDims).1

-- The operations on symbolic expressions. Variables with negative identifiers are not represented.
def SymbolicExpr.builder (o : IterationOrder) (fuel : Nat) : ExprBuilder SymbolicExpr where
  createConstant := const
  createVariable := fun id => var id.toNat
  createBinaryOp := fun op lhs rhs =>
    if op.isDivision ∧ lhs.isConst ∧ rhs = const 0 then none else some <| createBinaryOp op lhs rhs
  neg            := neg (canonicalize o fuel)

end Symbolic
