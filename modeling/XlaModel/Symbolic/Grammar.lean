import XlaModel.Lib.Span
import XlaModel.Symbolic.Parser

-- The language of symbolic expressions. A derivation relates a string that begins with an expression to the expression
-- and to the string that follows.
namespace Symbolic

open Coordination ExprParser Span
open Bytes (isSpace)

def Blank (s : Bytes) : Prop :=
  ∀ c ∈ s, isSpace c

inductive Number : Bytes → Int → Bytes → Prop
  | unsigned (hs : Splits Char.isDigit s ds rest) (hd : ds ≠ []) (hv : simpleAtoi ds = some v) :
    Number s v rest
  | negative (hs : Splits Char.isDigit s ds rest) (hv : simpleAtoi ('-' :: ds) = some v) :
    Number ('-' :: s) v rest

inductive Level
  | sum
  | product

-- An expression is a chain of terms, a term is a chain of factors. The operations of a chain follow an expression `lhs`.
inductive Nonterminal (E : Type)
  | factor
  | chain (level : Level)
  | operations (level : Level) (lhs : E)

namespace Level

def operand : Level → Nonterminal E
  | sum     => .chain .product
  | product => .factor

def operators : Level → List (String × Operator)
  | sum     => expressionOperators
  | product => termOperators

end Level

-- The functions of two arguments.
def functions : List (String × BinaryOp) :=
  [("max", .max), ("min", .min)]

variable (p : ExprParser E)

-- The string begins with an identifier that is mapped to an expression.
inductive Mapped : Bytes → E → Bytes → Prop
  | intro (hm : p.variableMap = some m) (hn : name ≠ []) (hs : Splits isIdentifierCharacter s name rest)
      (hl : m.lookup name = some e) :
    Mapped s e rest

def Unmapped (s : Bytes) : Prop :=
  ∀ e rest, ¬Mapped p s e rest

inductive Atom : Bytes → E → Bytes → Prop
  | mapped (h : Mapped p s e rest) :
    Atom s e rest
  | numbered (hc : c = 'v' ∨ c = 'd') (hu : Unmapped p (c :: s)) (h : Number s varId rest) :
    Atom (c :: s) (p.builder.createVariable varId) rest
  | symbol (hu : Unmapped p ('s' :: s)) (hn : p.numDims = some n) (h : Number s symId rest) :
    Atom ('s' :: s) (p.builder.createVariable (n + symId)) rest
  | constant (hu : Unmapped p s) (h : Number s v rest) :
    Atom s (p.builder.createConstant v) rest

inductive Derives : Nonterminal E → Bytes → E → Bytes → Prop
  -- Signs and function calls take precedence over numbers and identifiers.
  | atom (hw : Blank ws) (hp : ∀ word ∈ ["-", "max(", "min("], ¬word.toList <+: s) (h : Atom p s e rest) :
    Derives .factor (ws ++ s) e rest
  | negation (hw : Blank ws) (h : Derives .factor s e rest) (hb : p.builder.neg e = some e') :
    Derives .factor (ws ++ '-' :: s) e' rest
  | function (hw : Blank ws) (hf : (name, op) ∈ functions) (hl : Derives (.chain .sum) s lhs (',' :: s'))
      (hr : Derives (.chain .sum) s' rhs (')' :: rest)) (hb : p.builder.createBinaryOp op lhs rhs = some e) :
    Derives .factor (ws ++ ((name ++ "(").toList ++ s)) e rest
  | parentheses (hw : Blank ws) (h : Derives (.chain .sum) s e (')' :: rest)) :
    Derives .factor (ws ++ '(' :: s) e rest
  | chain (h : Derives level.operand s lhs s') (hr : Derives (.operations level lhs) s' e rest) :
    Derives (.chain level) s e rest
  -- The chain is as long as possible.
  | stop (hw : Blank ws) (hs : Stops isSpace s) (ho : ∀ o ∈ level.operators, ¬o.1.toList <+: s) :
    Derives (.operations level lhs) (ws ++ s) lhs s
  | operation (hw : Blank ws) (ho : (word, op) ∈ level.operators) (h : Derives level.operand s rhs s')
      (hb : op.apply p.builder lhs rhs = some lhs') (hr : Derives (.operations level lhs') s' e rest) :
    Derives (.operations level lhs) (ws ++ (word.toList ++ s)) e rest

end Symbolic
