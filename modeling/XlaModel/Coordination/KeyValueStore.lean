import Mathlib.Data.Char
import Mathlib.Data.List.Lex
import XlaModel.Lib.SortedMap

namespace Coordination

-- A string of bytes. Keys are ordered lexicographically.
abbrev Bytes := List Char

namespace Bytes

def isSpace (c : Char) : Bool :=
  c ∈ [' ', '\t', '\n', '\r', Char.ofNat 11, Char.ofNat 12]

def strip (s : Bytes) : Bytes :=
  ((s.dropWhile isSpace).reverse.dropWhile isSpace).reverse

def digits : Nat → Bytes → Option Nat
  | n, []     => some n
  | n, c :: s => if c.isDigit then digits (n * 10 + (c.toNat - '0'.toNat)) s else none

def unsigned (s : Bytes) : Option Nat :=
  if s = [] then none else digits 0 s

def signed : Bytes → Option Int
  | '-' :: s => (unsigned s).map fun n => -(n : Int)
  | '+' :: s => (unsigned s).map fun n => (n : Int)
  | s        => (unsigned s).map fun n => (n : Int)

-- Parses a decimal number that fits into an `int`.
def simpleAtoi (s : Bytes) : Option Int :=
  (signed (strip s)).filter fun val => -2 ^ 31 ≤ val ∧ val < 2 ^ 31

def strCat (n : Int) : Bytes :=
  if n < 0 then '-' :: Nat.toDigits 10 n.natAbs else Nat.toDigits 10 n.natAbs

end Bytes

inductive KeyValueStore.Error where
  | alreadyExists (message : String)
  | failedPrecondition (message : String)
  | cancelled (message : String)
  deriving DecidableEq

-- The callbacks of a key are in the order in which they are added.
structure KeyValueStore (χ : Type) where
  data      : List (Bytes × Bytes)
  callbacks : List (Bytes × List χ)

namespace KeyValueStore

variable {χ : Type}

-- The invocations of callbacks.
abbrev Calls (χ : Type) := List (χ × Except Error Bytes)

def empty : KeyValueStore χ where
  data      := []
  callbacks := []

def get (s : KeyValueStore χ) (key : Bytes) : Option Bytes :=
  SortedMap.find s.data key

def pending (s : KeyValueStore χ) (key : Bytes) : List χ :=
  (MapVector.find s.callbacks key).getD []

def notifyCallbacksForKey (s : KeyValueStore χ) (key value : Bytes) : KeyValueStore χ × Calls χ :=
  ({ s with callbacks := MapVector.erase s.callbacks key }, (s.pending key).map (·, .ok value))

-- Also returns whether the key is inserted.
def tryEmplace (s : KeyValueStore χ) (key value : Bytes) : KeyValueStore χ × Bool :=
  if (s.get key).isSome then (s, false) else ({ s with data := SortedMap.set s.data key value }, true)

def put (s : KeyValueStore χ) (key value : Bytes) (allowOverwrite : Bool) :
    (KeyValueStore χ × Calls χ) × Except Error Unit :=
  if allowOverwrite then
    (notifyCallbacksForKey { s with data := SortedMap.set s.data key value } key value, .ok ())
  else
    let (s, inserted) := s.tryEmplace key value
    if inserted then (notifyCallbacksForKey s key value, .ok ())
    else ((s, []), .error <| .alreadyExists ("key " ++ String.ofList key ++ " already exists."))

def incrementBy (s : KeyValueStore χ) (key : Bytes) (increment : Int) :
    (KeyValueStore χ × Calls χ) × Except Error Bytes :=
  let s := (s.tryEmplace key ['0']).1
  let value := (s.get key).getD []
  match Bytes.simpleAtoi value with
  | none =>
    ((s, []), .error <| .failedPrecondition ("Failed to parse value \"" ++ String.ofList value ++ "\" as an integer."))
  | some val =>
    -- The sum is an `int64_t`.
    let value := Bytes.strCat ((val + increment).bmod (2 ^ 64))
    (notifyCallbacksForKey { s with data := SortedMap.set s.data key value } key value, .ok value)

-- Scans the entries from the lower bound of the prefix on.
def getPrefix (s : KeyValueStore χ) (pre : Bytes) : List (Bytes × Bytes) :=
  (s.data.dropWhile (·.1 < pre)).takeWhile (pre.isPrefixOf ·.1)

def delete (s : KeyValueStore χ) (key : Bytes) : KeyValueStore χ :=
  { s with data := SortedMap.erase s.data key }

-- Erases the entries from the lower bound of the prefix on.
def deletePrefix (s : KeyValueStore χ) (pre : Bytes) : KeyValueStore χ :=
  { s with data := s.data.takeWhile (·.1 < pre) ++ (s.data.dropWhile (·.1 < pre)).dropWhile (pre.isPrefixOf ·.1) }

def addCallbackForKey (s : KeyValueStore χ) (key : Bytes) (callback : χ) : KeyValueStore χ × Calls χ :=
  match s.get key with
  | some value => (s, [(callback, .ok value)])
  | none       => ({ s with callbacks := MapVector.push s.callbacks key callback }, [])

-- The calls that are made when the store is destructed.
def destruct (s : KeyValueStore χ) : Calls χ :=
  s.callbacks.flatMap fun p => p.2.map (·, .error <| .cancelled "KeyValueStore destructed")

inductive Op where
  | put (key value : Bytes) (allowOverwrite : Bool)
  | incrementBy (key : Bytes) (increment : Int)
  | delete (key : Bytes)
  | deletePrefix (pre : Bytes)
  | addCallbackForKey (key : Bytes)

-- The callback that an operation adds is identified by the time of the operation.
def apply (s : KeyValueStore Nat) (time : Nat) : Op → KeyValueStore Nat × Calls Nat
  | .put key value allowOverwrite => (s.put key value allowOverwrite).1
  | .incrementBy key increment    => (s.incrementBy key increment).1
  | .delete key                   => (s.delete key, [])
  | .deletePrefix pre             => (s.deletePrefix pre, [])
  | .addCallbackForKey key        => s.addCallbackForKey key time

structure Call where
  callback : Nat
  value    : Except Error Bytes
  time     : Nat

structure History where
  store : KeyValueStore Nat
  calls : List Call
  time  : Nat

def History.step (h : History) (op : Op) : History :=
  let (store, calls) := h.store.apply h.time op
  { store, calls := h.calls ++ calls.map (fun (callback, value) => ⟨callback, value, h.time⟩), time := h.time + 1 }

-- Every operation holds the lock of the store.
def run (ops : List Op) : History :=
  ops.foldl History.step ⟨empty, [], 0⟩

end KeyValueStore
end Coordination

namespace Coordination

namespace NormalizeKey

-- A string ends where a null byte is read.
def nul : Char :=
  Char.ofNat 0

-- The string that is compacted in place, the position that is read and the position that is written.
structure State where
  normKey : Bytes
  src     : Nat
  dst     : Nat

namespace State

def read (s : State) : Char :=
  s.normKey.getD s.src nul

def skip (s : State) : State :=
  { s with src := s.src + 1 }

def copy (s : State) : State where
  normKey := s.normKey.set s.dst s.read
  src     := s.src + 1
  dst     := s.dst + 1

-- Every iteration of the loops advances the position that is read.
def skipSlashes : Nat → State → State
  | 0, s        => s
  | fuel + 1, s => if s.read = '/' then skipSlashes fuel s.skip else s

def copyPart : Nat → State → State
  | 0, s        => s
  | fuel + 1, s => if s.read ≠ nul ∧ s.read ≠ '/' then copyPart fuel s.copy else s

def copySlash (s : State) : State :=
  if s.read ≠ nul then s.copy else s

def parsePart (s : State) : State :=
  copySlash (copyPart s.normKey.length (skipSlashes s.normKey.length s))

def parse : Nat → State → State
  | 0, s        => s
  | fuel + 1, s => if s.read ≠ nul then parse fuel s.parsePart else s

def removeTrailingSlash (s : State) : State :=
  if 0 < s.dst ∧ s.normKey[s.dst - 1]? = some '/' then { s with dst := s.dst - 1 } else s

end State
end NormalizeKey

open NormalizeKey in
def normalizeKey (origKey : Bytes) : Bytes :=
  let s := ((State.mk origKey 0 0).parse origKey.length).removeTrailingSlash
  s.normKey.take s.dst

namespace KeyValueStore

variable {χ : Type}

def getKeyValueDir (s : KeyValueStore χ) (directoryKey : Bytes) : List (Bytes × Bytes) :=
  s.getPrefix (normalizeKey directoryKey ++ ['/'])

def deleteKeyValue (s : KeyValueStore χ) (key : Bytes) : KeyValueStore χ :=
  (s.delete (normalizeKey key)).deletePrefix (normalizeKey key ++ ['/'])

-- The operations through which the service changes the store.
inductive ConfigOp where
  | insertKeyValue (key value : Bytes) (allowOverwrite : Bool)
  | getKeyValueAsync (key : Bytes)
  | incrementKeyValue (key : Bytes) (increment : Int)
  | deleteKeyValue (key : Bytes)

namespace ConfigOp

-- Deleting a key takes the lock of the store twice.
def ops : ConfigOp → List Op
  | insertKeyValue key value allowOverwrite => [.put (normalizeKey key) value allowOverwrite]
  | getKeyValueAsync key                    => [.addCallbackForKey (normalizeKey key)]
  | incrementKeyValue key increment         => [.incrementBy (normalizeKey key) increment]
  | deleteKeyValue key => [.delete (normalizeKey key), .deletePrefix (normalizeKey key ++ ['/'])]

end ConfigOp
end KeyValueStore
end Coordination
