import Mathlib.Data.List.Dedup
import XlaModel.Hlo.ReachabilityMap

-- The functions below return `none` if a `CHECK` fails.
namespace Hlo.HloSchedule

variable (c : HloComputation)

-- Only instructions with a parent are removed.
def removeInstruction (sequence : List Nat) (instruction : Nat) : List Nat :=
  if instruction ∈ sequence ∧ instruction ∈ c.instructions then sequence.erase instruction else sequence

namespace Invalidate

structure State where
  invalidInstructions : List Nat
  seenInstructions    : List Nat

def visitPredecessor (inst : Nat) (s : State) (pred : Nat) : Option State :=
  -- The control predecessors would change while they are iterated.
  if pred = inst then none
  else if pred ∈ c.instructions ∧ pred ∉ s.seenInstructions then
    some { s with invalidInstructions := pred :: inst :: s.invalidInstructions }
  else some s

def visit (s : State) (inst : Nat) : Option State := do
  let s ← (c.controlPredecessors inst).foldlM (visitPredecessor c inst) s
  return { s with seenInstructions := inst :: s.seenInstructions }

end Invalidate

open Invalidate in
def invalidInstructions (schedSequence : List Nat) : Option (List Nat) := do
  let s ← schedSequence.foldlM (visit c) ⟨[], []⟩
  return s.invalidInstructions

-- Instructions without a count are not in the map.
structure Update where
  newInstructionSuccessors    : Nat → List Nat
  unscheduledPredecessorCount : Nat → Option Nat
  worklist                    : List Nat
  newSequence                 : List Nat

namespace Update

def empty : Update where
  newInstructionSuccessors    := fun _ => []
  unscheduledPredecessorCount := fun _ => none
  worklist                    := []
  newSequence                 := []

def addPredecessor (instruction : Nat) (successors : Nat → List Nat) (predecessor : Nat) : Nat → List Nat :=
  if instruction ∈ successors predecessor then successors
  else Function.update successors predecessor (successors predecessor ++ [instruction])

def addNewInstruction (u : Update) (instruction : Nat) : Update :=
  if c.operands instruction = [] ∧ c.controlPredecessors instruction = [] then
    { u with worklist := u.worklist ++ [instruction] }
  else
    let predecessors := c.operands instruction ++ c.controlPredecessors instruction
    { u with
      newInstructionSuccessors    := predecessors.foldl (addPredecessor instruction) u.newInstructionSuccessors
      unscheduledPredecessorCount :=
        Function.update u.unscheduledPredecessorCount instruction (some predecessors.dedup.length) }

def scheduleSuccessor (u : Update) (newSuccessor : Nat) : Option Update :=
  match u.unscheduledPredecessorCount newSuccessor with
  | none | some 0    => none
  | some (count + 1) =>
    some { u with
      unscheduledPredecessorCount := Function.update u.unscheduledPredecessorCount newSuccessor (some count)
      worklist                    := if count = 0 then u.worklist ++ [newSuccessor] else u.worklist }

def scheduleWorklist : Nat → Update → Option Update
  | 0,        _ => none
  | fuel + 1, u =>
    match u.worklist with
    | []                      => some u
    | instruction :: worklist => do
      let u := { u with worklist, newSequence := u.newSequence ++ [instruction] }
      let u ← (u.newInstructionSuccessors instruction).foldlM scheduleSuccessor u
      scheduleWorklist fuel u

def scheduleId (fuel : Nat) (u : Update) (id : Nat) : Option Update :=
  if id ∈ c.instructions then scheduleWorklist fuel { u with worklist := u.worklist ++ [id] } else some u

end Update

open Update in
def updateComputationSchedule (fuel : Nat) (sequence : List Nat) : Option (List Nat) := do
  if ¬c.instructions.Nodup then none
  else
    let invalidInstructions ← invalidInstructions c sequence
    let sequence := invalidInstructions.foldl (removeInstruction c) sequence
    if ¬sequence.Nodup then none
    else
      let u := (c.instructions.filter (· ∉ sequence)).foldl (addNewInstruction c) .empty
      let u ← scheduleWorklist fuel u
      let u ← sequence.foldlM (scheduleId c fuel) u
      return u.newSequence

inductive VerifyError where
  | appearsMoreThanOnce (instruction : Nat)
  | count (found expected : Nat)
  | notInSchedule (instruction : Nat)
  | notFound (instruction : Nat)
  | notAfterOperand (instruction operand : Nat)
  | notAfterControlPredecessor (instruction pred : Nat)
  deriving DecidableEq

namespace Verify

-- The position of an instruction is its index.
def insertPosition (instructionPosition : List Nat) (instruction : Nat) : Except VerifyError (List Nat) :=
  if instruction ∈ instructionPosition then .error (.appearsMoreThanOnce instruction)
  else .ok (instructionPosition ++ [instruction])

def checkCount (found expected : Nat) : Except VerifyError Unit :=
  if found = expected then return () else throw (.count found expected)

def at? (instructionPosition : List Nat) (instruction : Nat) : Except VerifyError Nat :=
  if instruction ∈ instructionPosition then .ok (instructionPosition.idxOf instruction)
  else .error (.notFound instruction)

def checkBefore (instructionPosition : List Nat) (instruction : Nat) (error : Nat → VerifyError) (pred : Nat) :
    Except VerifyError Unit := do
  if (← at? instructionPosition pred) < (← at? instructionPosition instruction) then return ()
  else throw (error pred)

end Verify

open Verify in
def verify (sequence : List Nat) : Except VerifyError Unit := do
  let instructionPosition ← sequence.foldlM insertPosition []
  checkCount instructionPosition.length c.instructions.length
  c.instructions.forM fun instruction =>
    if instruction ∈ instructionPosition then return () else throw (.notInSchedule instruction)
  c.instructions.forM fun instruction => do
    (c.operands instruction).forM (checkBefore instructionPosition instruction (.notAfterOperand instruction))
    (c.controlPredecessors instruction).forM
      (checkBefore instructionPosition instruction (.notAfterControlPredecessor instruction))

end Hlo.HloSchedule
