import Mathlib.Logic.Function.Basic
import Mathlib.Tactic

namespace Hlo

abbrev Word := BitVec 64

-- A view of a row of words.
@[ext]
structure BitSet where
  words : List Word
  deriving DecidableEq

namespace BitSet

def kBits : Nat := 64

def zero (words : Nat) : BitSet where
  words := List.replicate words 0

def get (b : BitSet) (index : Nat) : Bool :=
  b.words.getD (index / kBits) 0 &&& (1#64 <<< (index % kBits)) ≠ 0

def set (b : BitSet) (index : Nat) : BitSet where
  words := b.words.modify (index / kBits) (· ||| (1#64 <<< (index % kBits)))

def or (b other : BitSet) : BitSet where
  words := List.zipWith (· ||| ·) b.words other.words

-- Also returns whether the bit set changed.
def orUpdate (b other : BitSet) : BitSet × Bool :=
  let changedAccumulator := (List.zipWith (~~~· &&& ·) b.words other.words).foldl (· ||| ·) 0
  (b.or other, changedAccumulator ≠ 0)

def orUpdatePartial (b : BitSet) (diff : List (Nat × Word)) : BitSet where
  words := diff.foldl (fun words (index, value) => words.modify index (· ||| value)) b.words

def differingWords : Nat → List Word → List Word → List (Nat × Word)
  | i, x :: xs, y :: ys => if x ≠ y then (i, x ||| y) :: differingWords (i + 1) xs ys else differingWords (i + 1) xs ys
  | _, _,       _       => []

def getDifferingWordUnions (b other : BitSet) : List (Nat × Word) :=
  differingWords 0 b.words other.words

def setToZero (b : BitSet) : BitSet :=
  zero b.words.length

end BitSet
end Hlo

namespace Hlo

-- Instructions are identified by their local ids.
structure HloComputation where
  instructions        : List Nat
  operands            : Nat → List Nat
  controlPredecessors : Nat → List Nat
  users               : Nat → List Nat
  controlSuccessors   : Nat → List Nat

-- The users and the control successors mirror the operands and the control predecessors.
def HloComputation.ofPredecessors (n : Nat) (operands controlPredecessors : Nat → List Nat) : HloComputation where
  instructions        := List.range n
  operands            := operands
  controlPredecessors := controlPredecessors
  users x             := (List.range n).filter (x ∈ operands ·)
  controlSuccessors x := (List.range n).filter (x ∈ controlPredecessors ·)

structure HloReachabilityMap where
  wordsPerBitset : Nat
  indices        : List (Option Nat)
  rows           : List BitSet
  deriving DecidableEq

namespace HloReachabilityMap

variable (c : HloComputation) (m : HloReachabilityMap)

def create (instructions : List Nat) : HloReachabilityMap :=
  let wordsPerBitset := (instructions.length + BitSet.kBits - 1) / BitSet.kBits
  let maxLocalId := instructions.foldl max 0
  {
    wordsPerBitset
    indices := instructions.zipIdx.foldl (fun indices (instruction, i) => indices.set instruction (some i))
      (List.replicate (maxLocalId + 1) none)
    rows := (List.range instructions.length).map (BitSet.zero wordsPerBitset).set
  }

-- An absent key has no index.
def getIndex (instruction : Nat) : Option Nat :=
  m.indices.getD instruction none

def bitSetFromIndex (i : Nat) : BitSet :=
  m.rows.getD i (.zero m.wordsPerBitset)

def setBitSet (i : Nat) (b : BitSet) : HloReachabilityMap :=
  { m with rows := m.rows.set i b }

def isReachable (a b : Nat) : Option Bool := do
  if a = b then
    return true
  else
    let i ← m.getIndex a
    let j ← m.getIndex b
    return i = j || (m.bitSetFromIndex j).get i

def setReachabilityToUnionHelper (inputIndices : List Nat) (index : Nat) : HloReachabilityMap :=
  let bitSet := m.bitSetFromIndex index
  -- If the instruction is part of the inputs, its bit set is not reset.
  let bitSet := if index ∈ inputIndices then bitSet else bitSet.setToZero
  let bitSet := bitSet.set index
  m.setBitSet index <| inputIndices.foldl
    (fun b inputIndex => if inputIndex ≠ index then b.or (m.bitSetFromIndex inputIndex) else b) bitSet

-- Also returns whether the bit set of the instruction changed.
def setReachabilityToUnion (inputs : List Nat) (instruction : Nat) : Option (HloReachabilityMap × Bool) := do
  let index ← m.getIndex instruction
  let inputIndices ← inputs.mapM m.getIndex
  let m' := m.setReachabilityToUnionHelper inputIndices index
  return (m', m'.bitSetFromIndex index ≠ m.bitSetFromIndex index)

def orBitSet (index : Nat) (m : HloReachabilityMap) (dependency : Nat) : Option HloReachabilityMap := do
  let i ← m.getIndex dependency
  return m.setBitSet index ((m.bitSetFromIndex index).or (m.bitSetFromIndex i))

def addDependencies (m : HloReachabilityMap) (instruction : Nat) : Option HloReachabilityMap := do
  let index ← m.getIndex instruction
  let m ← (c.operands instruction).foldlM (orBitSet index) m
  (c.controlPredecessors instruction).foldlM (orBitSet index) m

def build (postOrder : List Nat) : Option HloReachabilityMap :=
  postOrder.foldlM (addDependencies c) (create postOrder)

namespace UpdateThroughInstruction

-- An instruction is only processed at its last occurrence in the worklist.
structure State where
  map        : HloReachabilityMap
  worklist   : List Nat
  inWorklist : Nat → Int

def push (s : State) (instruction : Nat) : State :=
  { s with
    worklist   := s.worklist ++ [instruction]
    inWorklist := Function.update s.inWorklist instruction (s.inWorklist instruction + 1) }

def process (s : State) (item : Nat) : Option State := do
  let inputs := c.operands item ++ c.controlPredecessors item
  let (map, changed) ← s.map.setReachabilityToUnion inputs item
  let s := { s with map }
  if changed then
    return (c.controlSuccessors item).foldl push ((c.users item).foldl push s)
  else
    return s

def loop : Nat → State → Option HloReachabilityMap
  | 0,        _ => none
  | fuel + 1, s =>
    match s.worklist with
    | [] => s.map
    | item :: worklist => do
      let s := { s with
        worklist,
        inWorklist := Function.update s.inWorklist item (s.inWorklist item - 1) }
      if s.inWorklist item > 0 then
        loop fuel s
      else
        loop fuel (← process c s item)

end UpdateThroughInstruction

def updateReachabilityThroughInstruction (fuel : Nat) (instruction : Nat) : Option HloReachabilityMap :=
  UpdateThroughInstruction.loop c fuel ⟨m, [instruction], fun _ => 0⟩

namespace UpdateForMerge

-- The top of the worklist is its head. Its elements are tagged with the side they have been reached from.
structure State where
  worklist        : List (Nat × Bool)
  visited         : List Nat
  indicesToUpdate : List Nat

def skip (leftIndex rightIndex instr : Nat) (fromLeft : Bool) : Bool :=
  match m.getIndex instr with
  | some i =>
    let bitSet := m.bitSetFromIndex i
    -- The node is already reachable from both sides.
    (fromLeft && bitSet.get rightIndex) || (!fromLeft && bitSet.get leftIndex)
  | none => false

def addToWorklist (leftIndex rightIndex : Nat) (fromLeft : Bool) (s : State) (instr : Nat) : State :=
  if instr ∈ s.visited then
    s
  else if skip m leftIndex rightIndex instr fromLeft then
    { s with visited := instr :: s.visited }
  else
    { s with visited := instr :: s.visited, worklist := (instr, fromLeft) :: s.worklist }

def process (leftIndex rightIndex : Nat) (s : State) (item : Nat) (fromLeft : Bool) : State :=
  let s := { s with indicesToUpdate := s.indicesToUpdate ++ (m.getIndex item).toList }
  let s := (c.users item).foldl (addToWorklist m leftIndex rightIndex fromLeft) s
  (c.controlSuccessors item).foldl (addToWorklist m leftIndex rightIndex fromLeft) s

def loop (leftIndex rightIndex : Nat) : Nat → State → Option (List Nat)
  | 0,        _ => none
  | fuel + 1, s =>
    match s.worklist with
    | []                          => s.indicesToUpdate
    | (item, fromLeft) :: worklist =>
      loop leftIndex rightIndex fuel (process c m leftIndex rightIndex { s with worklist } item fromLeft)

def orRows (info : Nat) (m : HloReachabilityMap) (index : Nat) : HloReachabilityMap :=
  m.setBitSet index ((m.bitSetFromIndex index).or (m.bitSetFromIndex info))

def orRowsPartial (changedWords : List (Nat × Word)) (m : HloReachabilityMap) (index : Nat) : HloReachabilityMap :=
  m.setBitSet index ((m.bitSetFromIndex index).orUpdatePartial changedWords)

def apply (info : Nat) (changedWords : List (Nat × Word)) (indicesToUpdate : List Nat) : HloReachabilityMap :=
  -- More than a quarter of the words have changed.
  if 4 * changedWords.length > m.wordsPerBitset then
    indicesToUpdate.foldl (orRows info) (orRowsPartial changedWords m info)
  else
    indicesToUpdate.foldl (orRowsPartial changedWords) m

end UpdateForMerge

open UpdateForMerge in
def updateReachabilityForMerge (fuel : Nat) (left right : Nat) : Option HloReachabilityMap := do
  if left = right then
    return m
  else
    let leftIndex ← m.getIndex left
    let rightIndex ← m.getIndex right
    let s := addToWorklist m leftIndex rightIndex true ⟨[], [], []⟩ left
    let leftAdded := !s.worklist.isEmpty
    let s := addToWorklist m leftIndex rightIndex false s right
    if s.worklist.isEmpty then
      return m
    else
      let changedWords := (m.bitSetFromIndex leftIndex).getDifferingWordUnions (m.bitSetFromIndex rightIndex)
      if changedWords.isEmpty then
        return m
      else
        let indicesToUpdate ← loop c m leftIndex rightIndex fuel s
        return apply m (if leftAdded then leftIndex else rightIndex) changedWords indicesToUpdate

namespace UpdateMultiple

structure State where
  map      : HloReachabilityMap
  toUpdate : List (Nat × List Nat)

def insert : List (Nat × List Nat) → Nat → Nat → List (Nat × List Nat)
  | [],               user, instruction => [(user, [instruction])]
  | (x, ops) :: rest, user, instruction =>
    if x = user then (x, if instruction ∈ ops then ops else instruction :: ops) :: rest
    else (x, ops) :: insert rest user instruction

def orUpdate (index : Nat) (s : HloReachabilityMap × Bool) (operand : Nat) : Option (HloReachabilityMap × Bool) := do
  let i ← s.1.getIndex operand
  let (bitSet, changed) := (s.1.bitSetFromIndex index).orUpdate (s.1.bitSetFromIndex i)
  return (s.1.setBitSet index bitSet, s.2 || changed)

-- Processes an entry of the hash map whose other entries are `rest`.
def process (map : HloReachabilityMap) (instruction : Nat) (operands : List Nat) (rest : List (Nat × List Nat)) :
    Option State := do
  let index ← map.getIndex instruction
  let (map, changed) ← operands.foldlM (orUpdate index) (map, false)
  if changed then
    let rest := (c.users instruction).foldl (insert · · instruction) rest
    return { map, toUpdate := (c.controlSuccessors instruction).foldl (insert · · instruction) rest }
  else
    return { map, toUpdate := rest }

-- The entries of the hash map and the elements of the hash sets are visited in any order.
inductive Step : State → Option State → Prop
  | intro {map : HloReachabilityMap} {instruction : Nat} {before after : List (Nat × List Nat)}
    {operands operands' : List Nat} : operands'.Perm operands →
    Step ⟨map, before ++ (instruction, operands) :: after⟩ (process c map instruction operands' (before ++ after))

end UpdateMultiple
end HloReachabilityMap
end Hlo
