import Mathlib.Tactic

namespace HeapSimulator

structure Chunk where
  offset : Int
  size   : Int
  deriving DecidableEq

-- The nodes are addressed by their positions in the node storage.
structure BufferIntervalTreeNode where
  start      : Int
  end_       : Int
  subtreeEnd : Int
  chunk      : Chunk
  left       : Option Nat
  right      : Option Nat
  parent     : Option Nat
  deriving DecidableEq

structure BufferIntervalTree where
  root        : Option Nat
  nodeStorage : List BufferIntervalTreeNode
  deriving DecidableEq

namespace BufferIntervalTree

variable (t : BufferIntervalTree)

def empty : BufferIntervalTree where
  root        := none
  nodeStorage := []

def modify (node : Nat) (f : BufferIntervalTreeNode → BufferIntervalTreeNode) : BufferIntervalTree :=
  { t with nodeStorage := t.nodeStorage.modify node f }

section Add

variable (start end_ : Int)

def addLoop (back : Nat) : Nat → BufferIntervalTree → Nat → Option BufferIntervalTree
  | 0,        _, _      => none
  | fuel + 1, t, parent => do
    let t := t.modify parent fun node => { node with subtreeEnd := max node.subtreeEnd end_ }
    let node ← t.nodeStorage[parent]?
    if node.start > start then
      match node.left with
      | none =>
        let t := t.modify parent fun node => { node with left := back }
        return t.modify back fun node => { node with parent }
      | some left => addLoop back fuel t left
    else
      match node.right with
      | none =>
        let t := t.modify parent fun node => { node with right := back }
        return t.modify back fun node => { node with parent }
      | some right => addLoop back fuel t right

def add (fuel : Nat) (chunk : Chunk) : Option BufferIntervalTree :=
  let back := t.nodeStorage.length
  let node : BufferIntervalTreeNode := ⟨start, end_, end_, chunk, none, none, none⟩
  let t := { t with nodeStorage := t.nodeStorage ++ [node] }
  match t.root with
  | none        => some { t with root := back }
  | some parent => addLoop start end_ back fuel t parent

end Add

section Remove

variable (start end_ : Int) (chunk : Chunk)

def find : Nat → Option Nat → Option (Option Nat)
  | 0,        _              => none
  | _,        none           => some none
  | fuel + 1, some toDelete  => do
    let node ← t.nodeStorage[toDelete]?
    if node.start = start ∧ node.end_ = end_ ∧ node.chunk.offset = chunk.offset then
      return some toDelete
    else if start < node.start then
      find fuel node.left
    else
      find fuel node.right

def childEnd (subtreeEnd : Int) : Option Nat → Option Int
  | none       => some subtreeEnd
  | some child => do
    let child ← t.nodeStorage[child]?
    return max subtreeEnd child.subtreeEnd

-- Goes up to the root.
def fixUp : Nat → BufferIntervalTree → Option Nat → Option BufferIntervalTree
  | 0,        _, _    => none
  | _,        t, none => some t
  | fuel + 1, t, some a => do
    let node ← t.nodeStorage[a]?
    let subtreeEnd ← t.childEnd node.end_ node.left
    let subtreeEnd ← t.childEnd subtreeEnd node.right
    fixUp fuel (t.modify a fun node => { node with subtreeEnd }) node.parent

def leftmost : Nat → Nat → Option Nat
  | 0,        _         => none
  | fuel + 1, toPromote => do
    let node ← t.nodeStorage[toPromote]?
    match node.left with
    | none      => return toPromote
    | some left => leftmost fuel left

def setParent (child parent : Option Nat) : BufferIntervalTree :=
  match child with
  | none       => t
  | some child => t.modify child fun node => { node with parent }

def moveUpLeft (fuel toDelete : Nat) (node : BufferIntervalTreeNode) : Option BufferIntervalTree := do
  if t.root = some toDelete then
    return { t with root := node.left }
  else
    let a ← node.parent
    let parent ← t.nodeStorage[a]?
    let t := if parent.left = some toDelete then t.modify a fun parent => { parent with left := node.left } else t
    let parent ← t.nodeStorage[a]?
    let t := if parent.right = some toDelete then t.modify a fun parent => { parent with right := node.left } else t
    let t := t.setParent node.left node.parent
    fixUp fuel t toDelete

def promote (fuel toDelete right : Nat) : Option BufferIntervalTree := do
  let toPromote ← t.leftmost fuel right
  let promoted ← t.nodeStorage[toPromote]?
  let t := t.modify toDelete fun node => { node with
    start := promoted.start, end_ := promoted.end_, subtreeEnd := promoted.subtreeEnd, chunk := promoted.chunk }
  let a ← promoted.parent
  let parent ← t.nodeStorage[a]?
  let t := if parent.left = some toPromote
    then t.modify a fun parent => { parent with left := promoted.right }
    else t.modify a fun parent => { parent with right := promoted.right }
  let t := t.setParent promoted.right a
  fixUp fuel t a

def remove (fuel : Nat) : Option (BufferIntervalTree × Bool) := do
  match ← t.find start end_ chunk fuel t.root with
  | none => return (t, false)
  | some toDelete =>
    let node ← t.nodeStorage[toDelete]?
    match node.right with
    | none       => return (← t.moveUpLeft fuel toDelete node, true)
    | some right => return (← t.promote fuel toDelete right, true)

end Remove

section Query

variable {β : Type} (start end_ : Int)

def applyToNodesLoop (fn : β → BufferIntervalTreeNode → β) : Nat → List Nat → β → Option β
  | 0,        _,                   _ => none
  | _,        [],                  b => some b
  | fuel + 1, top :: visitingStack, b => do
    let top ← t.nodeStorage[top]?
    if start > top.subtreeEnd then
      applyToNodesLoop fn fuel visitingStack b
    else
      let visitingStack := top.left.toList ++ visitingStack
      let b := if top.start ≤ end_ ∧ top.end_ ≥ start then fn b top else b
      if end_ < top.start then
        applyToNodesLoop fn fuel visitingStack b
      else
        applyToNodesLoop fn fuel (top.right.toList ++ visitingStack) b

def applyToNodesOverlappingInTime (fuel : Nat) (fn : β → BufferIntervalTreeNode → β) (b : β) : Option β :=
  t.applyToNodesLoop start end_ fn fuel t.root.toList b

-- A failed check is an inner `none`. The callback also returns whether to stop.
def applyToSortedLoop (fn : β → BufferIntervalTreeNode → β × Bool) :
    Nat → List (Nat × Bool) → Int → β → Option (Option β)
  | 0,        _,                                            _,         _ => none
  | _,        [],                                           _,         b => some (some b)
  | fuel + 1, (node, haveVisitedLeftSubtree) :: visitingStack, prevStart, b => do
    let top ← t.nodeStorage[node]?
    if start > top.subtreeEnd then
      applyToSortedLoop fn fuel visitingStack prevStart b
    else
      match haveVisitedLeftSubtree, top.left with
      | false, some left =>
        applyToSortedLoop fn fuel ((left, false) :: (node, true) :: visitingStack) prevStart b
      | _, _ =>
        let visitingStack' :=
          if end_ < top.start then visitingStack else top.right.toList.map (·, false) ++ visitingStack
        if top.start ≤ end_ ∧ top.end_ ≥ start then
          if prevStart ≤ top.start then
            let (b, stop) := fn b top
            if stop then
              return some b
            else
              applyToSortedLoop fn fuel visitingStack' top.start b
          else
            return none
        else
          applyToSortedLoop fn fuel visitingStack' prevStart b

def applyToSortedNodesOverlapping (fuel : Nat) (fn : β → BufferIntervalTreeNode → β × Bool) (b : β) :
    Option (Option β) :=
  t.applyToSortedLoop start end_ fn fuel (t.root.toList.map (·, false)) (-1) b

def chunksOverlappingInTime (fuel : Nat) : Option (List Chunk) :=
  t.applyToNodesOverlappingInTime start end_ fuel (fun chunks node => chunks ++ [node.chunk]) []

end Query

inductive Op
  | add (start end_ : Int) (chunk : Chunk)
  | remove (start end_ : Int) (chunk : Chunk)

def apply (fuel : Nat) : Op → Option (BufferIntervalTree × Bool)
  | .add start end_ chunk    => return (← t.add start end_ fuel chunk, true)
  | .remove start end_ chunk => t.remove start end_ chunk fuel

-- Also returns the results of the operations.
def run (fuel : Nat) : BufferIntervalTree → List Op → Option (BufferIntervalTree × List Bool)
  | t, []        => some (t, [])
  | t, op :: ops => do
    let (t, result) ← t.apply fuel op
    let (t, results) ← run fuel t ops
    return (t, result :: results)

end BufferIntervalTree
end HeapSimulator
