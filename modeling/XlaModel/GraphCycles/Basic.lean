import Mathlib.Data.List.Sort
import XlaModel.GraphCycles.OrderedSet

namespace GraphCycles

structure Node where
  rank    : Nat
  visited : Bool
deriving DecidableEq

structure NodeIo where
  ins  : OrderedSet Nat
  outs : OrderedSet Nat

-- The vectors `free_nodes_` and `stack_` are only accessed at their back, which is the head of the
-- lists below. The results of the searches (`deltaf_`, `deltab_`, `list_` and `merged_`) are passed
-- explicitly.
structure Rep where
  nodes     : List Node
  nodeIo    : List NodeIo
  freeNodes : List Nat

namespace Rep

def empty : Rep where
  nodes     := []
  nodeIo    := []
  freeNodes := []

def node (r : Rep) (n : Nat) : Node :=
  r.nodes.getD n ⟨0, false⟩

def rank (r : Rep) (n : Nat) : Nat :=
  (r.node n).rank

def visited (r : Rep) (n : Nat) : Bool :=
  (r.node n).visited

def io (r : Rep) (n : Nat) : NodeIo :=
  r.nodeIo.getD n ⟨.empty, .empty⟩

def ins (r : Rep) (n : Nat) : OrderedSet Nat :=
  (r.io n).ins

def outs (r : Rep) (n : Nat) : OrderedSet Nat :=
  (r.io n).outs

def setVisited (r : Rep) (n : Nat) (v : Bool) : Rep :=
  { r with nodes := r.nodes.modify n ({ · with visited := v }) }

def setRank (r : Rep) (n : Nat) (k : Nat) : Rep :=
  { r with nodes := r.nodes.modify n ({ · with rank := k }) }

def modifyIns (r : Rep) (n : Nat) (f : OrderedSet Nat → OrderedSet Nat) : Rep :=
  { r with nodeIo := r.nodeIo.modify n (fun x => { x with ins := f x.ins }) }

def modifyOuts (r : Rep) (n : Nat) (f : OrderedSet Nat → OrderedSet Nat) : Rep :=
  { r with nodeIo := r.nodeIo.modify n (fun x => { x with outs := f x.outs }) }

def numEdges (r : Rep) : Nat :=
  (r.nodeIo.map (·.outs.size)).sum

def newNode (r : Rep) : Nat × Rep :=
  match r.freeNodes with
  | [] =>
    let rank := r.nodes.length
    (rank, { r with
      nodes  := r.nodes ++ [⟨rank, false⟩]
      nodeIo := r.nodeIo ++ [⟨.empty, .empty⟩]
    })
  | n :: free => (n, { r with freeNodes := free })

-- Removes `node` from the in-sets of its successors and from the out-sets of its predecessors.
def unlink (r : Rep) (node : Nat) (outs ins : OrderedSet Nat) : Rep :=
  let r := outs.valueSequence.foldl (fun r y => r.modifyIns y (·.erase node)) r
  ins.valueSequence.foldl (fun r y => r.modifyOuts y (·.erase node)) r

def removeNode (r : Rep) (node : Nat) : Rep :=
  let r := r.unlink node (r.outs node) (r.ins node)
  let r := r.modifyIns node (fun _ => .empty) |>.modifyOuts node (fun _ => .empty)
  { r with freeNodes := node :: r.freeNodes }

def hasEdge (r : Rep) (x y : Nat) : Bool :=
  (r.outs x).contains y

def removeEdge (r : Rep) (x y : Nat) : Rep :=
  r.modifyOuts x (·.erase y) |>.modifyIns y (·.erase x)

-- The body of the loop over the successors in `ForwardDFS`. The result is `none` if a node of rank
-- `upperBound` is found.
def pushOuts (r : Rep) (upperBound : Nat) : List Nat → (stack : List Nat) → Option (List Nat)
  | [], stack => some stack
  | w :: ws, stack =>
    if r.rank w = upperBound then
      none
    else if ¬r.visited w ∧ r.rank w < upperBound then
      r.pushOuts upperBound ws (w :: stack)
    else
      r.pushOuts upperBound ws stack

def forwardDFS.loop (upperBound : Nat) :
    (fuel : Nat) → Rep → (stack deltaf : List Nat) → Bool × Rep × List Nat
  | 0,        r, _,          deltaf => (true, r, deltaf)
  | _,        r, [],         deltaf => (true, r, deltaf)
  | fuel + 1, r, n :: stack, deltaf =>
    if r.visited n then
      loop upperBound fuel r stack deltaf
    else
      let r := r.setVisited n true
      let deltaf := deltaf ++ [n]
      match r.pushOuts upperBound (r.outs n).valueSequence stack with
      | none       => (false, r, deltaf)
      | some stack => loop upperBound fuel r stack deltaf

-- A node is expanded at most once and each of its edges pushes at most one node, so `numEdges + 1`
-- iterations suffice.
def forwardDFS (r : Rep) (n : Nat) (upperBound : Nat) : Bool × Rep × List Nat :=
  forwardDFS.loop upperBound (r.numEdges + 1) r [n] []

def pushIns (r : Rep) (lowerBound : Nat) : List Nat → (stack : List Nat) → List Nat
  | [], stack => stack
  | w :: ws, stack =>
    if ¬r.visited w ∧ lowerBound < r.rank w then
      r.pushIns lowerBound ws (w :: stack)
    else
      r.pushIns lowerBound ws stack

def backwardDFS.loop (lowerBound : Nat) :
    (fuel : Nat) → Rep → (stack deltab : List Nat) → Rep × List Nat
  | 0,        r, _,          deltab => (r, deltab)
  | _,        r, [],         deltab => (r, deltab)
  | fuel + 1, r, n :: stack, deltab =>
    if r.visited n then
      loop lowerBound fuel r stack deltab
    else
      let r := r.setVisited n true
      loop lowerBound fuel r (r.pushIns lowerBound (r.ins n).valueSequence stack) (deltab ++ [n])

def numInEdges (r : Rep) : Nat :=
  (r.nodeIo.map (·.ins.size)).sum

def backwardDFS (r : Rep) (n : Nat) (lowerBound : Nat) : Rep × List Nat :=
  backwardDFS.loop lowerBound (r.numInEdges + 1) r [n] []

def sort (r : Rep) (delta : List Nat) : List Nat :=
  delta.insertionSort (fun a b => r.rank a ≤ r.rank b)

-- Returns the ranks that replace the entries of `src`.
def moveToList (r : Rep) : (src dst : List Nat) → Rep × List Nat × List Nat
  | [],       dst => (r, [], dst)
  | w :: src, dst =>
    let (r', ranks, dst) := (r.setVisited w false).moveToList src (dst ++ [w])
    (r', r.rank w :: ranks, dst)

def assignRanks (r : Rep) : (list merged : List Nat) → Rep
  | n :: list, k :: merged => (r.setRank n k).assignRanks list merged
  | _,         _           => r

-- Merges two sorted lists of ranks (`std::merge`).
def merge : (xs ys : List Nat) → List Nat
  | [],      ys => ys
  | x :: xs, ys => head x (merge xs) ys
where
  head (x : Nat) (tail : List Nat → List Nat) : List Nat → List Nat
    | []      => x :: tail []
    | y :: ys => if y < x then y :: head x tail ys else x :: tail (y :: ys)

def reorder (r : Rep) (deltab deltaf : List Nat) : Rep :=
  let deltab := r.sort deltab
  let deltaf := r.sort deltaf
  let (r, deltab, list) := r.moveToList deltab []
  let (r, deltaf, list) := r.moveToList deltaf list
  r.assignRanks list (merge deltab deltaf)

def clearVisitedBits (r : Rep) (visitedIndices : List Nat) : Rep :=
  visitedIndices.foldl (fun r n => r.setVisited n false) r

def insertEdge (r : Rep) (x y : Nat) : Bool × Rep :=
  if x = y then
    (false, r)
  else if ((r.outs x).insert y).1 = false then
    (true, r)
  else
    let r := r.modifyOuts x (·.insert y |>.2)
    let r := r.modifyIns y (·.insert x |>.2)
    if r.rank x ≤ r.rank y then
      (true, r)
    else
      match r.forwardDFS y (r.rank x) with
      | (false, r, deltaf) =>
        let r := r.modifyOuts x (·.erase y)
        let r := r.modifyIns y (·.erase x)
        (false, r.clearVisitedBits deltaf)
      | (true, r, deltaf) =>
        let (r, deltab) := r.backwardDFS x (r.rank y)
        (true, r.reorder deltab deltaf)

def isReachableNonConst (r : Rep) (x y : Nat) : Bool × Rep :=
  if x = y then
    (true, r)
  else if r.rank x ≥ r.rank y then
    (false, r)
  else
    let (found, r, deltaf) := r.forwardDFS x (r.rank y)
    (!found, r.clearVisitedBits deltaf)

-- The result is `none` if the check that the edge exists fails.
def canContractEdge (r : Rep) (a b : Nat) : Option (Bool × Rep) :=
  if ¬r.hasEdge a b then
    none
  else
    let r := r.removeEdge a b
    let (reachable, r) := r.isReachableNonConst a b
    let (_, r) := r.insertEdge a b
    some (!reachable, r)

-- Moves all edges of `b` to `a`. The results of the insertions are ignored.
def mergeInto (r : Rep) (a b : Nat) : Rep :=
  let outs := r.outs b
  let ins := r.ins b
  let r := r.modifyOuts b (fun _ => .empty) |>.modifyIns b (fun _ => .empty)
  let r := r.unlink b outs ins
  let r := { r with freeNodes := b :: r.freeNodes }
  let r := outs.valueSequence.foldl (fun r y => (r.insertEdge a y).2) r
  ins.valueSequence.foldl (fun r y => (r.insertEdge y a).2) r

-- The outer option models the check that the edge exists, the inner one is the result.
def contractEdge (r : Rep) (a b : Nat) : Option (Option Nat × Rep) :=
  if ¬r.hasEdge a b then
    none
  else
    let r := r.removeEdge a b
    match r.isReachableNonConst a b with
    | (true, r)  => some (none, (r.insertEdge a b).2)
    | (false, r) =>
      if (r.ins b).size + (r.outs b).size > (r.ins a).size + (r.outs a).size then
        some (some b, r.mergeInto b a)
      else
        some (some a, r.mergeInto a b)

-- The body of the loop over the successors in `FindPath`.
def findPath.pushOuts : List Nat → (Nat → Bool) × List (Option Nat) → (Nat → Bool) × List (Option Nat)
  | [],      s             => s
  | w :: ws, (seen, stack) =>
    if seen w then
      pushOuts ws (seen, stack)
    else
      pushOuts ws (Function.update seen w true, some w :: stack)

-- The marker on the stack is `none`. The array `path` of the caller is a function on its indices.
def findPath.loop (r : Rep) (y : Nat) (maxPathLen : Int) :
    (fuel : Nat) → (stack : List (Option Nat)) → (seen : Nat → Bool) → (pathLen : Nat) → (path : Nat → Nat) →
    Nat × (Nat → Nat)
  | 0,        _,               _,    _,       path => (0, path)
  | _,        [],              _,    _,       path => (0, path)
  | fuel + 1, none :: stack,   seen, pathLen, path => loop r y maxPathLen fuel stack seen (pathLen - 1) path
  | fuel + 1, some n :: stack, seen, pathLen, path =>
    let path := if pathLen < maxPathLen then Function.update path pathLen n else path
    let pathLen := pathLen + 1
    if n = y then
      (pathLen, path)
    else
      let (seen, stack) := pushOuts (r.outs n).valueSequence (seen, none :: stack)
      loop r y maxPathLen fuel stack seen pathLen path

-- Returns the length of the path and the array. Every node is pushed at most once, apart from `x`, and it is popped with
-- its marker.
def findPath (r : Rep) (x y : Nat) (maxPathLen : Int) (path : Nat → Nat) : Nat × (Nat → Nat) :=
  findPath.loop r y maxPathLen (2 * r.nodes.length + 2) [some x] (fun _ => false) 0 path

-- No node is stored.
def isReachable (r : Rep) (x y : Nat) : Bool :=
  0 < (r.findPath x y 0 fun _ => 0).1

def sortInPostOrder (r : Rep) (toSort : List Nat) : List Nat :=
  toSort.insertionSort fun a b => r.rank a ≥ r.rank b

def allNodesInPostOrder (r : Rep) : List Nat :=
  r.sortInPostOrder ((List.range r.nodes.length).filter (· ∉ r.freeNodes))

end Rep
end GraphCycles
