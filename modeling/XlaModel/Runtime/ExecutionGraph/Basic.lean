import Mathlib.Order.Lattice
import XlaModel.Runtime.ReadWriteSet

namespace Runtime

structure Operation where
  bufferUses   : List BufferUse
  resourceUses : List ResourceUse

namespace ExecutionGraph

-- The kinds are ordered by the strength of their ordering guarantee.
inductive Kind
  | scheduling
  | execution
deriving DecidableEq

def Kind.toNat : Kind → Nat
  | scheduling => 0
  | execution  => 1

instance : LinearOrder Kind :=
  LinearOrder.lift' Kind.toNat <| by
    intro a b
    cases a <;> cases b <;> simp [Kind.toNat]

def Kind.of : Resource.Kind → Kind
  | .token                  => .execution
  | .collectiveCommunicator => .scheduling

structure NodeEdge where
  kind : Kind
  id   : Nat
deriving DecidableEq

structure NodeDefBuilder where
  id       : Nat
  outEdges : List NodeEdge
  inEdges  : List NodeEdge
  priority : Nat
deriving DecidableEq

-- The spans of the source that point into the shared vectors of edges are lists here.
structure NodeDef where
  id       : Nat
  inEdges  : List NodeEdge
  outEdges : List NodeEdge
  priority : Nat
deriving DecidableEq

abbrev Builders := List NodeDefBuilder

namespace Builders

def get (bs : Builders) (i : Nat) : NodeDefBuilder :=
  bs.getD i ⟨0, [], [], 0⟩

def outEdges (bs : Builders) (i : Nat) : List NodeEdge :=
  (bs.get i).outEdges

def inEdges (bs : Builders) (i : Nat) : List NodeEdge :=
  (bs.get i).inEdges

def modifyOut (bs : Builders) (i : Nat) (f : List NodeEdge → List NodeEdge) : Builders :=
  bs.modify i fun b => { b with outEdges := f b.outEdges }

def modifyIn (bs : Builders) (i : Nat) (f : List NodeEdge → List NodeEdge) : Builders :=
  bs.modify i fun b => { b with inEdges := f b.inEdges }

def setId (bs : Builders) (i : Nat) : Builders :=
  bs.modify i ({ · with id := i })

def setPriority (bs : Builders) (i p : Nat) : Builders :=
  bs.modify i ({ · with priority := p })

def addEdge (bs : Builders) (kind : Kind) (j i : Nat) : Builders :=
  bs.modifyOut j (· ++ [⟨kind, i⟩]) |>.modifyIn i (· ++ [⟨kind, j⟩])

-- The index of the first edge that does not precede `id` (`absl::c_lower_bound`).
def lowerBound (edges : List NodeEdge) (id : Nat) : Nat :=
  edges.findIdx (¬·.id < id)

-- Returns the number of erased edges.
def eraseEdge (bs : Builders) (src dst : Nat) (kind : Kind) : Nat × Builders :=
  match bs.outEdges src |>.getLast?, bs.inEdges dst |>.head? with
  | some back, some front =>
    if back.id < dst ∨ front.id > src then
      (0, bs)
    else
      let outIdx := lowerBound (bs.outEdges src) dst
      let inIdx := lowerBound (bs.inEdges dst) src
      match (bs.outEdges src)[outIdx]?, (bs.inEdges dst)[inIdx]? with
      | some outEdge, some inEdge =>
        if outEdge.id ≠ dst ∨ inEdge.kind > kind then
          (0, bs)
        else
          (1, bs.modifyOut src (·.eraseIdx outIdx) |>.modifyIn dst (·.eraseIdx inIdx))
      | _, _ => (0, bs)
  | _, _ => (0, bs)

end Builders

def edgeKind (uses : List ResourceUse) : Kind :=
  if uses.any (Kind.of ·.resource.kind = .execution) then .execution else .scheduling

-- The kind of the edge between two operations, if there is one.
def conflictKind (a b : Operation) : Option Kind :=
  let bufferRwset (op : Operation) := BufferUse.ReadWriteSet.empty.addAll op.bufferUses
  let resourceRwset (op : Operation) := ResourceUse.ReadWriteSet.empty.addAll op.resourceUses
  if (bufferRwset a).hasConflicts (bufferRwset b) then
    some .execution
  else if (resourceRwset a).hasConflicts (resourceRwset b) then
    some <| edgeKind <| (resourceRwset a).conflicts (resourceRwset b)
  else
    none

-- The body of the inner loop that adds the edges of an operation.
def connect (ops : List Operation) (i : Nat) (bs : Builders) (j : Nat) : Builders :=
  match ops[j]?, ops[i]? with
  | some a, some b =>
    match conflictKind a b with
    | some kind => bs.addEdge kind j i
    | none      => bs
  | _, _ => bs

def connectAll (ops : List Operation) : Builders :=
  (List.range ops.length).foldl
    (fun bs i => (List.range i).foldl (connect ops i) (bs.setId i))
    (List.replicate ops.length ⟨0, [], [], 0⟩)

-- The head of `stack` is the back of the vector in the source.
structure DfsState where
  stack              : List NodeEdge
  visited            : List Bool
  numExecutionEdges  : Nat
  numSchedulingEdges : Nat

namespace DfsState

def empty : DfsState where
  stack              := []
  visited            := []
  numExecutionEdges  := 0
  numSchedulingEdges := 0

def isVisited (s : DfsState) (id : Nat) : Bool :=
  s.visited.getD id false

def markVisited (s : DfsState) (id : Nat) : DfsState :=
  { s with visited := s.visited.set id true }

def push (s : DfsState) (edge : NodeEdge) : DfsState :=
  if s.isVisited edge.id then
    s
  else
    let s := match edge.kind with
      | .execution  => { s with numExecutionEdges := s.numExecutionEdges + 1 }
      | .scheduling => { s with numSchedulingEdges := s.numSchedulingEdges + 1 }
    { s with stack := edge :: s.stack }.markVisited edge.id

def pushAll (s : DfsState) (edges : List NodeEdge) : DfsState :=
  edges.foldl push s

def pop (s : DfsState) : Option (NodeEdge × DfsState) :=
  match s.stack with
  | []            => none
  | edge :: stack =>
    let s := match edge.kind with
      | .execution  => { s with numExecutionEdges := s.numExecutionEdges - 1 }
      | .scheduling => { s with numSchedulingEdges := s.numSchedulingEdges - 1 }
    some (edge, { s with stack })

-- The counters are not reset.
def clear (s : DfsState) (numNodes : Nat) : DfsState :=
  { s with stack := [], visited := List.replicate numNodes false }

def numVisited (s : DfsState) : Nat :=
  s.visited.count true

end DfsState

structure Reduction where
  builders  : Builders
  state     : DfsState
  numErased : Nat

namespace Reduction

-- The kind of an edge from `src` that may be erased when `node` is reached via `outEdge`.
def eraseKind (outEdge node : NodeEdge) (state : DfsState) : Kind :=
  if outEdge.kind = .scheduling ∨ node.kind = .scheduling ∨ state.numSchedulingEdges ≠ 0 then
    .scheduling
  else
    .execution

-- A node is only pushed when it is not visited, so the number of nodes bounds the iterations.
def traverse (src : Nat) (outEdge : NodeEdge) : (fuel : Nat) → Reduction → Reduction
  | 0,        r => r
  | fuel + 1, r =>
    match r.state.pop with
    | none               => r
    | some (node, state) =>
      let (erased, bs) := r.builders.eraseEdge src node.id (eraseKind outEdge node state)
      traverse src outEdge fuel {
        builders  := bs
        state     := state.pushAll (bs.outEdges node.id)
        numErased := r.numErased + erased
      }

def followEdge (src : Nat) (r : Reduction) (outEdge : NodeEdge) : Reduction :=
  let state := r.state.markVisited outEdge.id |>.pushAll (r.builders.outEdges outEdge.id)
  traverse src outEdge r.builders.length { r with state }

def reduceNode (r : Reduction) (i : Nat) : Reduction :=
  let r := { r with state := r.state.clear r.builders.length }
  let r := (r.builders.outEdges i).foldl (followEdge i) r
  { r with builders := r.builders.setPriority i r.state.numVisited }

end Reduction

def runTransitiveReductionAndUpdatePriorities (bs : Builders) : Reduction :=
  (List.range bs.length).reverse.foldl Reduction.reduceNode ⟨bs, .empty, 0⟩

def createNodeDefs (bs : Builders) : List NodeDef :=
  bs.map fun b => ⟨b.id, b.inEdges, b.outEdges, b.priority⟩

end ExecutionGraph

open ExecutionGraph

structure ExecutionGraph where
  nodesDefs    : List NodeDef
  source       : List Nat
  sink         : List Nat
  isSequential : Bool

namespace ExecutionGraph

def ofNodesDefs (nodesDefs : List NodeDef) : ExecutionGraph :=
  let node i := nodesDefs.getD i ⟨0, [], [], 0⟩
  {
    nodesDefs
    source       := (List.range nodesDefs.length).filter fun i => (node i).inEdges.isEmpty
    sink         := (List.range nodesDefs.length).filter fun i => (node i).outEdges.isEmpty
    isSequential := (List.range nodesDefs.length).all fun i =>
      i = 0 ∨ (node i).inEdges.any (·.id = i - 1)
  }

def outEdges (g : ExecutionGraph) (i : Nat) : List NodeEdge :=
  (g.nodesDefs.getD i ⟨0, [], [], 0⟩).outEdges

def inEdges (g : ExecutionGraph) (i : Nat) : List NodeEdge :=
  (g.nodesDefs.getD i ⟨0, [], [], 0⟩).inEdges

def priority (g : ExecutionGraph) (i : Nat) : Nat :=
  (g.nodesDefs.getD i ⟨0, [], [], 0⟩).priority

def maxNodeId : Nat := 2147483647

def create (ops : List Operation) : Except String ExecutionGraph :=
  if ops.length > maxNodeId then
    .error s!"Can't create ExecutionGraph for more than {maxNodeId} operations"
  else
    let r := runTransitiveReductionAndUpdatePriorities (connectAll ops)
    .ok <| ofNodesDefs <| createNodeDefs r.builders

end ExecutionGraph
end Runtime
