import XlaModel.Lib.Heap
import XlaModel.Runtime.ExecutionGraph.Basic

namespace Runtime.ThunkExecutor

open ExecutionGraph Heap

-- A ready queue that executes nodes in FIFO order. The nodes in front of `head` have been popped.
structure FifoReadyQueue where
  queue   : List Nat
  head    : Nat
  head_le : head ≤ queue.length

namespace FifoReadyQueue

variable (q : FifoReadyQueue)

def ofReadyNodes (readyNodes : List Nat) : FifoReadyQueue where
  queue   := readyNodes
  head    := 0
  head_le := Nat.zero_le _

def size : Nat :=
  q.queue.length - q.head

def isEmpty : Bool :=
  q.head = q.queue.length

def push (id : Nat) : FifoReadyQueue where
  queue   := q.queue ++ [id]
  head    := q.head
  head_le := by
    rw [List.length_append]
    exact Nat.le_add_right_of_le q.head_le

-- The operations that remove nodes return `none` if a `DCHECK` fails.
def pop : Option (Nat × FifoReadyQueue) :=
  if h : q.head < q.queue.length then
    some (q.queue[q.head], ⟨q.queue, q.head + 1, h⟩)
  else
    none

-- Returns the nodes that are removed and the nodes that stay.
def popHalf : Option (FifoReadyQueue × FifoReadyQueue) :=
  if q.isEmpty then none
  else
    let mid := q.head + q.size / 2
    some (ofReadyNodes (q.queue.drop mid), {
      queue   := q.queue.take mid
      head    := q.head
      head_le := by
        rw [List.length_take]
        exact Nat.le_min.mpr ⟨Nat.le_add_right _ _, q.head_le⟩
    })

end FifoReadyQueue

-- A ready queue that executes nodes in LIFO order. The nodes are pushed to the end of the list.
structure LifoReadyQueue where
  queue : List Nat

namespace LifoReadyQueue

variable (q : LifoReadyQueue)

def ofReadyNodes (readyNodes : List Nat) : LifoReadyQueue :=
  ⟨readyNodes⟩

def size : Nat :=
  q.queue.length

def isEmpty : Bool :=
  q.queue.isEmpty

def push (id : Nat) : LifoReadyQueue :=
  ⟨q.queue ++ [id]⟩

def pop : Option (Nat × LifoReadyQueue) := do
  return (← q.queue.getLast?, ⟨q.queue.dropLast⟩)

def popHalf : Option (LifoReadyQueue × LifoReadyQueue) :=
  if q.isEmpty then none
  else
    let mid := q.size / 2 + 1
    some (ofReadyNodes (q.queue.take mid), ⟨q.queue.drop mid⟩)

end LifoReadyQueue

def priority (nodesDefs : List NodeDef) (id : Nat) : Nat :=
  (nodesDefs.getD id ⟨0, [], [], 0⟩).priority

-- A ready queue that executes nodes sorted by their priority.
structure PriorityReadyQueue where
  nodesDefs : List NodeDef
  queue     : PriorityQueue (priority nodesDefs)

namespace PriorityReadyQueue

variable (q : PriorityReadyQueue)

def ofReadyNodes (nodesDefs : List NodeDef) (readyNodes : List Nat) : PriorityReadyQueue where
  nodesDefs := nodesDefs
  queue     := .ofList readyNodes

def size : Nat :=
  q.queue.size

def isEmpty : Bool :=
  q.queue.isEmpty

def push (id : Nat) : PriorityReadyQueue :=
  ⟨q.nodesDefs, q.queue.push id⟩

def pop : Option (Nat × PriorityReadyQueue) := do
  return (← q.queue.top?, ⟨q.nodesDefs, q.queue.pop⟩)

-- Moves nodes with the highest priority from the first queue to the second one.
def keepTopNodes {nodesDefs : List NodeDef} : Nat → PriorityQueue (priority nodesDefs) → PriorityQueue (priority nodesDefs) →
    PriorityQueue (priority nodesDefs) × PriorityQueue (priority nodesDefs)
  | 0,     queue, popped => (queue, popped)
  | n + 1, queue, popped =>
    match queue.top? with
    | none    => (queue, popped)
    | some id => keepTopNodes n queue.pop (popped.push id)

def popHalf : Option (PriorityReadyQueue × PriorityReadyQueue) :=
  if q.isEmpty then none
  else
    let (queue, popped) := keepTopNodes (q.size / 2) q.queue (.ofList [])
    some (⟨q.nodesDefs, queue⟩, ⟨q.nodesDefs, popped⟩)

end PriorityReadyQueue

-- The types that instantiate the template.
inductive ReadyQueue
  | fifo (q : FifoReadyQueue)
  | lifo (q : LifoReadyQueue)
  | priority (q : PriorityReadyQueue)

namespace ReadyQueue

def size : ReadyQueue → Nat
  | fifo q     => q.size
  | lifo q     => q.size
  | priority q => q.size

def push (id : Nat) : ReadyQueue → ReadyQueue
  | fifo q     => .fifo (q.push id)
  | lifo q     => .lifo (q.push id)
  | priority q => .priority (q.push id)

def pop : ReadyQueue → Option (Nat × ReadyQueue)
  | fifo q     => q.pop.map (Prod.map id .fifo)
  | lifo q     => q.pop.map (Prod.map id .lifo)
  | priority q => q.pop.map (Prod.map id .priority)

def popHalf : ReadyQueue → Option (ReadyQueue × ReadyQueue)
  | fifo q     => q.popHalf.map (Prod.map .fifo .fifo)
  | lifo q     => q.popHalf.map (Prod.map .lifo .lifo)
  | priority q => q.popHalf.map (Prod.map .priority .priority)

def createEmptyReadyQueue : ReadyQueue → ReadyQueue
  | fifo _     => .fifo (.ofReadyNodes [])
  | lifo _     => .lifo (.ofReadyNodes [])
  | priority q => .priority (.ofReadyNodes q.nodesDefs [])

end ReadyQueue

-- Returns the queues that are offloaded to the task runner and the queue that stays in the thread. The size is unsigned,
-- so that the threshold is converted to an unsigned integer as well. `tryJoin` tells whether each attempt to join the
-- execute session succeeds.
def splitReadyQueue (splitThreshold : Int) (tryJoin : Nat → Bool) :
    Nat → Nat → ReadyQueue → Option (Option (List ReadyQueue × ReadyQueue))
  | 0,        _,       _          => none
  | fuel + 1, attempt, readyQueue =>
    if (splitThreshold % 2 ^ 64).toNat < readyQueue.size then
      if tryJoin attempt then
        match readyQueue.popHalf with
        | none                => some none
        | some (popped, kept) => do
          let rest ← splitReadyQueue splitThreshold tryJoin fuel (attempt + 1) kept
          return rest.map (Prod.map (popped :: ·) id)
      else
        some (some ([], readyQueue))
    else
      some (some ([], readyQueue))

end Runtime.ThunkExecutor
