import Mathlib.Data.Multiset.AddSub
import Mathlib.Data.Set.Basic
import XlaModel.Lib.Atomic
import XlaModel.Lib.Transition
import XlaModel.Runtime.ThunkExecutor.ReadyQueue

namespace Runtime.ThunkExecutor

open ExecutionGraph

inductive ReadyQueueType
  | fifo
  | lifo
  | priority

namespace ReadyQueue

def create (g : ExecutionGraph) (readyNodes : List Nat) : ReadyQueueType → ReadyQueue
  | .fifo     => .fifo (.ofReadyNodes readyNodes)
  | .lifo     => .lifo (.ofReadyNodes readyNodes)
  | .priority => .priority (.ofReadyNodes g.nodesDefs readyNodes)

def isEmpty : ReadyQueue → Bool
  | fifo q     => q.isEmpty
  | lifo q     => q.isEmpty
  | priority q => q.isEmpty

end ReadyQueue

structure ExecuteParams where
  hasRunner       : Bool
  splitThreshold  : Int
  executeMayBlock : Nat → Bool

-- What a thread can know to have happened before. A node is visited when its thunk is either executed or skipped.
inductive Occurrence
  | visited (id : Nat)
  | completed (id : Nat)
  | aborted

abbrev View := Set Occurrence

variable {ε : Type}

-- The state of a thunk and of its execute event. The status of an event is `none` unless there is an error.
inductive ThunkState (ε : Type)
  | idle
  | skipped
  | running (view : View)
  | finished (status : Option ε) (view : View)

inductive Action (ε : Type)
  | internal
  | start (id : Nat) (view : View)
  | skip (id : Nat) (view : View)
  | complete (id : Nat) (status : Option ε)
  | abort (error : ε)
  | increment (id : Nat)
  | decrement (id outId : Nat) (view : View)
  | drop (id : Nat) (view : View)
  | resolve (status : Option ε) (view : View)

structure ExecuteState (ε : Type) where
  node         : Nat → Atomic View
  thunk        : Nat → ThunkState ε
  executeEvent : Option (Option ε)
  pendingNodes : Atomic View
  abort        : Bool
  abortStatus  : Option ε

namespace ExecuteState

def create (ε : Type) (g : ExecutionGraph) : ExecuteState ε where
  node id      := { value := (g.inEdges id).length, view := ∅ }
  thunk        := fun _ => .idle
  executeEvent := none
  pendingNodes := { value := g.sink.length, view := ∅ }
  abort        := false
  abortStatus  := none

variable (s : ExecuteState ε)

def setThunk (id : Nat) (thunk : ThunkState ε) : ExecuteState ε :=
  { s with thunk := Function.update s.thunk id thunk }

-- The event of a thunk that runs becomes available at any time.
def completeThunk (id : Nat) (status : Option ε) : ExecuteState ε :=
  match s.thunk id with
  | .running view => s.setThunk id <| .finished status (view ∪ {.completed id})
  | _             => s

def apply : Action ε → ExecuteState ε
  | .internal               => s
  | .start id view          => s.setThunk id (.running view)
  | .skip id _              => s.setThunk id .skipped
  | .complete id status     => s.completeThunk id status
  | .abort error            => { s with abort := true, abortStatus := s.abortStatus <|> some error }
  | .increment _            => { s with pendingNodes := s.pendingNodes.fetchAdd .relaxed 1 ∅ }
  | .decrement _ outId view => { s with node := Function.update s.node outId ((s.node outId).fetchSub .release 1 view) }
  | .drop _ view            => { s with pendingNodes := s.pendingNodes.fetchSub .acqRel 1 view }
  | .resolve status _       => { s with executeEvent := some status }

-- The queue after the counter of a node has been decremented.
def push (id : Nat) (readyQueue : ReadyQueue) : ReadyQueue :=
  if (s.node id).value = 1 then readyQueue.push id else readyQueue

end ExecuteState

-- The part of the code that a thread is going to execute for a node.
inductive Stage (ε : Type)
  | execute
  | splitReadyQueue (id : Nat)
  | runThunk (id : Nat)
  | checkEvent (id : Nat)
  | processScheduledOutEdges (id : Nat) (outEdges : List NodeEdge) (incPendingNodes : Bool)
  | continuation (id : Nat) (dropPendingNodes : Bool)
  | processCompletedOutEdges (id : Nat) (status : Option ε) (processSchedulingEdges dropPendingNodes : Bool)
  | processOutEdges (id : Nat) (outEdges : List NodeEdge) (processSchedulingEdges dropPendingNodes : Bool)
  | complete

structure Task (ε : Type) where
  stage      : Stage ε
  readyQueue : ReadyQueue
  view       : View

def isSink (g : ExecutionGraph) (id : Nat) : Bool :=
  (g.outEdges id).isEmpty

section

variable (g : ExecutionGraph) (params : ExecuteParams) (s : ExecuteState ε)

def mayOffload (id : Nat) (q : ReadyQueue) : Prop :=
  params.executeMayBlock id ∧ ¬q.isEmpty ∧ params.hasRunner

-- The stage after a node has been popped.
def popStage (id : Nat) (q : ReadyQueue) : Stage ε :=
  if params.splitThreshold < q.size ∧ params.hasRunner then .splitReadyQueue id else .runThunk id

-- The steps of a thread. A task can be replaced by several tasks, when work is offloaded to the task runner or when a
-- continuation is attached to the event of a thunk.
inductive TaskStep : Task ε → Action ε → Multiset (Task ε) → Prop
  | finish (h : q.isEmpty) :
    TaskStep ⟨.execute, q, v⟩ .internal 0
  | pop (h : q.pop = some (i, q')) :
    TaskStep ⟨.execute, q, v⟩ .internal {⟨popStage params i q', q', (s.node i).load .acquire v⟩}
  | split (h : (params.splitThreshold % 2 ^ 64).toNat < q.size) (hp : q.popHalf = some (popped, kept)) :
    TaskStep ⟨.splitReadyQueue i, q, v⟩ .internal {⟨.splitReadyQueue i, kept, v⟩, ⟨.execute, popped, v⟩}
  -- The queue is small enough, or the session does not accept another worker.
  | stopSplit :
    TaskStep ⟨.splitReadyQueue i, q, v⟩ .internal {⟨.runThunk i, q, v⟩}
  | offload (h : mayOffload params i q) :
    TaskStep ⟨.runThunk i, q, v⟩ .internal {⟨.execute, q, v⟩, ⟨.execute, q.createEmptyReadyQueue.push i, v⟩}
  -- The relaxed load of the flag can return an old value, unless the thread knows about the abort.
  | run (h : ¬mayOffload params i q) (ha : .aborted ∉ v) :
    TaskStep ⟨.runThunk i, q, v⟩ (.start i (v ∪ {.visited i})) {⟨.checkEvent i, q, v ∪ {.visited i}⟩}
  | skip (h : ¬mayOffload params i q) (ha : s.abort) :
    TaskStep ⟨.runThunk i, q, v⟩ (.skip i (v ∪ {.visited i, .aborted}))
      {⟨.processCompletedOutEdges i none true (isSink g i), q, v ∪ {.visited i, .aborted}⟩}
  | available (h : s.thunk i = .finished status w) :
    TaskStep ⟨.checkEvent i, q, v⟩ .internal {⟨.processCompletedOutEdges i status true (isSink g i), q, v ∪ w⟩}
  | unavailable :
    TaskStep ⟨.checkEvent i, q, v⟩ .internal {⟨.processScheduledOutEdges i (g.outEdges i) false, q, v⟩}
  | passExecutionEdge (h : e.kind = .execution) :
    TaskStep ⟨.processScheduledOutEdges i (e :: es) inc, q, v⟩ .internal {⟨.processScheduledOutEdges i es inc, q, v⟩}
  | increment (h : e.kind = .scheduling) :
    TaskStep ⟨.processScheduledOutEdges i (e :: es) false, q, v⟩ (.increment i)
      {⟨.processScheduledOutEdges i (e :: es) true, q, v⟩}
  | schedule (h : e.kind = .scheduling) :
    TaskStep ⟨.processScheduledOutEdges i (e :: es) true, q, v⟩ (.decrement i e.id v)
      {⟨.processScheduledOutEdges i es true, s.push e.id q, v⟩}
  | attach :
    TaskStep ⟨.processScheduledOutEdges i [] inc, q, v⟩ .internal
      {⟨.execute, q, v⟩, ⟨.continuation i (isSink g i || inc), q.createEmptyReadyQueue, v⟩}
  | resume (h : s.thunk i = .finished status w) :
    TaskStep ⟨.continuation i drop, q, v⟩ .internal {⟨.processCompletedOutEdges i status false drop, q, v ∪ w⟩}
  | fail :
    TaskStep ⟨.processCompletedOutEdges i (some error) all drop, q, v⟩ (.abort error)
      {⟨.processOutEdges i (g.outEdges i) all drop, q, v ∪ {.aborted}⟩}
  | succeed :
    TaskStep ⟨.processCompletedOutEdges i none all drop, q, v⟩ .internal
      {⟨.processOutEdges i (g.outEdges i) all drop, q, v⟩}
  | passSchedulingEdge (h : e.kind = .scheduling) :
    TaskStep ⟨.processOutEdges i (e :: es) false drop, q, v⟩ .internal {⟨.processOutEdges i es false drop, q, v⟩}
  | process (h : all = true ∨ e.kind ≠ .scheduling) :
    TaskStep ⟨.processOutEdges i (e :: es) all drop, q, v⟩ (.decrement i e.id v)
      {⟨.processOutEdges i es all drop, s.push e.id q, v⟩}
  | keep :
    TaskStep ⟨.processOutEdges i [] all false, q, v⟩ .internal {⟨.execute, q, v⟩}
  | drop :
    TaskStep ⟨.processOutEdges i [] all true, q, v⟩ (.drop i v)
      {⟨if s.pendingNodes.value = 1 then .complete else .execute, q, s.pendingNodes.load .acqRel v⟩}
  | resolveError (h : s.abort) :
    TaskStep ⟨.complete, q, v⟩ (.resolve s.abortStatus v) {⟨.execute, q, v⟩}
  | resolve (h : .aborted ∉ v) :
    TaskStep ⟨.complete, q, v⟩ (.resolve none v) {⟨.execute, q, v⟩}

end

-- The latest action comes first.
structure State (ε : Type) where
  shared  : ExecuteState ε
  tasks   : Multiset (Task ε)
  history : List (Action ε)

inductive Step (g : ExecutionGraph) (params : ExecuteParams) : State ε → Action ε → State ε → Prop
  | task (h : TaskStep g params s t a ts) :
    Step g params ⟨s, t ::ₘ rest, history⟩ a ⟨s.apply a, ts + rest, a :: history⟩
  | complete (h : s.thunk i = .running view) (status : Option ε) :
    Step g params ⟨s, tasks, history⟩ (.complete i status)
      ⟨s.apply (.complete i status), tasks, .complete i status :: history⟩

def State.init (ε : Type) (g : ExecutionGraph) (type : ReadyQueueType) : State ε where
  shared  := .create ε g
  tasks   := {⟨.execute, .create g g.source type, ∅⟩}
  history := []

def system (ε : Type) (g : ExecutionGraph) (params : ExecuteParams) (type : ReadyQueueType) :
    Transition (State ε) (Action ε) where
  init s := s = .init ε g type
  step   := Step g params

end Runtime.ThunkExecutor
