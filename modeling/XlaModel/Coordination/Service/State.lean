import Mathlib.Tactic
import XlaModel.Lib.MapVector

namespace Coordination

abbrev TaskId := Int

inductive StatusCode where
  | ok
  | cancelled
  | unknown
  | invalidArgument
  | deadlineExceeded
  | notFound
  | alreadyExists
  | permissionDenied
  | resourceExhausted
  | failedPrecondition
  | aborted
  | outOfRange
  | unimplemented
  | internal
  | unavailable
  | dataLoss
  | unauthenticated
  deriving DecidableEq

def StatusCode.number : StatusCode → Nat
  | ok                 => 0
  | cancelled          => 1
  | unknown            => 2
  | invalidArgument    => 3
  | deadlineExceeded   => 4
  | notFound           => 5
  | alreadyExists      => 6
  | permissionDenied   => 7
  | resourceExhausted  => 8
  | failedPrecondition => 9
  | aborted            => 10
  | outOfRange         => 11
  | unimplemented      => 12
  | internal           => 13
  | unavailable        => 14
  | dataLoss           => 15
  | unauthenticated    => 16

structure CoordinationServiceError where
  isReportedError : Bool := false
  sourceTaskId    : TaskId := 0
  deriving DecidableEq

structure BarrierError where
  barrierId : String
  counter   : Int
  deriving DecidableEq

-- The payloads are given by the messages that they are parsed to.
structure Status where
  code              : StatusCode
  message           : String := ""
  coordinationError : Option CoordinationServiceError := none
  barrierError      : Option BarrierError := none
  deriving DecidableEq

namespace Status

def okStatus : Status where
  code := .ok

def ok (s : Status) : Bool :=
  s.code = .ok

def isCancelled (s : Status) : Bool :=
  s.code = .cancelled

def isUnavailable (s : Status) : Bool :=
  s.code = .unavailable

end Status

def makeCoordinationError (s : Status) : Status :=
  { s with coordinationError := some {} }

def makeTaskError (s : Status) (task : TaskId) : Status :=
  { s with coordinationError := some { sourceTaskId := task } }

def makeBarrierError (s : Status) (barrierId : String) (counter : Int) : Status :=
  makeCoordinationError { s with barrierError := some { barrierId, counter } }

@[simp]
theorem makeCoordinationError_ok : (makeCoordinationError s).ok = s.ok :=
  rfl

@[simp]
theorem makeTaskError_ok : (makeTaskError s task).ok = s.ok :=
  rfl

@[simp]
theorem makeBarrierError_ok : (makeBarrierError s barrierId counter).ok = s.ok :=
  rfl

end Coordination

namespace Coordination

-- Durations are in microseconds.
structure CoordinationService.Config where
  clusterRegisterTimeout     : Int := 3600000000
  clusterRegisterWithBarrier : Bool := false
  heartbeatTimeout           : Int := 10000000
  numTasks                   : Nat
  shutdownBarrierTimeout     : Int := 0
  recoverable                : Bool := false

-- The constants of a service. The text of a status is defined by the library of statuses.
structure CoordinationService extends CoordinationService.Config where
  incarnation : Nat
  toString    : Status → String

namespace CoordinationService

-- What an operation depends on besides the state: the time in microseconds and
-- the order in which the elements of hash tables are visited.
structure Env where
  now   : Int
  order : ∀ {α : Type}, List α → List α
  perm  : ∀ {α : Type} (l : List α), (order l).Perm l

attribute [simp] Env.perm

variable (c : CoordinationService)

def clusterRegisterBarrierId : String :=
  "[Init]Wait_for_all_tasks_to_register"

def shutdownBarrierId : String :=
  "Shutdown::" ++ Nat.repr c.incarnation

def tasks : List TaskId :=
  (List.range c.numTasks).map Nat.cast

def contains (task : TaskId) : Bool :=
  0 ≤ task ∧ task < c.numTasks

theorem mem_tasks : task ∈ c.tasks ↔ c.contains task := by
  simp only [tasks, contains, List.mem_map, List.mem_range, decide_eq_true_eq]
  constructor
  · rintro ⟨n, hn, rfl⟩
    exact ⟨Int.natCast_nonneg n, Int.ofNat_lt.mpr hn⟩
  · rintro ⟨h₀, hn⟩
    exact ⟨task.toNat, (Int.toNat_lt h₀).mpr hn, Int.toNat_of_nonneg h₀⟩

theorem nodup_tasks : c.tasks.Nodup :=
  List.nodup_range.map Nat.cast_injective

@[simp]
theorem length_tasks : c.tasks.length = c.numTasks := by
  simp [tasks]

inductive TaskState.Value where
  | disconnected
  | connected
  | error
  deriving DecidableEq

structure TaskState where
  incarnation           : Nat := 0
  state                 : TaskState.Value := .disconnected
  status                : Status := .okStatus
  lastHeartbeat         : Int := 0
  disconnectGracePeriod : Int := 0
  ongoingBarriers       : List String := []

-- A callback is identified by the call of the client that it belongs to.
inductive BarrierCallback where
  | user (call : Nat)
  | connect (task : TaskId) (incarnation : Nat) (call : Nat)
  | shutdown (call : Nat)
  deriving DecidableEq

structure BarrierState where
  id              : String := ""
  counter         : Int := 0
  passed          : Bool := false
  result          : Status := { code := .unknown, message := "Invalid barrier result." }
  deadline        : Int := 0
  numPendingTasks : Int := 0
  tasksAtBarrier  : List (TaskId × Bool) := []
  doneCallbacks   : List (TaskId × BarrierCallback) := []
  initiatingTask  : TaskId := 0

structure AlivenessState where
  tasks     : List TaskId
  inBarrier : List TaskId := []
  dones     : List Nat := []

structure ErrorPollingState where
  responded     : Bool := false
  error         : Status := .okStatus
  doneCallbacks : List (TaskId × Nat) := []

structure TaskInfo where
  state        : TaskState.Value
  incarnation  : Nat
  taskId       : TaskId
  errorCode    : StatusCode
  errorMessage : String
  errorPayload : Option CoordinationServiceError
  deriving DecidableEq

inductive Op where
  | registerTask (task : TaskId) (incarnation : Nat)
  | shutdownTask (task : TaskId)
  | resetTask (task : TaskId)
  | recordHeartbeat (task : TaskId) (incarnation : Nat)
  | reportTaskError (task : TaskId) (error : Status)
  | watchTasks (versionNumber : Option Int)
  | barrierAsync (id : String) (counter timeout : Int) (task : TaskId) (participants : List TaskId)
  | cancelBarrier (id : String) (counter : Int) (task : TaskId)
  | getAliveTasks (task : TaskId) (tasks : List TaskId)
  | pollForError (task : TaskId)
  | checkStaleness
  deriving DecidableEq

-- Why the callback of a barrier is called.
inductive Cause where
  | ended
  | repeated
  | notInitialized
  | notDisconnected
  | superseded
  | stale
  deriving DecidableEq

-- The calls of the clients, the callbacks that are invoked for them (a status that is returned by
-- a function counts as such), and what happens to barriers and incarnations in the meantime.
inductive Event where
  | called (call : Nat) (op : Op)
  | done (call : Nat) (status : Status)
  | watch (call : Nat) (infos : List TaskInfo) (version : Int)
  | alive (release call : Nat) (status : Status) (tasks : List TaskId) (incarnations : List Nat)
  | reply (cause : Cause) (id : String) (counter : Int) (callback : BarrierCallback) (status : Status)
  | handed (id : String) (callback : BarrierCallback)
  | initialized (id : String) (counter : Int) (tasks : List TaskId)
  | accepted (id : String) (counter : Int) (task : TaskId) (callback : BarrierCallback)
  | left (id : String) (task : TaskId)
  | ended (id : String) (counter : Int) (result : Status)
  | registered (task : TaskId) (incarnation : Nat)
  deriving DecidableEq

structure Entry where
  event   : Event
  cluster : TaskId → TaskState

-- The service has a task state for the tasks that it contains, and a barrier state for all ids:
-- that of an unknown id has the default values. The log starts with the latest entry.
structure State where
  cluster               : TaskId → TaskState := fun _ => {}
  version               : Int := 0
  watchCallbacks        : List Nat := []
  barriers              : String → BarrierState := fun _ => {}
  ongoingBarriers       : List String := []
  alivenessStates       : List AlivenessState := []
  clientPollingForError : Bool := false
  errorPolling          : ErrorPollingState := {}
  shutdownBarrierTasks  : List TaskId := []
  log                   : List Entry := []
  time                  : Nat := 0

namespace TaskState

def setConnected (task : TaskState) (now : Int) : TaskState :=
  { task with state := .connected, status := .okStatus, lastHeartbeat := now }

def disconnect (task : TaskState) (gracePeriod now : Int) : TaskState :=
  { task with state := .disconnected, status := .okStatus, disconnectGracePeriod := now + gracePeriod }

def setError (task : TaskState) (status : Status) : TaskState :=
  { task with state := .error, status }

def joinBarrier (task : TaskState) (id : String) : TaskState :=
  { task with ongoingBarriers := task.ongoingBarriers.insert id }

def exitBarrier (task : TaskState) (id : String) : TaskState :=
  { task with ongoingBarriers := task.ongoingBarriers.filter (· ≠ id) }

variable {task : TaskState}

@[simp]
theorem ongoingBarriers_setConnected : (task.setConnected now).ongoingBarriers = task.ongoingBarriers :=
  rfl

@[simp]
theorem ongoingBarriers_disconnect : (task.disconnect gracePeriod now).ongoingBarriers = task.ongoingBarriers :=
  rfl

@[simp]
theorem ongoingBarriers_setError : (task.setError error).ongoingBarriers = task.ongoingBarriers :=
  rfl

def timeSinceLastHeartbeatMs (task : TaskState) (now : Int) : Int :=
  (now - task.lastHeartbeat) / 1000

def isDisconnectedBeyondGracePeriod (task : TaskState) (now : Int) : Bool :=
  task.state = .disconnected ∧ now > task.disconnectGracePeriod

end TaskState

namespace BarrierState

def isUninitialized (b : BarrierState) : Bool :=
  b.id = "" ∧ b.counter = 0 ∧ ¬b.passed ∧ b.deadline = 0 ∧ b.numPendingTasks = 0

def participants (b : BarrierState) : List TaskId :=
  MapVector.keys b.tasksAtBarrier

def atBarrier (b : BarrierState) (task : TaskId) : Bool :=
  (MapVector.find b.tasksAtBarrier task).getD false

def reach (b : BarrierState) (task : TaskId) : BarrierState :=
  { b with
    tasksAtBarrier  := MapVector.set b.tasksAtBarrier task true
    numPendingTasks := b.numPendingTasks - 1 }

def leave (b : BarrierState) (task : TaskId) : BarrierState :=
  { b with
    tasksAtBarrier  := MapVector.set b.tasksAtBarrier task false
    numPendingTasks := if b.atBarrier task then b.numPendingTasks + 1 else b.numPendingTasks }

def addCallback (b : BarrierState) (task : TaskId) (done : BarrierCallback) : BarrierState :=
  { b with doneCallbacks := MapVector.set b.doneCallbacks task done }

def eraseCallback (b : BarrierState) (task : TaskId) : BarrierState :=
  { b with doneCallbacks := MapVector.erase b.doneCallbacks task }

def clearCallbacks (b : BarrierState) : BarrierState :=
  { b with doneCallbacks := [] }

end BarrierState

namespace State

variable (s : State)

@[simps]
def emit (event : Event) : State :=
  { s with log := ⟨event, s.cluster⟩ :: s.log }

def emitAll (events : List Event) : State :=
  events.foldl emit s

@[simps version watchCallbacks barriers ongoingBarriers alivenessStates log time]
def setTask (task : TaskId) (f : TaskState → TaskState) : State :=
  { s with cluster := Function.update s.cluster task (f (s.cluster task)) }

@[simps cluster version watchCallbacks ongoingBarriers alivenessStates log time]
def setBarrier (id : String) (f : BarrierState → BarrierState) : State :=
  { s with barriers := Function.update s.barriers id (f (s.barriers id)) }

end State

-- The state of a task is accessed through a pointer that is null if the task is unknown.
def task? (s : State) (task : TaskId) : Option TaskState :=
  if c.contains task then some (s.cluster task) else none

def modifyTask (s : State) (task : TaskId) (f : TaskState → TaskState) : Option State :=
  if c.contains task then some (s.setTask task f) else none

def createTaskStateInfo (task : TaskId) (state : TaskState) : TaskInfo where
  state        := state.state
  incarnation  := state.incarnation
  taskId       := task
  errorCode    := state.status.code
  errorMessage := state.status.message
  errorPayload := if state.status.ok then none else some { sourceTaskId := task }

def getJobState (e : Env) (cluster : TaskId → TaskState) : List TaskInfo :=
  (e.order c.tasks).map fun task => createTaskStateInfo task (cluster task)

def notifyWatchTasksCallbacks (e : Env) (s : State) : State :=
  { s.emitAll (s.watchCallbacks.map fun call => .watch call (c.getJobState e s.cluster) s.version) with
    watchCallbacks := [] }

def clusterStateUpdated (e : Env) (s : State) : State :=
  c.notifyWatchTasksCallbacks e { s with version := s.version + 1 }

end CoordinationService
end Coordination

namespace Coordination.CoordinationService

variable (c : CoordinationService)

def pendingStragglerLogLimit : Nat :=
  3

-- The name of an instance of a barrier.
def barrierName (id : String) (counter : Int) : String :=
  s!"{id}::{counter}"

def BarrierState.name (b : BarrierState) : String :=
  barrierName b.id b.counter

def invalidArgumentError (message : String) : Status where
  code    := .invalidArgument
  message := message

def internalError (message : String) : Status where
  code    := .internal
  message := message

def cancelledError (message : String) : Status where
  code    := .cancelled
  message := message

def failedPreconditionError (message : String) : Status where
  code    := .failedPrecondition
  message := message

def abortedError (message : String) : Status where
  code    := .aborted
  message := message

def unavailableError (message : String) : Status where
  code    := .unavailable
  message := message

def alreadyExistsError (message : String) : Status where
  code    := .alreadyExists
  message := message

def deadlineExceededError (message : String) : Status where
  code    := .deadlineExceeded
  message := message

section Tasks

def unexpectedTaskRegistered (task : TaskId) : Status :=
  makeCoordinationError <| invalidArgumentError s!"Unexpected task registered with task={task}"

def differentIncarnation (task : TaskId) : Status :=
  makeTaskError (abortedError (s!"{task} unexpectedly tried to connect with a different " ++
    "incarnation. It has likely restarted.")) task

def connectInError (task : TaskId) (status : Status) : Status :=
  makeTaskError (abortedError (s!"{task} unexpectedly tried to connect while it is already in " ++
    "error. ResetTask() should be called before a " ++
    "subsequent connect attempt. Existing error: " ++ c.toString status)) task

def newerIncarnation : Status :=
  makeCoordinationError <| alreadyExistsError
    "Aborted connect attempt as there is a request from a newer incarnation."

def unexpectedDisconnect (task : TaskId) : Status :=
  makeCoordinationError <| invalidArgumentError s!"Unexpected disconnect request with task={task}"

def alreadyDisconnected (task : TaskId) : Status :=
  makeCoordinationError <| failedPreconditionError s!"The task is already disconnected: {task}"

def unexpectedRequest (task : TaskId) : Status :=
  makeCoordinationError <| invalidArgumentError s!"Unexpected request from task {task}"

def notConnected : Status :=
  makeCoordinationError <| failedPreconditionError "The task is not connected or already has an error."

def unexpectedHeartbeat (task : TaskId) : Status :=
  makeCoordinationError <| invalidArgumentError
    (s!"Unexpected heartbeat request from task: {task}. This usually implies a configuration error.")

def heartbeatInError (task : TaskId) (status : Status) : Status :=
  makeCoordinationError <| abortedError
    (s!"Unexpected heartbeat request from an already-in-error task: {task}" ++
    " with existing error: " ++ c.toString status)

def heartbeatNotRegistered (task : TaskId) : Status :=
  makeCoordinationError <| invalidArgumentError (s!"Task with task={task}" ++
    " must be registered before sending heartbeat messages. " ++
    "The service might have restarted, please restart / reset and register again.")

def incarnationMismatch (task : TaskId) (expected incarnation : Nat) : Status :=
  makeCoordinationError <| abortedError
    (s!"{task} Heartbeat: Incarnation ID mismatch: expecting {expected} but got {incarnation}" ++
    ". The task has restarted and likely crashed earlier - check for any " ++
    "earlier errors or any scheduler events (e.g. preemption, eviction) to debug further.")

def heartbeatTimedOut (task : TaskId) : Status :=
  makeCoordinationError <| unavailableError (s!"Task {task} heartbeat timeout. This indicates that the " ++
    "remote task has failed, got preempted, or crashed unexpectedly. Check the task logs " ++
    "for an earlier error or scheduler events (e.g. preemption, eviction) to debug further.")

def heartbeatsTimedOut (stale : List TaskId) : Status :=
  makeCoordinationError <| unavailableError
    ("The following tasks are unhealthy (stopped sending heartbeats):\n" ++
    "\n".intercalate ((stale.take pendingStragglerLogLimit).map fun task => s!"{task}") ++
    "\nThe tasks have crashed. Check the task logs for an " ++
    "earlier error, or scheduler events (e.g. preemption, eviction) to debug further.")

def unheardError (error : Status) : Status :=
  makeCoordinationError <| internalError
    ("All tasks were set to error because coordination service encountered an error, " ++
    "but was unable to inform clients. Error: " ++ c.toString error)

end Tasks

section Polling

def unexpectedPoll (task : TaskId) : Status :=
  makeCoordinationError <| invalidArgumentError
    s!"Unexpected task ({task}) that is not in the cluster polling for errors."

def pollNotRegistered (task : TaskId) : Status :=
  makeCoordinationError <| failedPreconditionError
    s!"Task ({task}) that has not been registered or has disconnected polling for errors."

def pollInError (task : TaskId) (status : Status) : Status :=
  makeCoordinationError <| failedPreconditionError
    (s!"Task ({task}) that is already in error state polling for errors. Current error: " ++ c.toString status)

def pollCancelled (reason : String) : Status :=
  makeCoordinationError <| cancelledError ("Cancelled error polling because: " ++ reason)

def notOneOfTheTasks (task : TaskId) : Status :=
  invalidArgumentError
    s!"Requesting task {task} is not one of the tasks specified in a GetAliveTasks request."

end Polling

section Barriers

variable (b : BarrierState)

def BarrierState.error (status : Status) : Status :=
  makeBarrierError status b.id b.counter

def alreadyInError (task : TaskId) (status : Status) : Status :=
  b.error <| internalError
    (s!"Task ({task}) is already in error before the barrier was called. Barrier Id: " ++ b.name ++
    " Task error: " ++ c.toString status)

def unexpectedParticipant (task : TaskId) : Status :=
  b.error <| invalidArgumentError
    (s!"Unexpected task ({task}) that is not in the cluster called the barrier. Barrier Id: " ++ b.name)

def superseded : Status :=
  cancelledError ("Cancelled because there's a more recent barrier call for " ++ b.name ++
    " from the same task.")

def counterMismatch (counter : Int) : Status :=
  let reason :=
    if counter = 0 ∨ b.counter = 0 then
      "The service or task probably restarted, check the earlier logs to debug further. " ++
      "Usually, a restart on the stale tasks will resolve the issue."
    else
      "One task is probably way too quick / slow in its execution. For " ++
      "example, one task started a barrier early, which timed out, and " ++
      "started a second barrier before the late task even joined once."
  b.error <| internalError ("Barrier (" ++ barrierName b.id counter ++
    s!") is invoked by the task, but the service thinks it is the {b.counter}-th instance. " ++ reason)

def cancelStale (id : String) (counter : Int) : Status :=
  makeBarrierError (failedPreconditionError ("Barrier (" ++ barrierName id counter ++
    s!") is cancelled by task, but the service thinks it is the {b.counter}" ++
    "-th instance. This is likely due to a restart in the task or service.")) id b.counter

def cancelPassed (id : String) (counter : Int) : Status :=
  makeBarrierError (failedPreconditionError ("Barrier (" ++ barrierName id counter ++
    s!") has already been passed with status code: {b.result.code.number}")) id b.counter

def cancelledByTask (id : String) (counter : Int) (task : TaskId) : Status :=
  makeBarrierError (cancelledError ("Barrier (" ++ barrierName id counter ++
    s!") is cancelled by task: {task}")) id b.counter

def entireClusterExpected : Status :=
  b.error <| invalidArgumentError (b.name ++ ": No tasks were specified by the client, which implies " ++
    "that the entire cluster is participating in the barrier. However, the service disagrees. " ++
    "Check that the callers are invoking the barrier with the same arguments.")

def conflictingTasks : Status :=
  b.error <| invalidArgumentError
    ("Conflicting tasks specified by different processes for the same barrier: " ++ b.name ++
    ". Check that the callers are invoking the barrier with the same arguments.")

def notParticipating (task : TaskId) : Status :=
  b.error <| invalidArgumentError s!"A non-participating task ({task}) called the barrier: {b.name}"

def staleInvocation (task : TaskId) (reason : String) : Status :=
  b.error <| cancelledError ("Stale barrier invocation is cancelled because:  " ++ reason ++
    s!". Barrier: {b.name} Task {task}")

def failedByTask (task : TaskId) (reason : String) : Status :=
  b.error <| internalError ("Barrier failed because: " ++ reason ++
    s!". Barrier Id: {b.name}, Task: {task}")

-- At most two of the tasks that have timed out are named.
def barrierTimedOut (e : Env) : Status :=
  let pending := (e.order b.tasksAtBarrier).filter (!·.2)
  let names := (pending.take (pendingStragglerLogLimit - 1)).map fun p => s!"{p.1}\n"
  b.error <| deadlineExceededError ("Barrier timed out. Id: " ++ b.name ++
    ". This usually happens because a task " ++
    "triggered the barrier too early or too slowly. Please look at the " ++
    "task logs (both timed out and first task) to debug further.\n" ++
    s!"# of tasks that reached the barrier: {b.tasksAtBarrier.length - pending.length}/" ++
    s!"{b.tasksAtBarrier.length}.\nThe first task at the barrier: {b.initiatingTask}" ++
    ". Some timed out task names:\n" ++ String.join names)

def clusterRegistrationFailed (result : Status) : Status :=
  makeCoordinationError <| internalError ("Cluster registration failed with error: " ++ c.toString result)

def makeShutdownBarrierError (error : Status) : Status :=
  makeCoordinationError <| internalError
    ("Shutdown barrier has failed.\nBarrier result: '" ++ c.toString error)

end Barriers

end Coordination.CoordinationService
