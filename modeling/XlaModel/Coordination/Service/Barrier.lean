import XlaModel.Coordination.Service.State

namespace Coordination.CoordinationService

variable (c : CoordinationService) (e : Env)

def connectAfterBarrierPasses (task : TaskId) (incarnation call : Nat) (status : Status) (s : State) :
    Option State := do
  let taskState ← c.task? s task
  if status.ok ∧ incarnation = taskState.incarnation then
    let s ← c.modifyTask s task (·.setConnected e.now)
    some <| c.clusterStateUpdated e (s.emit (.done call .okStatus))
  else if status.ok ∨ status.isCancelled then
    some <| s.emit (.done call newerIncarnation)
  else
    some <| s.emit (.done call status)

def invoke (cause : Cause) (id : String) (counter : Int) (status : Status) (s : State)
    (callback : BarrierCallback) : Option State :=
  let s := s.emit (.reply cause id counter callback status)
  match callback with
  | .user _                        => some s
  | .connect task incarnation call => c.connectAfterBarrierPasses e task incarnation call status s
  | .shutdown call                 =>
    some <| s.emit (.done call (if status.ok then .okStatus else c.makeShutdownBarrierError status))

section Aliveness

def taskSetSubset (x y : List TaskId) : Bool :=
  x.all (· ∈ y)

def taskSetEqual (x y : List TaskId) : Bool :=
  x.length = y.length ∧ taskSetSubset x y

def aliveTasks (s : State) (tasks : List TaskId) : List TaskId :=
  tasks.filter fun task => c.contains task ∧ (s.cluster task).state = .connected

def incarnationIds (s : State) (tasks : List TaskId) : Option (List Nat) :=
  tasks.mapM fun task => (c.task? s task).map (·.incarnation)

-- Every alive task is in the barrier.
def isSatisfied (s : State) (tasks inBarrier : List TaskId) : Bool :=
  taskSetSubset (c.aliveTasks s tasks) inBarrier

def finish (tasks : List TaskId) (dones : List Nat) (s : State) : Option State := do
  let v := e.order (c.aliveTasks s tasks)
  let incarnationIds ← c.incarnationIds s v
  some <| s.emitAll (dones.map fun call => .alive s.log.length call .okStatus v incarnationIds)

def refresh (s : State) (a : AlivenessState) : Option State :=
  if c.isSatisfied s a.tasks a.inBarrier then c.finish e a.tasks a.dones s
  else some { s with alivenessStates := s.alivenessStates ++ [a] }

def refreshAliveness (s : State) : Option State :=
  s.alivenessStates.foldlM (c.refresh e) { s with alivenessStates := [] }

end Aliveness

section Polling

def removeTask (task : TaskId) (reason : String) (s : State) : State :=
  { s.emitAll ((MapVector.find s.errorPolling.doneCallbacks task).toList.map (.done · (pollCancelled reason))) with
    errorPolling.doneCallbacks := MapVector.erase s.errorPolling.doneCallbacks task }

def setPollingError (error : Status) (s : State) : State :=
  { s.emitAll ((e.order s.errorPolling.doneCallbacks).map fun p => .done p.2 error) with
    errorPolling := { responded := true, error } }

-- Clients have to poll for errors.
def sendErrorPollingResponse (error : Status) (s : State) : Option State :=
  if ¬s.clientPollingForError then none
  else if s.errorPolling.responded then some s
  else some <| setPollingError e error s

end Polling

section Mutual

-- The first part of `passBarrier`. The entries in the table of barriers are passed by reference.
def markPassed (id : String) (result : Status) (s : State) : Option State := do
  let s := s.setBarrier id fun b => { b with passed := true, result }
  let b := s.barriers id
  let s ← (e.order b.participants).foldlM (fun s task => c.modifyTask s task (·.exitBarrier b.id))
    (s.emit (.ended id b.counter result))
  some { s with ongoingBarriers := s.ongoingBarriers.filter (· ≠ b.id) }

def callbacksOf (b : BarrierState) : List BarrierCallback :=
  (e.order b.doneCallbacks).map (·.2)

def propagateResult (id : String) (result : Status) (s : State) : Option State := do
  let b := s.barriers id
  let s ← (callbacksOf e b).foldlM (c.invoke e .ended id b.counter result) s
  some <| s.setBarrier id (·.clearCallbacks)

abbrev PassBarrier := String → Status → State → Option State

-- The functions from here on are mutually recursive.
variable (passBarrier : PassBarrier)

def leaveBarrier (task : TaskId) (reason : String) (s : State) (id : String) : Option State :=
  let s := (s.emit (.left id task)).setBarrier id (·.leave task)
  let b := s.barriers id
  match MapVector.find b.doneCallbacks task with
  | none          => some s
  | some callback => do
    let s ← c.invoke e .stale id b.counter (staleInvocation b task reason) s callback
    some <| s.setBarrier id (·.eraseCallback task)

def leaveOngoingBarriers (task : TaskId) (reason : String) (s : State) : Option State := do
  let taskState ← c.task? s task
  let ids := e.order taskState.ongoingBarriers
  if c.recoverable then
    ids.foldlM (c.leaveBarrier e task reason) s
  else
    ids.foldlM (fun s id => passBarrier id (failedByTask (s.barriers id) task reason) s) s

def setTaskError (error : Status) (s : State) (task : TaskId) : Option State := do
  let taskState ← c.task? s task
  if taskState.state = .error then
    some s
  else
    let s := s.setTask task (·.setError error)
    let s ← c.leaveOngoingBarriers e passBarrier task ("task is set to ERROR: " ++ c.toString error) s
    let s ← c.refreshAliveness e s
    some <| c.clusterStateUpdated e s

def setAllTasksError (error : Status) (s : State) : Option State :=
  (e.order c.tasks).foldlM (c.setTaskError e passBarrier error) s

def disconnectTask (task : TaskId) (s : State) : Option (State × Status) :=
  if ¬c.contains task then some (s, unexpectedDisconnect task)
  else if (s.cluster task).state = .disconnected then some (s, alreadyDisconnected task)
  else do
    let s := s.setTask task (·.disconnect c.heartbeatTimeout e.now)
    let s ← c.leaveOngoingBarriers e passBarrier task "task disconnected" s
    let s ← c.refreshAliveness e s
    let s := removeTask task "task has disconnected." s
    some (c.clusterStateUpdated e s, .okStatus)

def disconnectAllNonRecoverableTasks (s : State) : Option State :=
  (e.order c.tasks).foldlM (fun s task =>
    if c.recoverable then some s else (c.disconnectTask e passBarrier task s).map (·.1)) s

-- The error has to be an error.
def sendErrorPollingResponseOrFailAllTasks (error : Status) (s : State) : Option State :=
  if error.ok then none
  else if s.clientPollingForError then sendErrorPollingResponse e error s
  else c.setAllTasksError e passBarrier (c.unheardError error) s

def propagateError (error : Status) (s : State) : Option State :=
  if c.recoverable then some s
  else c.sendErrorPollingResponseOrFailAllTasks e passBarrier error s

def completeShutdownAfterBarrier (result : Status) (s : State) : Option State :=
  if result.ok then
    c.disconnectAllNonRecoverableTasks e passBarrier s
  else do
    let s ← c.propagateError e passBarrier (c.makeShutdownBarrierError result) s
    c.setAllTasksError e passBarrier (c.makeShutdownBarrierError result) s

-- What remains to be done when the result of the barrier is known to the callers.
def afterBarrier (id : String) (result : Status) (s : State) : Option State :=
  if id = clusterRegisterBarrierId ∧ ¬result.ok then
    c.setAllTasksError e passBarrier (c.clusterRegistrationFailed result) s
  else if id = c.shutdownBarrierId then
    c.completeShutdownAfterBarrier e passBarrier result s
  else
    some s

end Mutual

-- The depth of the recursion is bounded, because tasks are set to an error in between.
def passBarrierWithin : Nat → PassBarrier
  | 0,         _,  _,      _ => none
  | depth + 1, id, result, s => do
    let s ← c.markPassed e id result s
    let s ← c.propagateResult e id result s
    c.afterBarrier e (passBarrierWithin depth) (s.barriers id).id result s

def passBarrier : PassBarrier :=
  c.passBarrierWithin e (c.numTasks + 2)

section Initialize

-- The barrier fails at the first unknown task.
def initializeTasksAtBarrier (id : String) (participants : List TaskId) (s : State) : Option (State × Status) :=
  if (s.barriers id).tasksAtBarrier ≠ [] then
    some (s.setBarrier id fun b => { b with tasksAtBarrier := b.participants.map (·, false) }, .okStatus)
  else if participants = [] then
    some (s.setBarrier id fun b => { b with tasksAtBarrier := (e.order c.tasks).map (·, false) }, .okStatus)
  else
    let known := (participants.takeWhile c.contains).foldl (fun m task => MapVector.set m task false) []
    let s := s.setBarrier id fun b => { b with tasksAtBarrier := known }
    match participants.find? (!c.contains ·) with
    | none      => some (s, .okStatus)
    | some task => do
      let error := unexpectedParticipant (s.barriers id) task
      let s ← c.passBarrier e id error s
      some (s, error)

def findTaskInError (s : State) : List TaskId → Option (Option TaskId)
  | []            => some none
  | task :: tasks => do
    let taskState ← c.task? s task
    if taskState.state = .error then some (some task) else findTaskInError s tasks

-- Recoverable tasks that are in error can still join the barrier.
def failsInitially (s : State) (tasks : List TaskId) : Option (Option TaskId) :=
  if c.recoverable then some none else c.findTaskInError s tasks

def joinBarriers (id : String) (tasks : List TaskId) (s : State) : Option State :=
  tasks.foldlM (fun s task => c.modifyTask s task (·.joinBarrier id)) s

-- The second part of `initializeBarrier`.
def openBarrier (id : String) (counter timeout : Int) (s : State) : Option (State × Status) := do
  let s := s.setBarrier id fun b => { b with numPendingTasks := b.tasksAtBarrier.length }
  let b := s.barriers id
  let tasks := e.order b.participants
  let inError ← c.failsInitially s tasks
  match inError with
  | some task =>
    let error := c.alreadyInError b task (s.cluster task).status
    let s ← c.passBarrier e id error s
    some (s, error)
  | none =>
    let s := s.setBarrier id ({ · with deadline := e.now + timeout })
    let s ← c.joinBarriers id tasks { s with ongoingBarriers := s.ongoingBarriers.insert id }
    some (s.emit (.initialized id counter b.participants), .okStatus)

def initializeBarrier (id : String) (counter timeout : Int) (task : TaskId) (participants : List TaskId)
    (s : State) : Option (State × Status) := do
  let s := s.setBarrier id fun b =>
    { b with
      id, counter
      passed         := false
      result         := { code := .unknown, message := "Invalid barrier result." }
      initiatingTask := task
      doneCallbacks  := [] }
  let (s, status) ← c.initializeTasksAtBarrier e id participants s
  if ¬status.ok then some (s, status) else c.openBarrier e id counter timeout s

end Initialize

-- The callback of an earlier call of the same task is cancelled.
def addBarrierCallback (id : String) (task : TaskId) (done : BarrierCallback) (s : State) : Option State :=
  let b := s.barriers id
  match MapVector.find b.doneCallbacks task with
  | none          => some <| s.setBarrier id (·.addCallback task done)
  | some callback => do
    let s ← c.invoke e .superseded id b.counter (superseded b) s callback
    some <| s.setBarrier id (·.addCallback task done)

def failBarrierWithCounterMismatch (id : String) (counter : Int) (s : State) : Option State :=
  c.passBarrier e id (counterMismatch (s.barriers id) counter) s

-- The error of a call whose arguments do not match the barrier.
def taskArgsError (b : BarrierState) (task : TaskId) (tasksArgs : List TaskId) : Option Status :=
  if tasksArgs = [] then
    if b.tasksAtBarrier.length ≠ c.numTasks then some (entireClusterExpected b) else none
  else if b.tasksAtBarrier.length ≠ tasksArgs.length ∨ ∃ task ∈ tasksArgs, task ∉ b.participants then
    some (conflictingTasks b)
  else if task ∉ b.participants then
    some (notParticipating b task)
  else
    none

def validateTaskArgs (id : String) (task : TaskId) (tasksArgs : List TaskId) (s : State) : Option (State × Bool) :=
  match c.taskArgsError (s.barriers id) task tasksArgs with
  | none       => some (s, true)
  | some error => (c.passBarrier e id error s).map (·, false)

def repeatBarrierResult (id : String) (task : TaskId) (s : State) : Option State := do
  let done ← MapVector.find (s.barriers id).doneCallbacks task
  let s := s.setBarrier id (·.eraseCallback task)
  if (s.barriers id).id = c.shutdownBarrierId then
    let (s, status) ← c.disconnectTask e (c.passBarrier e) task s
    let b := s.barriers id
    if ¬status.ok then
      c.invoke e .notDisconnected id b.counter status s done
    else
      c.invoke e .repeated id b.counter b.result s done
  else
    c.invoke e .repeated id (s.barriers id).counter (s.barriers id).result s done

def reachBarrier (id : String) (task : TaskId) (s : State) : Option State :=
  if (s.barriers id).atBarrier task then
    some s
  else
    let s := s.setBarrier id (·.reach task)
    if (s.barriers id).numPendingTasks = 0 then c.passBarrier e id .okStatus s else some s

-- The instance of the barrier that is called, and whether it has to be initialized.
def calledInstance (id : String) (counter : Int) (b : BarrierState) : Int × Bool :=
  if b.passed ∧ c.recoverable ∧ counter = 0 ∧ id ≠ clusterRegisterBarrierId ∧ id ≠ c.shutdownBarrierId then
    -- The task has likely just restarted.
    (b.counter + 1, true)
  else
    (counter, (b.isUninitialized ∧ counter = 0) ∨ (b.passed ∧ counter = b.counter + 1))

-- The second part of `barrierAsyncLocked`.
def enterBarrier (id : String) (counter : Int) (initialized : Bool) (task : TaskId)
    (participants : List TaskId) (done : BarrierCallback) (s : State) : Option State := do
  let s ← c.addBarrierCallback e id task done s
  let b := s.barriers id
  if ¬initialized ∧ counter ≠ b.counter ∧ ¬(c.recoverable ∧ counter = 0) then
    c.failBarrierWithCounterMismatch e id counter s
  else
    let (s, valid) ← c.validateTaskArgs e id task participants s
    if ¬valid then
      some s
    else if b.passed ∧ counter = b.counter then
      c.repeatBarrierResult e id task s
    else
      c.reachBarrier e id task (s.emit (.accepted id b.counter task done))

def barrierAsyncLocked (id : String) (counter timeout : Int) (task : TaskId) (participants : List TaskId)
    (done : BarrierCallback) (s : State) : Option State := do
  let s := s.emit (.handed id done)
  let (counter, shouldInitialize) := c.calledInstance id counter (s.barriers id)
  if shouldInitialize then
    let (s, status) ← c.initializeBarrier e id counter timeout task participants s
    if ¬status.ok then
      c.invoke e .notInitialized id counter status s done
    else
      c.enterBarrier e id counter true task participants done s
  else
    c.enterBarrier e id counter false task participants done s

def cancelBarrier (id : String) (counter : Int) (task : TaskId) (s : State) : Option (State × Status) :=
  let b := s.barriers id
  if b.counter ≠ counter then some (s, cancelStale b id counter)
  else if b.passed then some (s, cancelPassed b id counter)
  else (c.passBarrier e id (cancelledByTask b id counter task) s).map (·, .okStatus)

end Coordination.CoordinationService
