import XlaModel.Coordination.Service.Barrier

namespace Coordination.CoordinationService

variable (c : CoordinationService) (e : Env)

section Register

def setTaskIncarnation (task : TaskId) (incarnation : Nat) (s : State) : Option State := do
  let s ← c.modifyTask s task ({ · with incarnation })
  some <| s.emit (.registered task incarnation)

def connectTask (task : TaskId) (incarnation : Nat) (s : State) : Option State := do
  let s ← c.setTaskIncarnation task incarnation s
  let s ← c.modifyTask s task (·.setConnected e.now)
  let s ← if c.recoverable then
      c.leaveOngoingBarriers e (c.passBarrier e) task "recoverable task silently connected again" s
    else
      some s
  some <| c.clusterStateUpdated e s

-- The task is connected right away.
def acceptTask (task : TaskId) (incarnation call : Nat) (s : State) : Option State := do
  let s ← c.connectTask e task incarnation s
  some <| c.clusterStateUpdated e (s.emit (.done call .okStatus))

def rejectTask (task : TaskId) (error : Status) (call : Nat) (s : State) : Option State := do
  let s ← c.setTaskError e (c.passBarrier e) error s task
  let s ← c.propagateError e (c.passBarrier e) error s
  some <| s.emit (.done call error)

-- A task that has lost its connection can only be registered again if it is recoverable.
def isRegistrable (taskState : TaskState) : Bool :=
  taskState.state = .disconnected ∨
    (c.recoverable ∧ taskState.status.isUnavailable ∧ taskState.status.coordinationError.isSome)

def registerTask (task : TaskId) (incarnation call : Nat) (s : State) : Option State :=
  let taskState := s.cluster task
  if ¬c.contains task then
    some <| s.emit (.done call (unexpectedTaskRegistered task))
  else if c.isRegistrable taskState then
    if c.clusterRegisterWithBarrier then do
      let s ← c.setTaskIncarnation task incarnation s
      let s ← c.barrierAsyncLocked e clusterRegisterBarrierId 0 c.clusterRegisterTimeout task []
        (.connect task incarnation call) s
      some <| c.clusterStateUpdated e s
    else
      c.acceptTask e task incarnation call s
  else if taskState.state = .connected then
    if taskState.incarnation = incarnation ∨ c.recoverable then
      c.acceptTask e task incarnation call s
    else
      c.rejectTask e task (differentIncarnation task) call s
  else
    c.rejectTask e task (c.connectInError task taskState.status) call s

end Register

section Disconnect

def getTasksForShutdownBarrier (s : State) : State :=
  if s.shutdownBarrierTasks = [] then
    { s with shutdownBarrierTasks := (e.order c.tasks).filter fun _ => !c.recoverable }
  else
    s

def shutdownTask (task : TaskId) (call : Nat) (s : State) : Option State :=
  if c.shutdownBarrierTimeout > 0 ∧ ¬c.recoverable then
    let s := c.getTasksForShutdownBarrier e s
    c.barrierAsyncLocked e c.shutdownBarrierId 0 c.shutdownBarrierTimeout task s.shutdownBarrierTasks
      (.shutdown call) s
  else do
    let (s, status) ← c.disconnectTask e (c.passBarrier e) task s
    some <| s.emit (.done call status)

def resetTask (task : TaskId) (call : Nat) (s : State) : Option State := do
  let (s, status) ← c.disconnectTask e (c.passBarrier e) task s
  some <| s.emit (.done call status)

end Disconnect

section Errors

def reportTaskError (task : TaskId) (error : Status) (call : Nat) (s : State) : Option State :=
  if ¬c.contains task then
    some <| s.emit (.done call (unexpectedRequest task))
  else if (s.cluster task).state ≠ .connected then
    some <| s.emit (.done call notConnected)
  else do
    let s ← c.setTaskError e (c.passBarrier e) error s task
    let s ← c.propagateError e (c.passBarrier e) error s
    some <| s.emit (.done call .okStatus)

def recordHeartbeat (task : TaskId) (incarnation call : Nat) (s : State) : Option State :=
  let taskState := s.cluster task
  if ¬c.contains task then
    some <| s.emit (.done call (unexpectedHeartbeat task))
  else if ¬taskState.status.ok then
    some <| s.emit (.done call (c.heartbeatInError task taskState.status))
  else if taskState.isDisconnectedBeyondGracePeriod e.now then
    some <| s.emit (.done call (heartbeatNotRegistered task))
  else if taskState.incarnation = incarnation then
    some <| (s.setTask task ({ · with lastHeartbeat := e.now })).emit (.done call .okStatus)
  else if c.recoverable then
    some <| s.emit (.done call .okStatus)
  else
    c.rejectTask e task (incarnationMismatch task taskState.incarnation incarnation) call s

def checkHeartbeat (p : State × List TaskId) (task : TaskId) : Option (State × List TaskId) :=
  let taskState := p.1.cluster task
  if taskState.state = .connected ∧ taskState.timeSinceLastHeartbeatMs e.now * 1000 > c.heartbeatTimeout then do
    let s ← c.setTaskError e (c.passBarrier e) (heartbeatTimedOut task) p.1 task
    some (s, p.2 ++ [task])
  else
    some p

def checkHeartbeatTimeout (s : State) : Option State := do
  let (s, staleTasks) ← (e.order c.tasks).foldlM (c.checkHeartbeat e) (s, [])
  if staleTasks = [] then some s
  else c.propagateError e (c.passBarrier e) (heartbeatsTimedOut staleTasks) s

def checkBarrierTimeout (s : State) : Option State :=
  let expired := (e.order s.ongoingBarriers).filter fun id => e.now > (s.barriers id).deadline
  (e.order expired).foldlM (fun s id => c.passBarrier e id (barrierTimedOut (s.barriers id) e) s) s

def checkStaleness (s : State) : Option State := do
  let s ← c.checkHeartbeatTimeout e s
  c.checkBarrierTimeout e s

def pollForError (task : TaskId) (call : Nat) (s : State) : State :=
  let s := { s with clientPollingForError := true }
  let taskState := s.cluster task
  if ¬c.contains task then
    s.emit (.done call (unexpectedPoll task))
  else if taskState.isDisconnectedBeyondGracePeriod e.now then
    s.emit (.done call (pollNotRegistered task))
  else if taskState.state = .error then
    s.emit (.done call (c.pollInError task taskState.status))
  else if s.errorPolling.responded then
    s.emit (.done call s.errorPolling.error)
  else
    let s := removeTask task "new request from the same task" s
    { s with errorPolling.doneCallbacks := MapVector.set s.errorPolling.doneCallbacks task call }

end Errors

-- The version must not be in the future.
def watchTasks (versionNumber : Option Int) (call : Nat) (s : State) : Option State :=
  let v := versionNumber.getD (-1)
  if s.version < v then none
  else if s.version = v then some { s with watchCallbacks := s.watchCallbacks ++ [call] }
  else some <| s.emit (.watch call (c.getJobState e s.cluster) s.version)

def AlivenessState.enter (a : AlivenessState) (task : TaskId) (call : Nat) : AlivenessState :=
  { a with inBarrier := a.inBarrier.insert task, dones := a.dones ++ [call] }

def getAliveTasks (requestingTask : TaskId) (tasks : List TaskId) (call : Nat) (s : State) : Option State :=
  let taskSet := tasks.dedup
  if requestingTask ∉ taskSet then
    some <| s.emit (.alive s.log.length call (notOneOfTheTasks requestingTask) [] [])
  else
    let before := s.alivenessStates.takeWhile (!taskSetEqual ·.tasks taskSet)
    let rest := s.alivenessStates.dropWhile (!taskSetEqual ·.tasks taskSet)
    let a := (rest.head?.getD { tasks := taskSet }).enter requestingTask call
    if c.isSatisfied s taskSet a.inBarrier then
      c.finish e taskSet a.dones { s with alivenessStates := before ++ rest.tail }
    else
      some { s with alivenessStates := before ++ a :: rest.tail }

def apply (call : Nat) (s : State) : Op → Option State
  | .registerTask task incarnation    => c.registerTask e task incarnation call s
  | .shutdownTask task                => c.shutdownTask e task call s
  | .resetTask task                   => c.resetTask e task call s
  | .recordHeartbeat task incarnation => c.recordHeartbeat e task incarnation call s
  | .reportTaskError task error       => c.reportTaskError e task error call s
  | .watchTasks versionNumber         => c.watchTasks e versionNumber call s
  | .barrierAsync id counter timeout task participants =>
    c.barrierAsyncLocked e id counter timeout task participants (.user call) s
  | .cancelBarrier id counter task    => do
    let (s, status) ← c.cancelBarrier e id counter task s
    some <| s.emit (.done call status)
  | .getAliveTasks task tasks         => c.getAliveTasks e task tasks call s
  | .pollForError task                => some (c.pollForError e task call s)
  | .checkStaleness                   => c.checkStaleness e s

-- Every operation holds the lock of the service. It fails if a check fails or a null pointer is used.
def step (s : State) (op : Env × Op) : Option State := do
  let s' ← c.apply op.1 s.time (s.emit (.called s.time op.2)) op.2
  some { s' with time := s'.time + 1 }

def run (ops : List (Env × Op)) : Option State :=
  ops.foldlM c.step {}

end Coordination.CoordinationService
