import XlaModel.Coordination.Theorems.Service.Run
import XlaModel.Lib.Transition

-- The steps of the service without what concerns the barriers.
namespace Coordination.CoordinationService

-- The depth is the number of tasks that are leaving. The tasks are given by what clients can observe of
-- them, in the present and at every event.
structure Front where
  op       : Option Op
  calling  : Bool
  updating : Bool
  depth    : Nat
  time     : Nat
  version  : Int
  info     : TaskId → TaskInfo
  watching : List Nat
  pending  : List AlivenessState
  polling  : List (TaskId × Nat)
  history  : List (Event × (TaskId → TaskInfo))

def infoOf (cluster : TaskId → TaskState) (task : TaskId) : TaskInfo :=
  createTaskStateInfo task (cluster task)

def Entry.front (entry : Entry) : Event × (TaskId → TaskInfo) :=
  (entry.event, infoOf entry.cluster)

@[simps]
def Point.front (x : Point) : Front where
  op       := x.phase.op
  calling  := x.phase.calling
  updating := x.phase.updating
  depth    := x.leaving.length
  time     := x.state.time
  version  := x.state.version
  info     := infoOf x.state.cluster
  watching := x.state.watchCallbacks
  pending  := x.state.alivenessStates
  polling  := x.state.errorPolling.doneCallbacks
  history  := x.state.log.map Entry.front

-- An event of a barrier or an incarnation.
def Event.isQuiet : Event → Bool
  | called .. | done .. | watch .. | alive .. | handed .. => false
  | _                                                     => true

namespace Front

variable (c : CoordinationService) (f : Front)

def emit (events : List Event) : Front :=
  { f with history := (events.map (·, f.info)).reverse ++ f.history }

def updated (tasks : List TaskId) : Front :=
  { f with
    version  := f.version + 1
    watching := []
    history  := (f.watching.map fun call => (.watch call (tasks.map f.info) (f.version + 1), f.info)).reverse ++ f.history }

def alive (tasks : List TaskId) : List TaskId :=
  tasks.filter fun task => c.contains task ∧ (f.info task).state = .connected

-- Every task that is alive has entered.
def Satisfied (tasks inBarrier : List TaskId) : Prop :=
  ∀ t ∈ f.alive c tasks, t ∈ inBarrier

def finished (v : List TaskId) (dones : List Nat) : Front :=
  f.emit (dones.map fun call => .alive f.history.length call .okStatus v (v.map fun t => (f.info t).incarnation))

def set (task : TaskId) (info : TaskInfo) : Front :=
  { f with info := Function.update f.info task info }

def Logged (event : Event) : Prop :=
  ∃ entry ∈ f.history, entry.1 = event

def Answerable (call : Nat) : Prop :=
  (∃ cause id counter callback status, f.Logged (.reply cause id counter callback status) ∧ callback.call = call) ∨
  ∃ op, f.Logged (.called call op) ∧ op.waits = false

-- The calls of the clients that poll for an error are answered with a status.
def respond (dones : List (Nat × Status)) : Front :=
  f.emit (dones.map fun p => .done p.1 p.2)

end Front

inductive Front.Step (c : CoordinationService) : Front → Front → Prop
  | call {f : Front} {op : Op} : f.op = none →
    Step c f ({ f with op := some op, calling := true }.emit [.called f.time op])
  | return {f : Front} {op : Op} : f.op = some op → f.updating = false → f.depth = 0 → (f.calling → op.waits = false) →
    Step c f { f with op := none, calling := false, time := f.time + 1 }
  | updating {f : Front} : Step c f { f with updating := true }
  | update {f : Front} {tasks : List TaskId} : tasks.Perm c.tasks →
    Step c f { f.updated tasks with updating := false }
  | quiet {f : Front} (events : List Event) : (∀ event ∈ events, event.isQuiet) → Step c f (f.emit events)
  | change {f : Front} (task : TaskId) (info : TaskInfo) (events : List Event) : f.updating → (∀ event ∈ events, event.isQuiet) →
    (info.state = (f.info task).state ∨ info.state = .connected) → Step c f ((f.set task info).emit events)
  | connect {f : Front} {tasks : List TaskId} (task : TaskId) (info : TaskInfo) : tasks.Perm c.tasks → f.Answerable call →
    info.state = .connected → Step c f (((f.set task info).emit [.done call .okStatus]).updated tasks)
  | leave {f : Front} (task : TaskId) (info : TaskInfo) : Step c f { f.set task info with depth := f.depth + 1 }
  | resume {f : Front} {tasks : List TaskId} : tasks.Perm c.tasks → f.depth = n + 1 →
    (∀ a ∈ f.pending, ¬f.Satisfied c a.tasks a.inBarrier) → Step c f { f.updated tasks with depth := n }
  | respond {f : Front} (dones : List (Nat × Status)) : (∀ d ∈ dones, f.Answerable d.1) → Step c f (f.respond dones)
  | hand {f : Front} {op : Op} {id : String} : f.calling → f.op = some op → Hands c f.time op id callback →
    Step c f ({ f with calling := false }.emit [.handed id callback])
  | watch {f : Front} : f.calling → f.op = some (.watchTasks v) → v.getD (-1) = f.version →
    Step c f { f with calling := false, watching := f.watching ++ [f.time] }
  | watchNow {f : Front} {tasks : List TaskId} : f.calling → f.op = some (.watchTasks v) → v.getD (-1) < f.version →
    tasks.Perm c.tasks → Step c f ({ f with calling := false }.emit [.watch f.time (tasks.map f.info) f.version])
  | finish {f : Front} {before after : List AlivenessState} : f.pending = before ++ a :: after →
    f.Satisfied c a.tasks a.inBarrier → v.Perm (f.alive c a.tasks) →
    Step c f ({ f with pending := before ++ after }.finished v a.dones)
  | alive {f : Front} {tasks : List TaskId} : f.calling → f.op = some (.getAliveTasks task tasks) → task ∈ tasks →
    Request f.pending tasks.dedup before a after → ¬f.Satisfied c tasks.dedup (a.enter task f.time).inBarrier →
    Step c f { f with calling := false, pending := before ++ a.enter task f.time :: after }
  | aliveNow {f : Front} {tasks : List TaskId} : f.calling → f.op = some (.getAliveTasks task tasks) → task ∈ tasks →
    Request f.pending tasks.dedup before a after → f.Satisfied c tasks.dedup (a.enter task f.time).inBarrier →
    v.Perm (f.alive c tasks.dedup) →
    Step c f ({ f with calling := false, pending := before ++ after }.finished v (a.enter task f.time).dones)
  | aliveError {f : Front} {tasks : List TaskId} : f.calling → f.op = some (.getAliveTasks task tasks) → task ∉ tasks →
    Step c f ({ f with calling := false }.emit [.alive f.history.length f.time (notOneOfTheTasks task) [] []])
  | poll {f : Front} (status : Status) : f.calling → f.op = some (.pollForError task) →
    Step c f ({ f with
      calling := false
      polling := MapVector.set (MapVector.erase f.polling task) task f.time }.respond
        ((MapVector.find f.polling task).toList.map (·, status)))
  | pollNow {f : Front} (status : Status) : f.calling → f.op = some (.pollForError task) →
    Step c f ({ f with calling := false }.respond [(f.time, status)])
  | removePoll {f : Front} (task : TaskId) (status : Status) :
    Step c f ({ f with polling := MapVector.erase f.polling task }.respond
      ((MapVector.find f.polling task).toList.map (·, status)))
  | failPolls {f : Front} {polls : List (TaskId × Nat)} (error : Status) : polls.Perm f.polling →
    Step c f ({ f with polling := [] }.respond (polls.map fun (d : TaskId × Nat) => (d.2, error)))

section Simulation

variable {c : CoordinationService} {e : Env} {A : Allowed} {x y : Point} {s : State} {task : TaskId}

theorem logged_iff {event : Event} {p : Phase} {l : List (TaskId × List String)} {ending : Option Ending} :
    (Point.front ⟨ending, p, l, s⟩).Logged event ↔ Logged s event := by
  simp [Front.Logged, Logged, Entry.front]

theorem infoOf_setTask {f : TaskState → TaskState} :
    infoOf (s.setTask task f).cluster = Function.update (infoOf s.cluster) task (createTaskStateInfo task (f (s.cluster task))) := by
  funext t
  by_cases ht : t = task
  case pos => simp [infoOf, State.setTask, ht]
  case neg => simp [infoOf, State.setTask, ht]

theorem infoOf_marked {id : String} {result : Status} : infoOf (marked id result s).cluster = infoOf s.cluster := by
  funext t
  rw [infoOf, marked_cluster]
  split_ifs <;> rfl

theorem infoOf_opened {b : BarrierState} {tasks : List TaskId} : infoOf (opened b tasks s).cluster = infoOf s.cluster := by
  funext t
  simp only [infoOf, opened]
  split_ifs <;> rfl

variable {ending : Option Ending} {p : Phase} {l : List (TaskId × List String)}

theorem front_emit {event : Event} :
    Point.front ⟨ending, p, l, s.emit event⟩ = (Point.front ⟨ending, p, l, s⟩).emit [event] :=
  rfl

theorem front_respondAll {dones : List (Nat × Status)} :
    Point.front ⟨ending, p, l, respondAll dones s⟩ = (Point.front ⟨ending, p, l, s⟩).respond dones := by
  simp [Point.front, Front.respond, Front.emit, Entry.front, Function.comp_def]
  rfl

theorem front_setTask {f : TaskState → TaskState} : Point.front ⟨ending, p, l, s.setTask task f⟩ =
    (Point.front ⟨ending, p, l, s⟩).set task (createTaskStateInfo task (f (s.cluster task))) := by
  simp [Point.front, Front.set, infoOf_setTask]
  rfl

theorem front_setTask_of_eq {f : TaskState → TaskState}
    (hf : createTaskStateInfo task (f (s.cluster task)) = createTaskStateInfo task (s.cluster task)) :
    Point.front ⟨ending, p, l, s.setTask task f⟩ = Point.front ⟨ending, p, l, s⟩ := by
  have hu : Function.update (infoOf s.cluster) task (createTaskStateInfo task (s.cluster task)) = infoOf s.cluster :=
    Function.update_eq_self task _
  simp only [Point.front, infoOf_setTask, hf, hu]
  rfl

theorem front_leave {f : TaskState → TaskState} {ids : List String} :
    Point.front ⟨ending, p, (task, ids) :: l, s.setTask task f⟩ =
      { (Point.front ⟨ending, p, l, s⟩).set task (createTaskStateInfo task (f (s.cluster task))) with
        depth := (Point.front ⟨ending, p, l, s⟩).depth + 1 } := by
  rw [← front_setTask]
  rfl

theorem front_opened {b : BarrierState} {tasks : List TaskId} :
    Point.front ⟨ending, p, l, opened b tasks s⟩ = Point.front ⟨ending, p, l, s⟩ := by
  simp only [Point.front, infoOf_opened]
  rfl

theorem front_marked {id : String} {result : Status} : Point.front ⟨ending, p, l, marked id result s⟩ =
    (Point.front ⟨ending, p, l, s⟩).emit [.ended id (s.barriers id).counter result] := by
  simp [Point.front, Front.emit, Entry.front, infoOf_marked]

theorem front_clusterStateUpdated : Point.front ⟨ending, p, l, c.clusterStateUpdated e s⟩ =
    (Point.front ⟨ending, p, l, s⟩).updated (e.order c.tasks) := by
  simp [clusterStateUpdated_eq, Point.front, Front.updated, Entry.front, Function.comp_def, getJobState, infoOf]

theorem front_finished {tasks : List TaskId} {dones : List Nat} : Point.front ⟨ending, p, l, c.finished e tasks dones s⟩ =
    (Point.front ⟨ending, p, l, s⟩).finished (e.order (c.aliveTasks s tasks)) dones := by
  simp only [Point.front, Front.finished, Front.emit, Entry.front, finished, List.map_append, List.map_reverse,
    List.map_map, Function.comp_def, List.length_map]
  rfl

theorem satisfied_iff {tasks inBarrier : List TaskId} :
    (Point.front ⟨ending, p, l, s⟩).Satisfied c tasks inBarrier ↔ c.isSatisfied s tasks inBarrier := by
  simp [Front.Satisfied, Front.alive, isSatisfied_iff, infoOf, createTaskStateInfo]

theorem answerable_front {call : Nat} (h : Answerable s call) : (Point.front ⟨ending, p, l, s⟩).Answerable call := by
  simp only [Front.Answerable, logged_iff]
  exact h

theorem step_of_eq {f g h : Front} (hs : Front.Step c f g) (he : h = g) : Relation.ReflGen (Front.Step c) f h :=
  he ▸ .single hs

theorem Inner.front (h : Inner c e x y) : Relation.ReflGen (Front.Step c) x.front y.front := by
  cases h
  case respond dones ha => exact step_of_eq (.respond dones fun d hd => answerable_front (ha d hd)) front_respondAll
  case removePoll task status =>
    refine step_of_eq (.removePoll task status) ?_
    simp [Point.front, Front.respond, Front.emit, Entry.front, Function.comp_def]
    rfl
  case failPolls error hr =>
    refine step_of_eq (.failPolls error (e.perm _)) ?_
    simp [Point.front, Front.respond, Front.emit, Entry.front, Function.comp_def]
    rfl
  case connect task s call x p l hc ha =>
    refine step_of_eq (.connect task (createTaskStateInfo task ((s.cluster task).setConnected e.now)) (e.perm _)
      (answerable_front ha) rfl) ?_
    rw [front_clusterStateUpdated, front_emit, front_setTask]
  case invoke => exact step_of_eq (.quiet [.reply _ _ _ _ _] (by simp [Event.isQuiet])) front_emit
  case clear  => exact .refl
  case fail   => exact step_of_eq (.quiet [.ended _ _ _] (by simp [Event.isQuiet])) front_marked
  case leave  => exact step_of_eq (.quiet [.left _ _] (by simp [Event.isQuiet])) rfl
  case drop   => exact step_of_eq (.quiet [.left _ _, .reply _ _ _ _ _] (by simp [Event.isQuiet])) rfl
  case error      => exact step_of_eq (.leave _ _) front_leave
  case disconnect => exact step_of_eq (.leave _ _) front_leave
  case finish ha hs =>
    exact step_of_eq (.finish ha (satisfied_iff.mpr hs) (e.perm _)) front_finished
  case resume ha =>
    refine step_of_eq (.resume (e.perm _) rfl fun a hm hs => ha a hm (satisfied_iff.mp hs)) ?_
    simp [Point.front, Front.updated, Entry.front, Function.comp_def, clusterStateUpdated_eq, getJobState, infoOf]

theorem Outer.front (h : Outer c e A x y) : Relation.ReflGen (Front.Step c) x.front y.front := by
  cases h
  case call => exact step_of_eq (.call rfl) rfl
  case «return» ho _ _ hu hw => exact step_of_eq (.return ho hu rfl hw) (by simp [Point.front, hu])
  case heartbeat =>
    rw [front_setTask_of_eq rfl]
  case shutdownTasks => exact .refl
  case updating => exact step_of_eq .updating rfl
  case update =>
    refine step_of_eq (.update (e.perm _)) ?_
    simp [Point.front, Front.updated, Entry.front, Function.comp_def, clusterStateUpdated_eq, getJobState, infoOf]
  case register task s p incarnation hu _ _ =>
    refine step_of_eq (.change task (createTaskStateInfo task { s.cluster task with incarnation })
      [.registered task incarnation] hu (by simp [Event.isQuiet]) (.inl rfl)) ?_
    rw [front_emit, front_setTask]
  case connect hu _ => exact step_of_eq (.change _ _ [] hu (by simp) (.inr rfl)) front_setTask
  case hand hc _ _ ho hh => exact step_of_eq (.hand hc ho hh) rfl
  case start b tasks _ _ _ _ _ _ _ _ _ _ _ _ =>
    refine step_of_eq (.quiet [.initialized b.id b.counter tasks] (by simp [Event.isQuiet])) ?_
    rw [front_emit, front_opened]
  case startFailed => exact step_of_eq (.quiet [.ended _ _ _] (by simp [Event.isQuiet])) front_marked
  case add        => exact .refl
  case supersede  => exact step_of_eq (.quiet [.reply _ _ _ _ _] (by simp [Event.isQuiet])) rfl
  case fail       => exact step_of_eq (.quiet [.ended _ _ _] (by simp [Event.isQuiet])) front_marked
  case accept     => exact step_of_eq (.quiet [.accepted _ _ _ _] (by simp [Event.isQuiet])) rfl
  case reach      => exact step_of_eq (.quiet [.accepted _ _ _ _] (by simp [Event.isQuiet])) rfl
  case complete   => exact step_of_eq (.quiet [.accepted _ _ _ _, .ended _ _ _] (by simp [Event.isQuiet])) front_marked
  case take       => exact .refl
  case answer     => exact step_of_eq (.quiet [.reply _ _ _ _ _] (by simp [Event.isQuiet])) rfl
  case watch hc ho h =>
    obtain ⟨hv, rfl⟩ | ⟨hv, rfl⟩ := watchTasks_cases h
    · exact step_of_eq (.watch hc ho hv.symm) rfl
    · exact step_of_eq (.watchNow hc ho hv (e.perm _)) rfl
  case alive hc ho h =>
    obtain ⟨ht, rfl⟩ | ⟨ht, before, a, after, hr, ⟨hs, rfl⟩ | ⟨hs, rfl⟩⟩ := getAliveTasks_cases h
    · refine step_of_eq (.aliveError hc ho ht) ?_
      rw [Point.front_history, List.length_map]
      rfl
    · exact step_of_eq (.aliveNow hc ho ht hr (satisfied_iff.mpr hs) (e.perm _)) front_finished
    · exact step_of_eq (.alive hc ho ht hr fun h => hs (satisfied_iff.mp h)) rfl
  case poll hc ho h =>
    obtain ⟨status, rfl⟩ | ⟨_, status, rfl⟩ := pollForError_cases h
    · exact step_of_eq (.pollNow status hc ho) rfl
    · refine step_of_eq (.poll status hc ho) ?_
      simp [Point.front, polling, Front.respond, Front.emit, Entry.front, Function.comp_def]
      rfl

theorem Steps.front (h : Steps c A x y) : Relation.ReflTransGen (Front.Step c) x.front y.front := by
  induction h
  case refl => exact .refl
  case tail h hi =>
    refine hi.trans (Relation.ReflGen.to_reflTransGen ?_)
    cases h
    case inner h => exact h.front
    case outer h => exact h.front

end Simulation

section Logged

variable {f : Front} {event : Event} {events : List Event} {tasks : List TaskId}

@[simp]
theorem logged_emit : (f.emit events).Logged event ↔ event ∈ events ∨ f.Logged event := by
  simp [Front.Logged, Front.emit, or_and_right, exists_or]

theorem mem_emit {entry : Event × (TaskId → TaskInfo)} :
    entry ∈ (f.emit events).history ↔ (entry.1 ∈ events ∧ entry.2 = f.info) ∨ entry ∈ f.history := by
  simp only [Front.emit, List.mem_append, List.mem_reverse, List.mem_map]
  refine or_congr_left ⟨?mp, ?mpr⟩
  case mp =>
    rintro ⟨event, he, rfl⟩
    exact ⟨he, rfl⟩
  case mpr => exact fun h => ⟨entry.1, h.1, Prod.ext rfl h.2.symm⟩

end Logged
end Coordination.CoordinationService
