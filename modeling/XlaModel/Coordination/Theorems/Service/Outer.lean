import XlaModel.Coordination.Theorems.Service.Inner

-- Every operation of the service is a sequence of steps.
namespace Coordination.CoordinationService

-- Steps that only some runs take: a task reaches a barrier that has passed already, an unknown task
-- reaches a barrier, or a task that waits for the alive tasks is registered with a new incarnation.
-- The other fields restrict the barriers that an operation works on, and the instances of them that it
-- initializes.
structure Allowed where
  reachPassed : Prop := True
  stranger    : Prop := True
  restart     : Prop := True
  id          : String → Prop := fun _ => True
  instances   : String → Int → Prop := fun _ _ => True

-- A task that waits for the alive tasks gets an incarnation that it has not been registered with before.
def Restarts (s : State) (task : TaskId) (incarnation : Nat) : Prop :=
  (∃ a ∈ s.alivenessStates, task ∈ a.inBarrier) ∧
  ¬(incarnation = (s.cluster task).incarnation ∧ Registered s task incarnation)

-- The instance of a barrier that can be initialized next.
def Next (b : BarrierState) (counter : Int) : Prop :=
  (b.isUninitialized ∧ counter = 0) ∨ (b.passed ∧ counter = b.counter + 1)

-- The tasks of the next instance of a barrier.
def NextTasks (c : CoordinationService) (b : BarrierState) (tasks : List TaskId) : Prop :=
  tasks = b.participants ∨ (b.participants = [] ∧ tasks.Nodup ∧ ∀ t ∈ tasks, c.contains t)

@[simps version watchCallbacks ongoingBarriers alivenessStates log time]
def opened (b : BarrierState) (tasks : List TaskId) (s : State) : State :=
  { s with
    barriers        := Function.update s.barriers b.id b
    ongoingBarriers := s.ongoingBarriers.insert b.id
    cluster         := fun t => if t ∈ tasks then (s.cluster t).joinBarrier b.id else s.cluster t }

abbrev accepted (id : String) (task : TaskId) (callback : BarrierCallback) (s : State) : State :=
  s.emit (.accepted id (s.barriers id).counter task callback)

variable (c : CoordinationService) (e : Env) (A : Allowed)

-- The call is accepted by the barrier.
structure Accepts (b : BarrierState) (task : TaskId) : Prop where
  mem      : task ∈ b.participants ∨ b.tasksAtBarrier.length = c.numTasks
  passed   : b.passed → A.reachPassed
  stranger : ¬c.contains task → A.stranger

-- The barrier that an operation hands its callback over to.
inductive Hands (call : Nat) : Op → String → BarrierCallback → Prop
  | barrier {id : String} {participants : List TaskId} :
    Hands call (.barrierAsync id counter timeout task participants) id (.user call)
  | register {incarnation : Nat} :
    Hands call (.registerTask task incarnation) clusterRegisterBarrierId (.connect task incarnation call)
  | shutdown : Hands call (.shutdownTask task) c.shutdownBarrierId (.shutdown call)

open State in
inductive Outer : Point → Point → Prop
  | call :
    Outer ⟨none, {}, [], s⟩ ⟨none, { op := some op, calling := true }, [], s.emit (.called s.time op)⟩
  | return : p.op = some op → p.held = none → p.added = none → p.updating = false →
    (p.calling → op.waits = false) →
    Outer ⟨none, p, [], s⟩ ⟨none, {}, [], { s with time := s.time + 1 }⟩
  | heartbeat :
    Outer ⟨none, p, [], s⟩ ⟨none, p, [], s.setTask task ({ · with lastHeartbeat })⟩
  | shutdownTasks {tasks : List TaskId} :
    Outer ⟨none, p, [], s⟩ ⟨none, p, [], { s with shutdownBarrierTasks := tasks }⟩
  | updating :
    Outer ⟨none, p, [], s⟩ ⟨none, { p with updating := true }, [], s⟩
  | update :
    Outer ⟨none, p, [], s⟩ ⟨none, { p with updating := false }, [], c.clusterStateUpdated e s⟩
  | register {incarnation : Nat} : p.updating → c.contains task → (Restarts s task incarnation → A.restart) →
    Outer ⟨none, p, [], s⟩
      ⟨none, p, [], (s.setTask task ({ · with incarnation })).emit (.registered task incarnation)⟩
  | connect : p.updating → c.contains task →
    Outer ⟨none, p, [], s⟩ ⟨none, p, [], s.setTask task (·.setConnected e.now)⟩
  | hand {id : String} : A.id id → p.calling → p.held = none → p.added = none → p.op = some op →
    Hands c s.time op id callback →
    Outer ⟨none, p, [], s⟩
      ⟨none, { p with calling := false, held := some (id, callback) }, [], s.emit (.handed id callback)⟩
  | start {b : BarrierState} {tasks : List TaskId} : A.id b.id → A.instances b.id b.counter → p.added = none →
    (tasks = [] → c.numTasks = 0 ∧ A.stranger) → Next (s.barriers b.id) b.counter → NextTasks c (s.barriers b.id) tasks → (∀ t ∈ tasks, c.contains t) →
    (¬c.recoverable → ∀ t ∈ tasks, (s.cluster t).state ≠ .error) → b.passed = false → b.doneCallbacks = [] →
    b.numPendingTasks = tasks.length → b.tasksAtBarrier = tasks.map (·, false) →
    Outer ⟨none, p, [], s⟩ ⟨none, p, [], (opened b tasks s).emit (.initialized b.id b.counter tasks)⟩
  | startFailed {b : BarrierState} : A.id b.id → A.instances b.id b.counter → p.added = none →
    Next (s.barriers b.id) b.counter →
    NextTasks c (s.barriers b.id) b.participants → (∀ t ∈ b.participants, c.contains t) →
    ¬result.ok → b.doneCallbacks = [] →
    Outer ⟨none, p, [], s⟩
      ⟨some ⟨b.id, result, callbacksOf e b⟩, p, [], marked b.id result (s.setBarrier b.id fun _ => b)⟩
  | add {id : String} : A.id id → p.held = some (id, callback) → p.added = none →
    MapVector.find (s.barriers id).doneCallbacks task = none →
    Outer ⟨none, p, [], s⟩
      ⟨none, { p with held := none, added := some id }, [], s.setBarrier id (·.addCallback task callback)⟩
  | supersede {id : String} {callback callback' : BarrierCallback} : A.id id → p.held = some (id, callback) →
    p.added = none → MapVector.find (s.barriers id).doneCallbacks task = some callback' →
    Outer ⟨none, p, [], s⟩
      ⟨none, { p with held := none, added := some id }, [],
        (s.emit (.reply .superseded id (s.barriers id).counter callback' status)).setBarrier id
          (·.addCallback task callback)⟩
  | fail {id : String} : A.id id → (∀ id' ∈ p.added, id' = id) → ¬result.ok →
    (∀ t ∈ (s.barriers id).participants, c.contains t) →
    Outer ⟨none, p, [], s⟩
      ⟨some ⟨id, result, callbacksOf e (s.barriers id)⟩, { p with added := none }, [], marked id result s⟩
  | accept {id : String} : A.id id → Accepts c A (s.barriers id) task → p.added = some id → (s.barriers id).atBarrier task →
    Outer ⟨none, p, [], s⟩ ⟨none, { p with added := none }, [], accepted id task callback s⟩
  | reach {id : String} : A.id id → Accepts c A (s.barriers id) task → p.added = some id → ¬(s.barriers id).atBarrier task →
    (s.barriers id).numPendingTasks ≠ 1 →
    Outer ⟨none, p, [], s⟩
      ⟨none, { p with added := none }, [], (accepted id task callback s).setBarrier id (·.reach task)⟩
  | complete {id : String} : A.id id → Accepts c A (s.barriers id) task → p.added = some id → ¬(s.barriers id).atBarrier task →
    (s.barriers id).numPendingTasks = 1 → (∀ t ∈ ((s.barriers id).reach task).participants, c.contains t) →
    Outer ⟨none, p, [], s⟩
      ⟨some ⟨id, .okStatus, callbacksOf e (s.barriers id)⟩, { p with added := none }, [],
        marked id .okStatus ((accepted id task callback s).setBarrier id (·.reach task))⟩
  | take {id : String} : A.id id → p.held = none → p.added = some id → (s.barriers id).passed →
    MapVector.find (s.barriers id).doneCallbacks task = some callback →
    Outer ⟨none, p, [], s⟩
      ⟨none, { p with held := some (id, callback), added := none }, [], s.setBarrier id (·.eraseCallback task)⟩
  | answer {id : String} : A.id id → p.held = some (id, callback) → cause ≠ .superseded → cause ≠ .stale →
    (cause = .notDisconnected ∨ ((s.barriers id).passed ∧ (s.barriers id).counter = counter ∧
      (s.barriers id).result = status)) →
    Outer ⟨none, p, [], s⟩
      ⟨none, { p with held := none }, [], s.emit (.reply cause id counter callback status)⟩
  | watch : p.calling → p.op = some (.watchTasks v) → c.watchTasks e v s.time s = some s' →
    Outer ⟨none, p, [], s⟩ ⟨none, { p with calling := false }, [], s'⟩
  | alive {tasks : List TaskId} : p.calling → p.op = some (.getAliveTasks task tasks) →
    c.getAliveTasks e task tasks s.time s = some s' →
    Outer ⟨none, p, [], s⟩ ⟨none, { p with calling := false }, [], s'⟩
  | poll : p.calling → p.op = some (.pollForError task) → c.pollForError e task s.time s = s' →
    Outer ⟨none, p, [], s⟩ ⟨none, { p with calling := false }, [], s'⟩

theorem participants_eq {b : BarrierState} {tasks : List TaskId} {v : Bool} (h : b.tasksAtBarrier = tasks.map (·, v)) :
    b.participants = tasks := by
  simp [BarrierState.participants, MapVector.keys, h, Function.comp_def]

inductive Step : Point → Point → Prop
  | inner {e : Env} : Inner c e x y → Step x y
  | outer {e : Env} : Outer c e A x y → Step x y

abbrev Steps : Point → Point → Prop :=
  Relation.ReflTransGen (Step c A)

section Joined

-- The ongoing barriers of a task are barriers that it participates in.
def Joined (s : State) : Prop :=
  ∀ t id, id ∈ (s.cluster t).ongoingBarriers → t ∈ (s.barriers id).participants

variable {c : CoordinationService} {e : Env} {A : Allowed} {s s' : State} {x y : Point} {t : TaskId} {id id' : String}

theorem mem_leave {b : BarrierState} {task : TaskId} : t ∈ (b.leave task).participants ↔ t = task ∨ t ∈ b.participants :=
  MapVector.mem_keys_set

theorem mem_reach {b : BarrierState} {task : TaskId} : t ∈ (b.reach task).participants ↔ t = task ∨ t ∈ b.participants :=
  MapVector.mem_keys_set

theorem participants_setBarrier {f : BarrierState → BarrierState}
    (hf : t ∈ (s.barriers id').participants → t ∈ (f (s.barriers id')).participants)
    (ht : t ∈ (s.barriers id).participants) : t ∈ ((s.setBarrier id' f).barriers id).participants := by
  rw [State.barriers_setBarrier]
  split_ifs with h
  · exact h ▸ hf (h ▸ ht)
  · exact ht

theorem participants_marked {result : Status} :
    ((marked id' result s).barriers id).participants = (s.barriers id).participants := by
  by_cases h : id = id' <;> simp [h, BarrierState.participants]

theorem mem_participants_marked {result : Status} :
    t ∈ ((marked id' result s).barriers id).participants ↔ t ∈ (s.barriers id).participants := by
  rw [participants_marked]

theorem mem_ongoing_marked {result : Status} (h : id ∈ ((marked id' result s).cluster t).ongoingBarriers) :
    id ∈ (s.cluster t).ongoingBarriers ∧ (t ∈ (s.barriers id').participants → id ≠ (s.barriers id').id) := by
  rw [marked_cluster] at h
  split_ifs at h with ht
  · have ⟨h, hn⟩ := mem_exitBarrier.mp h
    exact ⟨h, fun _ => hn⟩
  · exact ⟨h, fun ht' => absurd ht' ht⟩

theorem barriers_opened {b : BarrierState} {tasks : List TaskId} :
    (opened b tasks s).barriers id = if id = b.id then b else s.barriers id := by
  simp [opened, Function.update_apply]

theorem mem_ongoing_opened {b : BarrierState} {tasks : List TaskId} :
    id ∈ ((opened b tasks s).cluster t).ongoingBarriers ↔ (t ∈ tasks ∧ id = b.id) ∨ id ∈ (s.cluster t).ongoingBarriers := by
  rw [opened]
  by_cases ht : t ∈ tasks
  case pos => simp [ht, mem_joinBarrier]
  case neg => simp [ht]

open BarrierState in
-- No task leaves the participants of a barrier, and no task joins a barrier.
theorem BarrierState.Changes.participants {b b' : BarrierState} {ongoing : TaskId → Prop} {failing : Prop}
    (h : Changes ongoing failing b b') (ht : t ∈ b.participants) : t ∈ b'.participants := by
  cases h
  case leave => exact mem_leave.mpr (.inr ht)
  case drop  => exact mem_leave.mpr (.inr ht)
  all_goals exact ht

namespace Inner

theorem participants (h : Inner c e x y) (ht : t ∈ (x.state.barriers id).participants) :
    t ∈ (y.state.barriers id).participants :=
  (h.changes id).participants ht

theorem ongoing (h : Inner c e x y) (hi : id ∈ (y.state.cluster t).ongoingBarriers) :
    id ∈ (x.state.cluster t).ongoingBarriers := by
  cases h
  case fail => exact (mem_ongoing_marked hi).1
  all_goals simpa [State.cluster_setTask, apply_ite TaskState.ongoingBarriers] using hi

theorem joined (h : Inner c e x y) (hj : Joined x.state) : Joined y.state :=
  fun t id hi => h.participants (hj t id (h.ongoing hi))

end Inner

namespace Outer

theorem joined (h : Outer c e A x y) (hj : Joined x.state) : Joined y.state := by
  have hs {f : BarrierState → BarrierState} {id' : String} {s : State}
      (hf : ∀ b t, t ∈ BarrierState.participants b → t ∈ (f b).participants) (hj : Joined s) :
      Joined (s.setBarrier id' f) :=
    fun t id hi => participants_setBarrier (f := f) (hf _ t) (hj t id hi)
  have hm {result : Status} {id' : String} {s : State} (hj : Joined s) : Joined (marked id' result s) :=
    fun t id hi => mem_participants_marked.mpr (hj t id (mem_ongoing_marked hi).1)
  have hn {b : BarrierState} {tasks : List TaskId} {s : State} {t : TaskId} (hj : Joined s)
      (h : NextTasks c (s.barriers b.id) tasks)
      (hi : b.id ∈ (s.cluster t).ongoingBarriers) : t ∈ tasks := by
    cases h
    case inl h => exact h ▸ hj t _ hi
    case inr h => exact absurd (hj t _ hi) (by simp [h.1])
  cases h
  case start s p b tasks _ _ _ _ hb _ _ _ _ _ ht =>
    intro t id hi
    simp only [State.emit_barriers, barriers_opened]
    obtain ⟨h, rfl⟩ | hi := mem_ongoing_opened.mp hi
    · rwa [if_pos rfl, participants_eq ht]
    · split_ifs with he
      · exact participants_eq ht ▸ hn hj hb (he ▸ hi)
      · exact hj t id hi
  case startFailed _ hb _ _ _ =>
    refine hm fun t id hi => ?_
    rw [State.barriers_setBarrier]
    split_ifs with he
    · exact hn hj hb (he ▸ hi)
    · exact hj t id hi
  case add => exact hs (f := (·.addCallback _ _)) (fun _ _ h => h) hj
  case supersede => exact hs (f := (·.addCallback _ _)) (fun _ _ h => h) hj
  case fail => exact hm hj
  case reach => exact hs (f := (·.reach _)) (fun _ _ h => mem_reach.mpr (.inr h)) hj
  case complete => exact hm (hs (f := (·.reach _)) (fun _ _ h => mem_reach.mpr (.inr h)) hj)
  case take => exact hs (f := (·.eraseCallback _)) (fun _ _ h => h) hj
  case watch hw =>
    obtain ⟨_, rfl⟩ | ⟨_, rfl⟩ := watchTasks_cases hw
    · exact hj
    · exact hj
  case alive ha =>
    obtain ⟨_, rfl⟩ | ⟨_, _, _, _, _, ⟨_, rfl⟩ | ⟨_, rfl⟩⟩ := getAliveTasks_cases ha
    · exact hj
    · exact hj
    · exact hj
  case poll hp =>
    obtain ⟨_, rfl⟩ | ⟨_, _, rfl⟩ := pollForError_cases hp
    · exact hj
    · exact hj
  all_goals
    intro t id hi
    simpa using hj t id (by simpa [State.cluster_setTask, apply_ite TaskState.ongoingBarriers] using hi)

end Outer
end Joined
end Coordination.CoordinationService
