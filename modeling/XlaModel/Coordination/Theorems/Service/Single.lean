import XlaModel.Coordination.Theorems.Service.Run
import XlaModel.Lib.Transition

-- The steps of the service, as they look to a single barrier.
namespace Coordination.CoordinationService

-- The barrier that an event belongs to.
def Event.barrier? : Event → Option String
  | reply _ id ..     => some id
  | handed id _       => some id
  | initialized id .. => some id
  | accepted id ..    => some id
  | left id _         => some id
  | ended id ..       => some id
  | _                 => none

-- What has happened to a barrier, starting with the latest event.
def State.history (s : State) (id : String) : List Event :=
  (s.log.map (·.event)).filter fun event => event.barrier? = some id

-- The callbacks of a barrier that is ending are those that are not invoked yet. The callback that is
-- held is about to be added to the barrier or to be invoked.
structure Single where
  barrier : BarrierState
  ending  : Option (Status × List BarrierCallback)
  held    : Option BarrierCallback
  added   : Bool
  history : List Event

@[simps]
def Point.single (x : Point) (id : String) : Single where
  barrier := x.state.barriers id
  ending  := x.ending.bind fun ending => if ending.id = id then some (ending.result, ending.callbacks) else none
  held    := x.phase.held.bind fun held => if held.1 = id then some held.2 else none
  added   := x.phase.added = some id
  history := x.state.history id

namespace Single

variable (c : CoordinationService) (A : Allowed) (id : String)

inductive Step : Single → Single → Prop
  | hand : A.id id → Step ⟨b, none, none, false, h⟩ ⟨b, none, some callback, false, .handed id callback :: h⟩
  | start {b b' : BarrierState} {held : Option BarrierCallback} {tasks : List TaskId} : A.id id → A.instances id b'.counter →
    (tasks = [] → c.numTasks = 0 ∧ A.stranger) → Next b b'.counter → NextTasks c b tasks →
    (∀ t ∈ tasks, c.contains t) → b'.id = id → b'.passed = false → b'.doneCallbacks = [] →
    b'.numPendingTasks = tasks.length → b'.tasksAtBarrier = tasks.map (·, false) →
    Step ⟨b, none, held, false, h⟩ ⟨b', none, held, false, .initialized id b'.counter tasks :: h⟩
  | startFailed {b b' : BarrierState} {held : Option BarrierCallback} {result : Status} : A.id id →
    A.instances id b'.counter → Next b b'.counter → NextTasks c b b'.participants → (∀ t ∈ b'.participants, c.contains t) → b'.id = id → ¬result.ok →
    b'.doneCallbacks = [] →
    Step ⟨b, none, held, false, h⟩
      ⟨{ b' with passed := true, result }, some (result, []), held, false, .ended id b'.counter result :: h⟩
  | add {task : TaskId} {callback : BarrierCallback} : A.id id → MapVector.find b.doneCallbacks task = none →
    Step ⟨b, none, some callback, false, h⟩ ⟨b.addCallback task callback, none, none, true, h⟩
  | supersede {task : TaskId} {callback callback' : BarrierCallback} : A.id id → MapVector.find b.doneCallbacks task = some callback' →
    Step ⟨b, none, some callback, false, h⟩
      ⟨b.addCallback task callback, none, none, true, .reply .superseded id b.counter callback' status :: h⟩
  | fail {held : Option BarrierCallback} {added added' : Bool} {result : Status} {callbacks : List BarrierCallback} : (added' → added) → ¬result.ok →
    callbacks.Perm (b.doneCallbacks.map (·.2)) →
    Step ⟨b, none, held, added, h⟩
      ⟨{ b with passed := true, result }, some (result, callbacks), held, added', .ended id b.counter result :: h⟩
  | accept {held : Option BarrierCallback} : A.id id → Accepts c A b task → b.atBarrier task →
    Step ⟨b, none, held, true, h⟩ ⟨b, none, held, false, .accepted id b.counter task callback :: h⟩
  | reach {held : Option BarrierCallback} : A.id id → Accepts c A b task → ¬b.atBarrier task → b.numPendingTasks ≠ 1 →
    Step ⟨b, none, held, true, h⟩ ⟨b.reach task, none, held, false, .accepted id b.counter task callback :: h⟩
  | complete {b : BarrierState} {held : Option BarrierCallback} {task : TaskId} {callback : BarrierCallback}
    {callbacks : List BarrierCallback} : A.id id → Accepts c A b task → ¬b.atBarrier task →
    b.numPendingTasks = 1 → callbacks.Perm (b.doneCallbacks.map (·.2)) →
    Step ⟨b, none, held, true, h⟩
      ⟨{ b.reach task with passed := true, result := .okStatus }, some (.okStatus, callbacks), held, false,
        .ended id b.counter .okStatus :: .accepted id b.counter task callback :: h⟩
  | invoke {held : Option BarrierCallback} {added : Bool} {callbacks : List BarrierCallback} :
    Step ⟨b, some (result, callback :: callbacks), held, added, h⟩
      ⟨b, some (result, callbacks), held, added, .reply .ended id b.counter callback result :: h⟩
  | clear {held : Option BarrierCallback} {added : Bool} :
    Step ⟨b, some (result, []), held, added, h⟩ ⟨b.clearCallbacks, none, held, added, h⟩
  | leave {held : Option BarrierCallback} {added : Bool} : task ∈ b.participants → MapVector.find b.doneCallbacks task = none →
    Step ⟨b, none, held, added, h⟩ ⟨b.leave task, none, held, added, .left id task :: h⟩
  | drop {held : Option BarrierCallback} {added : Bool} : task ∈ b.participants → MapVector.find b.doneCallbacks task = some callback →
    Step ⟨b, none, held, added, h⟩
      ⟨(b.leave task).eraseCallback task, none, held, added,
        .reply .stale id b.counter callback status :: .left id task :: h⟩
  | take {task : TaskId} : A.id id → b.passed → MapVector.find b.doneCallbacks task = some callback →
    Step ⟨b, none, none, true, h⟩ ⟨b.eraseCallback task, none, some callback, false, h⟩
  | answer {added : Bool} : A.id id → cause ≠ .superseded → cause ≠ .stale →
    (cause = .notDisconnected ∨ (b.passed ∧ b.counter = counter ∧ b.result = status)) →
    Step ⟨b, none, some callback, added, h⟩ ⟨b, none, none, added, .reply cause id counter callback status :: h⟩

end Single

section History

variable {c : CoordinationService} {e : Env} {s : State} {id id' : String} {task : TaskId} {event : Event}

@[simp]
theorem history_emit : (s.emit event).history id =
    if event.barrier? = some id then event :: s.history id else s.history id := by
  simp [State.history, List.filter_cons]

@[simp]
theorem history_setTask {f : TaskState → TaskState} : (s.setTask task f).history id = s.history id :=
  rfl

@[simp]
theorem history_setBarrier {f : BarrierState → BarrierState} : (s.setBarrier id' f).history id = s.history id :=
  rfl

@[simp]
theorem history_opened {b : BarrierState} {tasks : List TaskId} : (opened b tasks s).history id = s.history id :=
  rfl

theorem callbacksOf_of_nil {b : BarrierState} (h : b.doneCallbacks = []) : callbacksOf e b = [] := by
  rw [callbacksOf, h, List.perm_nil.mp (e.perm []), List.map_nil]

theorem history_marked {result : Status} : (marked id' result s).history id =
    if id' = id then .ended id' (s.barriers id').counter result :: s.history id else s.history id := by
  simp [State.history, marked_log, List.filter_cons, Event.barrier?]

theorem history_eq {s' : State} (h : s'.log = s.log) : s'.history id = s.history id := by
  rw [State.history, h, State.history]

theorem history_append {s' : State} {new : List Entry} (hn : ∀ entry ∈ new, entry.event.barrier? = none)
    (h : s'.log = new ++ s.log) : s'.history id = s.history id := by
  rw [State.history, h, List.map_append, List.filter_append, List.filter_eq_nil_iff.mpr, List.nil_append, State.history]
  intro event he
  obtain ⟨entry, hm, rfl⟩ := List.mem_map.mp he
  simp [hn entry hm]

theorem history_respondAll {dones : List (Nat × Status)} : (respondAll dones s).history id = s.history id := by
  refine history_append (fun entry hm => ?_) (respondAll_log dones s)
  obtain ⟨p, -, rfl⟩ := List.mem_map.mp (List.mem_reverse.mp hm)
  rfl

theorem history_clusterStateUpdated : (c.clusterStateUpdated e s).history id = s.history id := by
  refine history_append (fun entry hm => ?_) clusterStateUpdated_log
  obtain ⟨call, -, rfl⟩ := List.mem_map.mp (List.mem_reverse.mp hm)
  rfl

theorem history_finished {tasks : List TaskId} {dones : List Nat} :
    (c.finished e tasks dones s).history id = s.history id := by
  refine history_append (fun entry hm => ?_) (finished_log c e tasks dones s)
  obtain ⟨call, -, rfl⟩ := List.mem_map.mp (List.mem_reverse.mp hm)
  rfl

end History

variable {c : CoordinationService} {e : Env} {A : Allowed} {x y : Point}

theorem single_of_eq {id : String} (hb : y.state.barriers id = x.state.barriers id) (he : y.ending = x.ending)
    (hp : y.phase.held = x.phase.held) (ha : y.phase.added = x.phase.added)
    (hh : y.state.history id = x.state.history id) : y.single id = x.single id := by
  simp only [Point.single, hb, he, hp, ha, hh]

namespace Inner

-- A step of the service is a step of the barrier or leaves the barrier alone.
theorem single (h : Inner c e x y) (hj : Joined x.state) (id : String) :
    Relation.ReflGen (Single.Step c A id) (x.single id) (y.single id) := by
  have hs {x y : Point} (h : y.single id = x.single id) : Relation.ReflGen (Single.Step c A id) (x.single id) (y.single id) :=
    h ▸ .refl
  cases h
  case respond     => exact hs (single_of_eq rfl rfl rfl rfl history_respondAll)
  case removePoll  => exact hs (single_of_eq rfl rfl rfl rfl ((history_eq rfl).trans history_respondAll))
  case failPolls   => exact hs (single_of_eq rfl rfl rfl rfl ((history_eq rfl).trans history_respondAll))
  case connect     =>
    refine hs (single_of_eq (by simp) rfl rfl rfl (history_clusterStateUpdated.trans ?_))
    simp [Event.barrier?]
  case error       => exact hs (single_of_eq rfl rfl rfl rfl (history_eq rfl))
  case disconnect  => exact hs (single_of_eq rfl rfl rfl rfl (history_eq rfl))
  case finish      => exact hs (single_of_eq rfl rfl rfl rfl (history_finished.trans (history_eq rfl)))
  case resume      => exact hs (single_of_eq (by simp) rfl rfl rfl history_clusterStateUpdated)
  case invoke id' =>
    by_cases he : id' = id
    case pos =>
      subst he
      simpa [Point.single, Event.barrier?] using .single .invoke
    case neg => exact hs (by simp [Point.single, Event.barrier?, he])
  case clear id' =>
    by_cases he : id' = id
    case pos =>
      subst he
      simpa [Point.single] using .single .clear
    case neg => exact hs (by simp [Point.single, State.barriers_setBarrier, he, Ne.symm he])
  case fail id' ids hr ho hc =>
    by_cases he : id' = id
    case pos =>
      subst he
      simpa [Point.single, history_marked] using .single (.fail id ho ((e.perm _).map _))
    case neg => exact hs (by simp [Point.single, history_marked, he, Ne.symm he])
  case leave id' hr hc hm hf =>
    by_cases he : id' = id
    case pos =>
      subst he
      simpa [Point.single, Event.barrier?] using .single (.leave (hj _ _ hm) hf)
    case neg => exact hs (by simp [Point.single, Event.barrier?, State.barriers_setBarrier, he, Ne.symm he])
  case drop id' status hr hc hm hf =>
    by_cases he : id' = id
    case pos =>
      subst he
      simpa [Point.single, Event.barrier?] using .single (.drop (hj _ _ hm) hf)
    case neg => exact hs (by simp [Point.single, Event.barrier?, State.barriers_setBarrier, he, Ne.symm he])

end Inner

theorem Outer.single (h : Outer c e A x y) (id : String) :
    Relation.ReflGen (Single.Step c A id) (x.single id) (y.single id) := by
  have hs {x y : Point} (h : y.single id = x.single id) : Relation.ReflGen (Single.Step c A id) (x.single id) (y.single id) :=
    h ▸ .refl
  cases h
  case call      => exact hs (by simp [Point.single, Event.barrier?])
  case «return» hh ha _ _ =>
    refine hs ?_
    simp only [Point.single, hh, ha]
    rfl
  case heartbeat => exact hs (single_of_eq rfl rfl rfl rfl (history_eq rfl))
  case shutdownTasks => exact hs (single_of_eq rfl rfl rfl rfl (history_eq rfl))
  case updating  => exact hs rfl
  case update    => exact hs (by simp [Point.single, history_clusterStateUpdated])
  case register  => exact hs (by simp [Point.single, Event.barrier?])
  case connect   => exact hs (by simp [Point.single])
  case hand id' hid _ hh ha _ _ =>
    by_cases he : id' = id
    case pos =>
      subst he
      simpa [Point.single, Event.barrier?, hh, ha] using .single (.hand hid)
    case neg => exact hs (by simp [Point.single, Event.barrier?, he, hh])
  case start b tasks hid hk ha ht hn hnt hc _ hp hd hpn hb =>
    by_cases he : b.id = id
    case pos =>
      subst he
      simpa [Point.single, Event.barrier?, ha, barriers_opened] using .single (.start hid hk ht hn hnt hc rfl hp hd hpn hb)
    case neg => exact hs (by simp [Point.single, Event.barrier?, he, Ne.symm he, barriers_opened])
  case startFailed b hid hk ha hn hnt hc ho hd =>
    by_cases he : b.id = id
    case pos =>
      subst he
      simpa [Point.single, history_marked, ha, callbacksOf_of_nil hd] using
        .single (.startFailed hid hk hn hnt hc rfl ho hd)
    case neg => exact hs (by simp [Point.single, history_marked, he, Ne.symm he, State.barriers_setBarrier])
  case add id' hid hh ha hf =>
    by_cases he : id' = id
    case pos =>
      subst he
      simpa [Point.single, hh, ha] using .single (.add hid hf)
    case neg => exact hs (by simp [Point.single, he, Ne.symm he, hh, ha, State.barriers_setBarrier])
  case supersede id' callback callback' hid hh ha hf =>
    by_cases he : id' = id
    case pos =>
      subst he
      simpa [Point.single, Event.barrier?, hh, ha] using .single (.supersede hid hf)
    case neg => exact hs (by simp [Point.single, Event.barrier?, he, Ne.symm he, hh, ha, State.barriers_setBarrier])
  case fail p _ s id' hid ha ho hc =>
    by_cases he : id' = id
    case pos =>
      subst he
      simpa [Point.single, history_marked] using .single (.fail (by simp) ho ((e.perm _).map _))
    case neg =>
      have hn : p.added ≠ some id := fun h => he (ha id h).symm
      exact hs (by simp [Point.single, history_marked, he, Ne.symm he, hn])
  case accept id' hid hm ha hb =>
    by_cases he : id' = id
    case pos =>
      subst he
      simpa [Point.single, Event.barrier?, ha] using .single (.accept hid hm hb)
    case neg => exact hs (by simp [Point.single, Event.barrier?, he, ha])
  case reach id' hid hm ha hb hz =>
    by_cases he : id' = id
    case pos =>
      subst he
      simpa [Point.single, Event.barrier?, ha] using .single (.reach hid hm hb hz)
    case neg => exact hs (by simp [Point.single, Event.barrier?, he, Ne.symm he, ha, State.barriers_setBarrier])
  case complete id' hid hm ha hb hz hc =>
    by_cases he : id' = id
    case pos =>
      subst he
      simpa [Point.single, history_marked, Event.barrier?, ha] using .single (.complete hid hm hb hz ((e.perm _).map _))
    case neg =>
      exact hs (by simp [Point.single, history_marked, Event.barrier?, he, Ne.symm he, ha, State.barriers_setBarrier])
  case take id' hid hh ha hp hf =>
    by_cases he : id' = id
    case pos =>
      subst he
      simpa [Point.single, hh, ha] using .single (.take hid hp hf)
    case neg => exact hs (by simp [Point.single, he, Ne.symm he, hh, ha, State.barriers_setBarrier])
  case answer id' hid hh hc hc' hb =>
    by_cases he : id' = id
    case pos =>
      subst he
      simpa [Point.single, Event.barrier?, hh] using .single (.answer hid hc hc' hb)
    case neg => exact hs (by simp [Point.single, Event.barrier?, he, hh])
  case watch h =>
    obtain ⟨_, rfl⟩ | ⟨_, rfl⟩ := watchTasks_cases h
    · exact hs (single_of_eq rfl rfl rfl rfl (history_eq rfl))
    · exact hs (by simp [Point.single, Event.barrier?])
  case alive h =>
    obtain ⟨_, rfl⟩ | ⟨_, _, _, _, _, ⟨_, rfl⟩ | ⟨_, rfl⟩⟩ := getAliveTasks_cases h
    · exact hs (by simp [Point.single, Event.barrier?])
    · exact hs (single_of_eq rfl rfl rfl rfl (history_finished.trans (history_eq rfl)))
    · exact hs (single_of_eq rfl rfl rfl rfl (history_eq rfl))
  case poll h =>
    obtain ⟨status, rfl⟩ | ⟨_, _, rfl⟩ := pollForError_cases h
    · exact hs (single_of_eq rfl rfl rfl rfl (history_emit.trans (history_eq rfl)))
    · exact hs (single_of_eq rfl rfl rfl rfl ((history_eq rfl).trans history_respondAll))

theorem Steps.single (h : Steps c A x y) (hj : Joined x.state) (id : String) :
    Relation.ReflTransGen (Single.Step c A id) (x.single id) (y.single id) := by
  induction h
  case refl => exact .refl
  case tail h' h hi =>
    refine hi.trans (Relation.ReflGen.to_reflTransGen ?_)
    cases h
    case inner h => exact h.single (Steps.joined h' hj) id
    case outer h => exact h.single id

end Coordination.CoordinationService
