import XlaModel.Coordination.Theorems.Service.Single

-- What holds of a single barrier in every run.
namespace Coordination.CoordinationService

variable {c : CoordinationService} {A : Allowed} {id : String} {b : BarrierState} {t task : TaskId}

theorem length_participants : b.participants.length = b.tasksAtBarrier.length :=
  List.length_map _

theorem participants_leave (ht : task ∈ b.participants) : (b.leave task).participants = b.participants :=
  MapVector.keys_set.trans (if_pos ht)

theorem participants_reach (ht : task ∈ b.participants) : (b.reach task).participants = b.participants :=
  MapVector.keys_set.trans (if_pos ht)

theorem atBarrier_reach : (b.reach task).atBarrier t ↔ t = task ∨ b.atBarrier t := by
  rw [BarrierState.atBarrier, BarrierState.reach, MapVector.find_set]
  by_cases h : t = task <;> simp [h, BarrierState.atBarrier]

theorem atBarrier_leave : (b.leave task).atBarrier t ↔ t ≠ task ∧ b.atBarrier t := by
  rw [BarrierState.atBarrier, BarrierState.leave, MapVector.find_set]
  by_cases h : t = task <;> simp [h, BarrierState.atBarrier]

theorem not_atBarrier_of_false {tasks : List TaskId} (h : b.tasksAtBarrier = tasks.map (·, false)) : ¬b.atBarrier t := by
  rw [BarrierState.atBarrier]
  cases hf : MapVector.find b.tasksAtBarrier t
  case none   => simp
  case some v =>
    have hm := MapVector.mem_of_lookup hf
    simp only [h, List.mem_map, Prod.mk.injEq] at hm
    obtain ⟨_, -, -, rfl⟩ := hm
    simp

-- The number of participants that have not reached the barrier.
def BarrierState.unreached (b : BarrierState) : Nat :=
  b.tasksAtBarrier.countP (!·.2)

theorem unreached_eq : b.unreached = (b.tasksAtBarrier.map (·.2)).count false := by
  rw [BarrierState.unreached, List.count, List.countP_map]
  refine List.countP_congr fun p _ => ?_
  simp

theorem exists_find (ht : task ∈ b.participants) : ∃ v, MapVector.find b.tasksAtBarrier task = some v :=
  Option.ne_none_iff_exists'.mp fun hn => MapVector.find_eq_none_iff.mp hn ht

theorem unreached_leave (hn : b.participants.Nodup) (ht : task ∈ b.participants) :
    (b.leave task).unreached = if b.atBarrier task then b.unreached + 1 else b.unreached := by
  obtain ⟨v, hv⟩ := exists_find ht
  have hl := (MapVector.map_snd_set_perm (k := task) (v := false) hn).count_eq false
  have hb := (MapVector.map_snd_erase_perm hn hv).count_eq false
  rw [unreached_eq, unreached_eq, BarrierState.leave, ← hl, ← hb, BarrierState.atBarrier, hv]
  cases v <;> simp

theorem unreached_reach (hn : b.participants.Nodup) (ht : task ∈ b.participants) (ha : ¬b.atBarrier task) :
    (b.reach task).unreached + 1 = b.unreached := by
  obtain ⟨v, hv⟩ := exists_find ht
  have hl := (MapVector.map_snd_set_perm (k := task) (v := true) hn).count_eq false
  have hb := (MapVector.map_snd_erase_perm hn hv).count_eq false
  rw [BarrierState.atBarrier, hv] at ha
  rw [unreached_eq, unreached_eq, BarrierState.reach, ← hl, ← hb]
  cases v
  case false => simp
  case true  => exact absurd rfl ha

theorem atBarrier_of_unreached_eq_zero (hu : b.unreached = 0) (ht : t ∈ b.participants) : b.atBarrier t := by
  obtain ⟨v, hv⟩ := exists_find ht
  have hm := List.countP_eq_zero.mp hu _ (MapVector.mem_of_lookup hv)
  simpa [BarrierState.atBarrier, hv] using hm

-- Nothing is known of the barrier but that it may have been cancelled.
structure BarrierState.Fresh (b : BarrierState) : Prop where
  id             : b.id = ""
  counter        : b.counter = 0
  deadline       : b.deadline = 0
  pending        : b.numPendingTasks = 0
  tasksAtBarrier : b.tasksAtBarrier = []

-- No task can reach the barrier before it is initialized.
def BarrierState.Idle (b : BarrierState) : Prop :=
  b.passed ∨ b.Fresh

theorem BarrierState.Idle.of_callbacks {callbacks : List (TaskId × BarrierCallback)}
    (h : { b with doneCallbacks := callbacks }.Idle) : b.Idle :=
  h.imp (fun h => h) fun h => ⟨h.id, h.counter, h.deadline, h.pending, h.tasksAtBarrier⟩

structure Shape (c : CoordinationService) (id : String) (b : BarrierState) : Prop where
  named     : b.id = id ∨ b.Fresh
  nodup     : b.participants.Nodup
  members   : ∀ t ∈ b.participants, c.contains t
  pending   : b.passed = false → b.numPendingTasks = b.unreached
  callbacks : (MapVector.keys b.doneCallbacks).Nodup

namespace Shape

theorem initial : Shape c id {} :=
  ⟨.inr ⟨rfl, rfl, rfl, rfl, rfl⟩, List.nodup_nil, by simp [BarrierState.participants, MapVector.keys], fun _ => rfl,
    List.nodup_nil⟩

variable (h : Shape c id b)

include h

theorem setCallbacks {callbacks : List (TaskId × BarrierCallback)} (hn : (MapVector.keys callbacks).Nodup) :
    Shape c id { b with doneCallbacks := callbacks } where
  named     := h.named.imp (fun h => h) fun h => ⟨h.id, h.counter, h.deadline, h.pending, h.tasksAtBarrier⟩
  nodup     := h.nodup
  members   := h.members
  pending   := h.pending
  callbacks := hn

theorem pass {result : Status} : Shape c id { b with passed := true, result } where
  named     := h.named.imp (fun h => h) fun h => ⟨h.id, h.counter, h.deadline, h.pending, h.tasksAtBarrier⟩
  nodup     := h.nodup
  members   := h.members
  pending   := fun h => absurd h (by simp)
  callbacks := h.callbacks

theorem named_of_mem (ht : t ∈ b.participants) : b.id = id :=
  h.named.resolve_right fun hf => by simp [BarrierState.participants, MapVector.keys, hf.tasksAtBarrier] at ht

theorem leave (ht : task ∈ b.participants) : Shape c id (b.leave task) where
  named := .inl (h.named_of_mem ht)
  nodup := participants_leave ht ▸ h.nodup
  members := participants_leave ht ▸ h.members
  pending hp := by
    rw [unreached_leave h.nodup ht, BarrierState.leave, h.pending hp]
    split_ifs <;> simp
  callbacks := h.callbacks

theorem reach (ht : task ∈ b.participants) (ha : ¬b.atBarrier task) : Shape c id (b.reach task) where
  named := .inl (h.named_of_mem ht)
  nodup := participants_reach ht ▸ h.nodup
  members := participants_reach ht ▸ h.members
  pending hp := by
    have hu := unreached_reach h.nodup ht ha
    have := h.pending hp
    change b.numPendingTasks - 1 = ((b.reach task).unreached : Int)
    omega
  callbacks := h.callbacks

-- A call of a task of the cluster is accepted only if the task participates in the barrier.
theorem mem_of_accepts (ha : Accepts c A b task) (hs : ¬A.stranger) : task ∈ b.participants := by
  have ht : task ∈ c.tasks := c.mem_tasks.mpr (by_contra fun hn => hs (ha.stranger hn))
  obtain hm | hl := ha.mem
  case inl => exact hm
  case inr =>
    have hm : b.participants ⊆ c.tasks := fun t ht => c.mem_tasks.mpr (h.members t ht)
    have hp := (List.subperm_of_subset h.nodup hm).perm_of_length_le (by rw [c.length_tasks, length_participants, hl])
    exact hp.mem_iff.mpr ht

theorem idle_of_next {counter : Int} (hid : id ≠ "") (hn : Next b counter) : b.Idle := by
  obtain ⟨hu, -⟩ | ⟨hp, -⟩ := hn
  case inl =>
    have he : b.id = "" := by simpa using (of_decide_eq_true hu).1
    exact .inr (h.named.resolve_left fun h => hid (h.symm.trans he))
  case inr => exact .inl hp

theorem nodup_of_next {tasks : List TaskId} (hn : NextTasks c b tasks) : tasks.Nodup := by
  obtain hn | ⟨-, hn, -⟩ := hn
  case inl => exact hn ▸ h.nodup
  case inr => exact hn

end Shape

theorem unreached_of_false {tasks : List TaskId} (hb : b.tasksAtBarrier = tasks.map (·, false)) :
    b.unreached = tasks.length := by
  rw [BarrierState.unreached, hb, List.countP_map]
  exact List.countP_eq_length.mpr fun t _ => rfl

theorem Single.Step.shape {v v' : Single} (h : Step c A id v v') (hs : ¬A.stranger) (hp : Shape c id v.barrier) :
    Shape c id v'.barrier := by
  cases h
  case hand   => exact hp
  case accept => exact hp
  case invoke => exact hp
  case answer => exact hp
  case start tasks _ _ _ hn hnt hc hid hp' hd hpn hb =>
    refine ⟨.inl hid, ?nodup, ?contains, ?pending, ?callbacks⟩
    case nodup =>
      rw [participants_eq hb]
      exact hp.nodup_of_next hnt
    case contains => exact participants_eq hb ▸ hc
    case pending => exact fun _ => by rw [hpn, unreached_of_false hb]
    case callbacks => simp [hd, MapVector.keys]
  case startFailed _ _ hn hnt hc hid _ hd =>
    exact ⟨.inl hid, hp.nodup_of_next hnt, hc, fun h => absurd h (by simp), by simp [hd, MapVector.keys]⟩
  case add         => exact hp.setCallbacks (MapVector.nodup_set hp.callbacks)
  case supersede   => exact hp.setCallbacks (MapVector.nodup_set hp.callbacks)
  case fail        => exact hp.pass
  case reach _ ha hb _ => exact hp.reach (hp.mem_of_accepts ha hs) hb
  case complete _ ha hb _ _ => exact (hp.reach (hp.mem_of_accepts ha hs) hb).pass
  case clear       => exact hp.setCallbacks List.nodup_nil
  case leave ht _  => exact hp.leave ht
  case drop ht _   => exact (hp.leave ht).setCallbacks (MapVector.nodup_erase hp.callbacks)
  case take        => exact hp.setCallbacks (MapVector.nodup_erase hp.callbacks)

-- The barrier waits for some task.
def Waits (id : String) (b : BarrierState) : Prop :=
  b.passed = false → b.id = id → 0 < b.unreached

theorem Waits.leave (hp : Shape c id b) (hw : Waits id b) (ht : task ∈ b.participants) : Waits id (b.leave task) := by
  intro hb hid
  rw [unreached_leave hp.nodup ht]
  split_ifs
  · exact Nat.succ_pos _
  · exact hw hb hid

theorem Waits.reach (hp : Shape c id b) (ht : task ∈ b.participants) (ha : ¬b.atBarrier task)
    (hz : b.numPendingTasks ≠ 1) : Waits id (b.reach task) := by
  intro hb _
  have hu := unreached_reach hp.nodup ht ha
  have hn := hp.pending hb
  omega

theorem Single.Step.waits {v v' : Single} (h : Single.Step c A id v v') (hs : ¬A.stranger) (hp : Shape c id v.barrier)
    (hv : Waits id v.barrier) : Waits id v'.barrier := by
  cases h
  case start ht _ _ _ _ _ _ _ hb =>
    intro _ _
    rw [unreached_of_false hb]
    exact List.length_pos_of_ne_nil fun h => hs (ht h).2
  case startFailed => exact fun h => absurd h (by simp)
  case fail        => exact fun h => absurd h (by simp)
  case complete    => exact fun h => absurd h (by simp)
  case reach hm hb hz => exact .reach hp (hp.mem_of_accepts hm hs) hb hz
  case leave ht _  => exact hv.leave hp ht
  case drop ht _   => exact hv.leave hp ht
  all_goals exact hv

section Callbacks

def Event.handed? : Event → Option BarrierCallback
  | handed _ callback => some callback
  | _                 => none

def Event.replied? : Event → Option BarrierCallback
  | reply _ _ _ callback _ => some callback
  | _                      => none

-- The callbacks that are handed over to a barrier, and those that it has invoked.
def handed (history : List Event) : List BarrierCallback :=
  history.filterMap Event.handed?

def replied (history : List Event) : List BarrierCallback :=
  history.filterMap Event.replied?

@[simp]
theorem handed_cons {event : Event} {h : List Event} : handed (event :: h) = event.handed?.toList ++ handed h := by
  cases he : event.handed? <;> simp [handed, he]

@[simp]
theorem replied_cons {event : Event} {h : List Event} : replied (event :: h) = event.replied?.toList ++ replied h := by
  cases he : event.replied? <;> simp [replied, he]

namespace Single

def waiting (v : Single) : List BarrierCallback :=
  (match v.ending with
  | some ending => ending.2
  | none        => v.barrier.doneCallbacks.map (·.2)) ++ v.held.toList

-- No callback is lost or invoked twice. No callback waits at a barrier that has passed or that is not
-- initialized, except for one that has just been added.
structure Conserved (v : Single) : Prop where
  balance : ∀ callback, (handed v.history).count callback =
    (replied v.history).count callback + v.waiting.count callback
  settled : v.ending = none → v.barrier.Idle →
    v.barrier.doneCallbacks.length ≤ if v.added then 1 else 0

variable {v v' : Single} {held : Option BarrierCallback} {added : Bool} {h : List Event}

@[simp]
theorem waiting_none : waiting ⟨b, none, held, added, h⟩ = b.doneCallbacks.map (·.2) ++ held.toList :=
  rfl

@[simp]
theorem waiting_some {result : Status} {callbacks : List BarrierCallback} :
    waiting ⟨b, some (result, callbacks), held, added, h⟩ = callbacks ++ held.toList :=
  rfl

theorem Conserved.nil_of_idle (hv : Conserved ⟨b, none, held, false, h⟩) (hb : b.Idle) : b.doneCallbacks = [] :=
  List.length_eq_zero_iff.mp (Nat.le_zero.mp (hv.settled rfl hb))

theorem Conserved.nil_of_next {counter : Int} (hv : Conserved ⟨b, none, held, false, h⟩) (hp : Shape c id b)
    (hid : id ≠ "") (hn : Next b counter) : b.doneCallbacks = [] :=
  hv.nil_of_idle (hp.idle_of_next hid hn)

theorem Step.balance (h : Step c A id v v') (hid : id ≠ "") (hp : Shape c id v.barrier) (hv : Conserved v)
    (callback : BarrierCallback) :
    (handed v'.history).count callback = (replied v'.history).count callback + v'.waiting.count callback := by
  have hb := hv.balance callback
  cases h
  case start hn _ _ _ _ hd _ _ =>
    have ho := hv.nil_of_next hp hid hn
    simpa [Event.handed?, Event.replied?, hd, ho] using hb
  case startFailed hn _ _ _ _ hd =>
    have ho := hv.nil_of_next hp hid hn
    simpa [Event.handed?, Event.replied?, ho] using hb
  case add task callback' _ hf =>
    have hc := (MapVector.map_snd_set_perm (k := task) (v := callback') hp.callbacks).count_eq callback
    rw [MapVector.erase_of_find hf] at hc
    simp [BarrierState.addCallback, List.count_cons] at hb hc ⊢
    omega
  case supersede task callback' _ _ hf =>
    have hc := (MapVector.map_snd_set_perm (k := task) (v := callback') hp.callbacks).count_eq callback
    have ho := (MapVector.map_snd_erase_perm hp.callbacks hf).count_eq callback
    simp [BarrierState.addCallback, Event.handed?, Event.replied?, List.count_cons] at hb hc ho ⊢
    omega
  case fail hc =>
    simp [Event.handed?, Event.replied?, hc.count_eq] at hb ⊢
    exact hb
  case complete hc =>
    simp [Event.handed?, Event.replied?, hc.count_eq] at hb ⊢
    exact hb
  case drop hf =>
    have ho := (MapVector.map_snd_erase_perm hp.callbacks hf).count_eq callback
    simp [BarrierState.eraseCallback, BarrierState.leave, Event.handed?, Event.replied?, List.count_cons] at hb ho ⊢
    omega
  case take hf =>
    have ho := (MapVector.map_snd_erase_perm hp.callbacks hf).count_eq callback
    simp [BarrierState.eraseCallback, List.count_cons] at hb ho ⊢
    omega
  all_goals
    simp [BarrierState.clearCallbacks, BarrierState.leave, BarrierState.reach, Event.handed?, Event.replied?,
      List.count_cons] at hb ⊢
    omega

theorem Step.settled (h : Step c A id v v') (hs : ¬A.stranger) (hr : ¬A.reachPassed) (hid : id ≠ "")
    (hp : Shape c id v.barrier) (hv : Conserved v) (he : v'.ending = none) (hb : v'.barrier.Idle) :
    v'.barrier.doneCallbacks.length ≤ if v'.added then 1 else 0 := by
  have hf {b : BarrierState} (hb : b.id = id) : ¬b.Fresh := fun hf => hid (hb.symm.trans hf.id)
  -- A call cannot be accepted.
  have ha {b : BarrierState} {task : TaskId} (hp : Shape c id b) (ha : Accepts c A b task) : ¬b.Idle := by
    rintro (hi | hi)
    case inl => exact hr (ha.passed hi)
    case inr => exact hf (hp.named_of_mem (hp.mem_of_accepts ha hs)) hi
  cases h
  case hand        => exact hv.settled rfl hb
  case answer      => exact hv.settled rfl hb
  case invoke      => cases he
  case fail        => cases he
  case complete    => cases he
  case startFailed => cases he
  case clear       => simp [BarrierState.clearCallbacks]
  case start hi hp' _ _ _ =>
    cases hb
    case inl hb => exact absurd (hp'.symm.trans hb) (by simp)
    case inr hb => exact absurd hb (hf hi)
  case add => simp [BarrierState.addCallback, hv.nil_of_idle hb.of_callbacks, MapVector.set, MapVector.keys]
  case supersede hk =>
    rw [hv.nil_of_idle hb.of_callbacks] at hk
    cases hk
  case accept hm _ => exact absurd hb (ha hp hm)
  case reach hm _ _ =>
    cases hb
    case inl hb => exact absurd (.inl hb) (ha hp hm)
    case inr hb => exact absurd hb (hf (hp.named_of_mem (hp.mem_of_accepts hm hs)))
  case leave ht _ =>
    cases hb
    case inl hb => exact hv.settled rfl (.inl hb)
    case inr hb => exact absurd hb (hf (hp.named_of_mem ht))
  case drop ht _ =>
    cases hb
    case inl hb => exact (List.length_filter_le _ _).trans (hv.settled rfl (.inl hb))
    case inr hb => exact absurd hb (hf (hp.named_of_mem ht))
  case take hb' hk =>
    have hl := (MapVector.map_snd_erase_perm hp.callbacks hk).length_eq
    have hn := hv.settled rfl (.inl hb')
    rw [List.length_cons, List.length_map, List.length_map] at hl
    exact Nat.le_of_succ_le_succ (hl.trans_le hn)

theorem Step.conserved (h : Step c A id v v') (hs : ¬A.stranger) (hr : ¬A.reachPassed) (hid : id ≠ "")
    (hp : Shape c id v.barrier) (hv : Conserved v) : Conserved v' :=
  ⟨h.balance hid hp hv, h.settled hs hr hid hp hv⟩

end Single
end Callbacks

section Agreement

-- The last time that the barrier has ended.
def Ended (id : String) (counter : Int) (result : Status) : List Event → Prop :=
  History.Since (· = .ended id counter result) fun event => ∃ counter result, event = .ended id counter result

-- The call is not given up, and the barrier does not fail to disconnect its task.
def Cause.isFinal : Cause → Bool
  | superseded | stale | notDisconnected => false
  | ended | repeated | notInitialized    => true

-- A callback gets the result with which the barrier has ended last.
def Agrees (id : String) (event : Event) (history : List Event) : Prop :=
  ∀ cause counter callback status, event = .reply cause id counter callback status → cause.isFinal →
    Ended id counter status history

theorem Ended.cons {counter : Int} {result : Status} {event : Event} {h : List Event}
    (hn : ∀ counter result, event ≠ .ended id counter result) (he : Ended id counter result h) :
    Ended id counter result (event :: h) :=
  .inr ⟨fun ⟨counter, result, he⟩ => hn counter result he, he⟩

theorem Ended.unique {counter counter' : Int} {result result' : Status} {h : List Event} (he : Ended id counter result h)
    (he' : Ended id counter' result' h) : counter = counter' ∧ result = result' := by
  induction h
  case nil => cases he
  case cons event h hi =>
    obtain rfl | ⟨hn, he⟩ := he
    case inl =>
      obtain he' | ⟨hn, -⟩ := he'
      case inl =>
        cases he'
        exact ⟨rfl, rfl⟩
      case inr => exact absurd ⟨counter, result, rfl⟩ hn
    case inr =>
      obtain rfl | ⟨-, he'⟩ := he'
      case inl => exact absurd ⟨counter', result', rfl⟩ hn
      case inr => exact hi he he'

theorem agrees_of_ne {event : Event} {h : List Event} (hn : ∀ cause counter callback status,
    event ≠ .reply cause id counter callback status) : Agrees id event h :=
  fun _ _ _ _ he => absurd he (hn _ _ _ _)

namespace Single

structure Agreement (id : String) (v : Single) : Prop where
  passed : v.barrier.passed → Ended id v.barrier.counter v.barrier.result v.history
  ending : ∀ result callbacks, v.ending = some (result, callbacks) → v.barrier.passed ∧ v.barrier.result = result
  always : History.Always (Agrees id) v.history

variable {v v' : Single}

theorem Step.agreement (h : Step c A id v v') (hv : Agreement id v) : Agreement id v' := by
  have hp := hv.passed
  have he := hv.ending
  have ha := hv.always
  cases h
  case hand   => exact ⟨fun h => (hp h).cons (by simp), he, agrees_of_ne (by simp), ha⟩
  case start hp' _ _ _ =>
    exact ⟨fun h => absurd (hp'.symm.trans h) (by simp), by simp, agrees_of_ne (by simp), ha⟩
  case startFailed => exact ⟨fun _ => .inl rfl, by simp, agrees_of_ne (by simp), ha⟩
  case add    => exact ⟨hp, he, ha⟩
  case supersede =>
    refine ⟨fun h => (hp h).cons (by simp), he, ?_, ha⟩
    intro cause counter callback status he hs
    cases he
    cases hs
  case fail   => exact ⟨fun _ => .inl rfl, by simp, agrees_of_ne (by simp), ha⟩
  case accept => exact ⟨fun h => (hp h).cons (by simp), he, agrees_of_ne (by simp), ha⟩
  case reach  => exact ⟨fun h => (hp h).cons (by simp), by simp, agrees_of_ne (by simp), ha⟩
  case complete =>
    exact ⟨fun _ => .inl rfl, by simp, agrees_of_ne (by simp), agrees_of_ne (by simp), ha⟩
  case invoke result callback _ _ _ callbacks =>
    obtain ⟨hb, hr⟩ := he _ _ rfl
    refine ⟨fun h => (hp h).cons (by simp), ?ending, ?replies, ha⟩
    case ending =>
      intro result callbacks h
      cases h
      exact ⟨hb, hr⟩
    case replies =>
      intro cause counter callback status h _
      cases h
      have hp := hp hb
      dsimp only at hp hr
      exact hr ▸ hp
  case clear  => exact ⟨hp, by simp, ha⟩
  case leave  => exact ⟨fun h => (hp h).cons (by simp), by simp, agrees_of_ne (by simp), ha⟩
  case drop   =>
    refine ⟨fun h => ((hp h).cons (by simp)).cons (by simp), by simp, ?_, agrees_of_ne (by simp), ha⟩
    intro cause counter callback status he hs
    cases he
    cases hs
  case take   => exact ⟨hp, he, ha⟩
  case answer hb =>
    refine ⟨fun h => (hp h).cons (by simp), by simp, ?_, ha⟩
    intro cause counter callback status he hf
    cases he
    obtain rfl | ⟨hb', rfl, rfl⟩ := hb
    case inl => cases hf
    case inr => exact hp hb'

end Single
end Agreement

section Progress

-- The instance has been initialized with these tasks, and has not ended since then.
def Opened (id : String) (counter : Int) (tasks : List TaskId) : List Event → Prop :=
  History.Since (· = .initialized id counter tasks) fun event =>
    (∃ counter tasks, event = .initialized id counter tasks) ∨ ∃ counter result, event = .ended id counter result

-- A call of the task has been accepted since the instance has been initialized, and the task has not
-- left since then.
def Reached (id : String) (counter : Int) (task : TaskId) : List Event → Prop :=
  History.Since (fun event => ∃ callback, event = .accepted id counter task callback) fun event =>
    event = .left id task ∨ ∃ counter tasks, event = .initialized id counter tasks

-- An instance only ends without an error if all of its tasks have reached it.
def Passes (id : String) (event : Event) (history : List Event) : Prop :=
  ∀ counter result, event = .ended id counter result → result.ok →
    ∃ tasks, Opened id counter tasks history ∧ ∀ t ∈ tasks, Reached id counter t history

section Cons

variable {counter : Int} {tasks : List TaskId} {event : Event} {h : List Event}

theorem Opened.cons (hn : ∀ counter tasks, event ≠ .initialized id counter tasks)
    (hn' : ∀ counter result, event ≠ .ended id counter result) (ho : Opened id counter tasks h) :
    Opened id counter tasks (event :: h) := by
  refine .inr ⟨?_, ho⟩
  rintro (⟨counter, tasks, he⟩ | ⟨counter, result, he⟩)
  case inl => exact hn counter tasks he
  case inr => exact hn' counter result he

theorem Reached.cons (hn : event ≠ .left id task) (hn' : ∀ counter tasks, event ≠ .initialized id counter tasks)
    (hr : Reached id counter task h) : Reached id counter task (event :: h) := by
  refine .inr ⟨?_, hr⟩
  rintro (he | ⟨counter, tasks, he⟩)
  case inl => exact hn he
  case inr => exact hn' counter tasks he

theorem passes_of_ne (hn : ∀ counter result, event ≠ .ended id counter result) : Passes id event h :=
  fun _ _ he => absurd he (hn _ _)

theorem passes_of_error {result : Status} (ho : ¬result.ok) : Passes id (.ended id counter result) h := by
  intro counter result he hr
  cases he
  exact absurd hr ho

end Cons

structure Progress (id : String) (b : BarrierState) (h : List Event) : Prop where
  opened  : b.passed = false → b.id = id →
    ∃ tasks, Opened id b.counter tasks h ∧ ∀ t, t ∈ tasks ↔ t ∈ b.participants
  reached : b.passed = false → ∀ t, b.atBarrier t → Reached id b.counter t h
  always  : History.Always (Passes id) h

namespace Progress

variable {h : List Event} {event : Event}

theorem setCallbacks {callbacks : List (TaskId × BarrierCallback)} (hp : Progress id b h) :
    Progress id { b with doneCallbacks := callbacks } h :=
  ⟨hp.opened, hp.reached, hp.always⟩

theorem of_passed (hb : b.passed) (ha : History.Always (Passes id) h) : Progress id b h :=
  ⟨fun h => absurd (h.symm.trans hb) (by simp), fun h => absurd (h.symm.trans hb) (by simp), ha⟩

-- An event that is neither the start nor the end of an instance, and with which no task leaves.
theorem cons (hp : Progress id b h) (hi : ∀ counter tasks, event ≠ .initialized id counter tasks)
    (he : ∀ counter result, event ≠ .ended id counter result) (hl : ∀ task, event ≠ .left id task) :
    Progress id b (event :: h) where
  opened hb hid := by
    obtain ⟨tasks, ho, ht⟩ := hp.opened hb hid
    exact ⟨tasks, ho.cons hi he, ht⟩
  reached hb t ht := (hp.reached hb t ht).cons (hl t) hi
  always := ⟨passes_of_ne he, hp.always⟩

theorem leave (hp : Progress id b h) (ht : task ∈ b.participants) : Progress id (b.leave task) (.left id task :: h) where
  opened hb hid := by
    obtain ⟨tasks, ho, hm⟩ := hp.opened hb hid
    exact ⟨tasks, ho.cons (by simp) (by simp), by rwa [participants_leave ht]⟩
  reached hb t ha := by
    obtain ⟨hn, ha⟩ := atBarrier_leave.mp ha
    exact (hp.reached hb t ha).cons (by simpa using hn.symm) (by simp)
  always := ⟨passes_of_ne (by simp), hp.always⟩

theorem reach {callback : BarrierCallback} (hp : Progress id b h) (ht : task ∈ b.participants) :
    Progress id (b.reach task) (.accepted id b.counter task callback :: h) where
  opened hb hid := by
    obtain ⟨tasks, ho, hm⟩ := hp.opened hb hid
    exact ⟨tasks, ho.cons (by simp) (by simp), by rwa [participants_reach ht]⟩
  reached hb t ha := by
    obtain rfl | ha := atBarrier_reach.mp ha
    case inl => exact .inl ⟨callback, rfl⟩
    case inr => exact (hp.reached hb t ha).cons (by simp) (by simp)
  always := ⟨passes_of_ne (by simp), hp.always⟩

end Progress

theorem Single.Step.progress {v v' : Single} (h : Single.Step c A id v v') (hs : ¬A.stranger) (hr : ¬A.reachPassed)
    (hp : Shape c id v.barrier) (hv : Progress id v.barrier v.history) : Progress id v'.barrier v'.history := by
  cases h
  case hand  => exact hv.cons (by simp) (by simp) (by simp)
  case start hi _ _ _ hb =>
    refine ⟨fun _ _ => ⟨_, .inl rfl, fun t => ?joined⟩, fun _ t ht => ?reached, passes_of_ne (by simp), hv.always⟩
    case joined => rw [participants_eq hb]
    case reached => exact absurd ht (not_atBarrier_of_false hb)
  case startFailed ho _ => exact .of_passed rfl ⟨passes_of_error ho, hv.always⟩
  case add         => exact hv.setCallbacks
  case supersede   => exact (hv.cons (by simp) (by simp) (by simp)).setCallbacks
  case fail ho _   => exact .of_passed rfl ⟨passes_of_error ho, hv.always⟩
  case accept      => exact hv.cons (by simp) (by simp) (by simp)
  case reach hm _ _ => exact hv.reach (hp.mem_of_accepts hm hs)
  case complete b _ task callback _ _ hm hb hz _ =>
    have ht := hp.mem_of_accepts hm hs
    have hb' : b.passed = false := Bool.eq_false_iff.mpr fun h => hr (hm.passed h)
    have hv' : Progress id (b.reach task) (.accepted id b.counter task callback :: _) := hv.reach ht
    obtain ⟨tasks, ho, hmem⟩ := hv'.opened hb' (hp.named_of_mem ht)
    refine .of_passed rfl ⟨?_, hv'.always⟩
    intro counter result he _
    cases he
    refine ⟨tasks, ho, fun t ht' => hv'.reached hb' t (atBarrier_of_unreached_eq_zero ?_ ((hmem t).mp ht'))⟩
    have hu : (b.reach task).unreached + 1 = b.unreached := unreached_reach hp.nodup ht hb
    have hn : b.numPendingTasks = b.unreached := hp.pending hb'
    change (b.reach task).unreached = 0
    omega
  case invoke      => exact hv.cons (by simp) (by simp) (by simp)
  case clear       => exact hv.setCallbacks
  case leave ht _  => exact hv.leave ht
  case drop ht _   => exact ((hv.leave ht).cons (by simp) (by simp) (by simp)).setCallbacks
  case take        => exact hv.setCallbacks
  case answer      => exact hv.cons (by simp) (by simp) (by simp)

end Progress
end Coordination.CoordinationService
