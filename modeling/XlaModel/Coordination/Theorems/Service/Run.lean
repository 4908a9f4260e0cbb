import XlaModel.Coordination.Theorems.Service.Operations

-- Every run of the service is a sequence of steps.
namespace Coordination.CoordinationService

variable {c : CoordinationService} {e : Env} {A : Allowed} {s s' : State} {x y : Point} {p : Phase}
  {id : String} {task : TaskId} {op : Op} {call : Nat} {status error : Status}

section Log

theorem Logged.mono {event : Event} (hl : s.log <:+ s'.log) (h : Logged s event) : Logged s' event := by
  obtain ⟨entry, he, rfl⟩ := h
  exact ⟨entry, hl.subset he, rfl⟩

namespace Inner

theorem log (h : Inner c e x y) : x.state.log <:+ y.state.log := by
  cases h
  case drop    => exact (List.suffix_cons _ _).trans (List.suffix_cons _ _)
  case connect =>
    rw [clusterStateUpdated_log]
    exact (List.suffix_cons _ _).trans (List.suffix_append _ _)
  all_goals simp [clusterStateUpdated_eq, List.suffix_append]

theorem ongoingBarriers (h : Inner c e x y) : y.state.ongoingBarriers ⊆ x.state.ongoingBarriers := by
  cases h
  case fail => exact fun _ h => List.mem_of_mem_filter h
  all_goals simp

end Inner

theorem Outer.log (h : Outer c e A x y) : x.state.log <:+ y.state.log := by
  cases h
  case start    => exact List.suffix_cons _ _
  case complete => exact (List.suffix_cons _ _).trans (List.suffix_cons _ _)
  case watch h  => obtain ⟨_, rfl⟩ | ⟨_, rfl⟩ := watchTasks_cases h <;> simp
  case poll h   => obtain ⟨_, rfl⟩ | ⟨_, _, rfl⟩ := pollForError_cases h <;> simp [polling, List.suffix_append]
  case alive h  =>
    obtain ⟨_, rfl⟩ | ⟨_, _, _, _, _, ⟨_, rfl⟩ | ⟨_, rfl⟩⟩ := getAliveTasks_cases h <;> simp [List.suffix_append]
  all_goals simp [clusterStateUpdated_eq, List.suffix_append]

theorem Steps.log (h : Steps c A x y) : x.state.log <:+ y.state.log := by
  induction h
  case refl        => exact List.suffix_rfl
  case tail h hi =>
    cases h
    case inner h => exact hi.trans h.log
    case outer h => exact hi.trans h.log

theorem Inners.ongoingBarriers (h : Inners c e x y) : y.state.ongoingBarriers ⊆ x.state.ongoingBarriers := by
  induction h
  case refl      => exact fun _ h => h
  case tail h hi => exact fun _ hm => hi (h.ongoingBarriers hm)

theorem Steps.done (e : Env) (h : Steps c A x ⟨none, p, [], s⟩) (hc : Called x.state call op)
    (hw : op.waits = false) : Steps c A x ⟨none, p, [], s.emit (.done call status)⟩ :=
  h.tail (.inner (e := e) (.done (.inr ⟨op, Logged.mono h.log hc, hw⟩)))

end Log

-- The barrier that an operation calls, with the arguments.
inductive Enters (c : CoordinationService) (e : Env) (s : State) : Op → String → Int → TaskId → List TaskId → Prop
  | barrier {id : String} {task : TaskId} {participants : List TaskId} :
    Enters c e s (.barrierAsync id counter timeout task participants) id counter task participants
  | register {task : TaskId} {incarnation : Nat} : c.contains task →
    Enters c e s (.registerTask task incarnation) clusterRegisterBarrierId 0 task []
  | shutdown {task : TaskId} :
    Enters c e s (.shutdownTask task) c.shutdownBarrierId 0 task (c.getTasksForShutdownBarrier e s).shutdownBarrierTasks

structure Permits (c : CoordinationService) (A : Allowed) (e : Env) (s : State) (op : Op) : Prop where
  enters  : ∀ id counter task participants, Enters c e s op id counter task participants →
    A.id id ∧ A.instances id (c.calledInstance id counter (s.barriers id)).1 ∧
      (¬c.contains task → A.stranger) ∧ (Stuck c s id counter task participants → A.reachPassed)
  cancel  : ∀ id counter task, op = .cancelBarrier id counter task → A.id id
  stale   : op = .checkStaleness → ∀ id ∈ s.ongoingBarriers, A.id id
  restart : A.restart

section Apply

variable {incarnation : Nat}

theorem steps_of_setTaskIncarnation (e : Env) (h : c.setTaskIncarnation task incarnation s = some s')
    (hr : A.restart) (hp : p.updating) :
    Steps c A ⟨none, p, [], s⟩ ⟨none, p, [], s'⟩ ∧ c.contains task ∧
      s' = (s.setTask task ({ · with incarnation })).emit (.registered task incarnation) := by
  rw [setTaskIncarnation] at h
  obtain ⟨s₁, h₁, h⟩ := Option.bind_eq_some_iff.mp h
  obtain ⟨hc, rfl⟩ := modifyTask_eq_some.mp h₁
  obtain rfl := Option.some.inj h
  exact ⟨steps_of_outer (e := e) (.register hp hc fun _ => hr), hc, rfl⟩

theorem steps_of_connectTask (h : c.connectTask e task incarnation s = some s') (hr : A.restart)
    (hu : p.updating = false) : Steps c A ⟨none, p, [], s⟩ ⟨none, p, [], s'⟩ := by
  have hpn : ({ p with updating := false } : Phase) = p := by rw [← hu]
  rw [connectTask] at h
  obtain ⟨s₁, h₁, h⟩ := Option.bind_eq_some_iff.mp h
  obtain ⟨s₂, h₂, h⟩ := Option.bind_eq_some_iff.mp h
  obtain ⟨hs₁, hc, -⟩ := steps_of_setTaskIncarnation (p := { p with updating := true }) e h₁ hr rfl
  obtain ⟨-, rfl⟩ := modifyTask_eq_some.mp h₂
  have hs₂ := hs₁.tail (.outer (e := e) (.connect rfl hc))
  have hu {s : State} : Outer c e A ⟨none, { p with updating := true }, [], s⟩ ⟨none, p, [], c.clusterStateUpdated e s⟩ := by
    have := Outer.update (c := c) (e := e) (A := A) (s := s) (p := { p with updating := true })
    rwa [hpn] at this
  refine .head (.outer (e := e) .updating) (hs₂.trans ?_)
  dsimp only at h
  split_ifs at h with hrec
  case pos =>
    obtain ⟨s₃, h₃, h⟩ := Option.bind_eq_some_iff.mp h
    have hs₃ := Inner.of_leaveOngoingBarriers_recoverable (p := { p with updating := true }) (l := []) h₃ hrec
    exact Option.some.inj h ▸ (steps_of_inners hs₃).tail (.outer hu)
  case neg => exact Option.some.inj h ▸ .single (.outer hu)

theorem steps_of_acceptTask (h : c.acceptTask e task incarnation call s = some s') (hr : A.restart)
    (hu : p.updating = false) (hc : Called s call op) (hw : op.waits = false) :
    Steps c A ⟨none, p, [], s⟩ ⟨none, p, [], s'⟩ := by
  rw [acceptTask] at h
  obtain ⟨s₁, h₁, h⟩ := Option.bind_eq_some_iff.mp h
  obtain rfl := Option.some.inj h
  have hs : Steps c A ⟨none, p, [], s⟩ ⟨none, p, [], s₁.emit (.done call .okStatus)⟩ :=
    .done e (steps_of_connectTask h₁ hr hu) hc hw
  have ho : Outer c e A ⟨none, p, [], s₁.emit (.done call .okStatus)⟩
      ⟨none, { p with updating := false }, [], c.clusterStateUpdated e (s₁.emit (.done call .okStatus))⟩ := .update
  rw [← hu] at ho
  exact hs.tail (.outer ho)

theorem steps_of_rejectTask (h : c.rejectTask e task error call s = some s') (hc : Called s call op)
    (hw : op.waits = false) : Steps c A ⟨none, p, [], s⟩ ⟨none, p, [], s'⟩ := by
  rw [rejectTask] at h
  obtain ⟨s₁, h₁, h⟩ := Option.bind_eq_some_iff.mp h
  obtain ⟨s₂, h₂, h⟩ := Option.bind_eq_some_iff.mp h
  obtain rfl := Option.some.inj h
  have hs₁ := Inner.of_setTaskError (p := p) (l := []) Inner.passBarrier_passes h₁
  have hs₂ := Inner.of_propagateError (p := p) (l := []) Inner.passBarrier_passes h₂
  exact (steps_of_inners (hs₁.trans hs₂)).done e hc hw

theorem steps_of_registerTask (h : c.registerTask e task incarnation s.time s = some s') (hj : Joined s)
    (hp : Permits c A e s (.registerTask task incarnation)) (hc : Called s s.time (.registerTask task incarnation)) :
    ∃ calling, Steps c A ⟨none, { op := some (.registerTask task incarnation), calling := true }, [], s⟩
      ⟨none, { op := some (.registerTask task incarnation), calling }, [], s'⟩ := by
  have hw : (Op.registerTask task incarnation).waits = false := rfl
  rw [registerTask] at h
  split_ifs at h with hn hi hb
  · obtain ⟨s₁, h₁, h⟩ := Option.bind_eq_some_iff.mp h
    obtain ⟨s₂, h₂, h⟩ := Option.bind_eq_some_iff.mp h
    obtain rfl := Option.some.inj h
    obtain ⟨hs₁, hct, rfl⟩ := steps_of_setTaskIncarnation (A := A)
      (p := { op := some (.registerTask task incarnation), calling := true, updating := true }) e h₁ hp.restart rfl
    obtain ⟨hid, hk, -, ha⟩ := hp.enters _ _ _ _ (.register hct)
    have hj₁ : Joined ((s.setTask task ({ · with incarnation })).emit (.registered task incarnation)) := by
      intro t id hi
      exact hj t id (by simpa [State.cluster_setTask, apply_ite TaskState.ongoingBarriers] using hi)
    have hs₂ := of_barrierAsyncLocked
      (p := { op := some (.registerTask task incarnation), calling := true, updating := true }) h₂ hj₁ hid hk
      (fun hn => absurd hct hn) (fun h => ha ⟨h.1, h.2, h.3, h.4, h.5, h.6⟩) ⟨rfl, rfl, rfl⟩ rfl .register
    exact ⟨false, .head (.outer (e := e) .updating) (hs₁.trans (hs₂.tail (.outer (e := e) .update)))⟩
  · exact ⟨true, steps_of_acceptTask h hp.restart rfl hc hw⟩
  · exact ⟨true, steps_of_acceptTask h hp.restart rfl hc hw⟩
  · exact ⟨true, steps_of_rejectTask h hc hw⟩
  · exact ⟨true, steps_of_rejectTask h hc hw⟩
  · exact ⟨true, Option.some.inj h ▸ Steps.done e .refl hc hw⟩

theorem steps_of_disconnectTask (h : c.disconnectTask e (c.passBarrier e) task s = some (s', status))
    (hc : Called s call op) (hw : op.waits = false) :
    Steps c A ⟨none, p, [], s⟩ ⟨none, p, [], s'.emit (.done call status)⟩ := by
  have hs := Inner.of_disconnectTask (p := p) (l := []) Inner.passBarrier_passes h
  exact (steps_of_inners hs).done e hc hw

theorem steps_of_shutdownTask (h : c.shutdownTask e task s.time s = some s') (hj : Joined s)
    (hp : Permits c A e s (.shutdownTask task)) (hc : Called s s.time (.shutdownTask task)) :
    ∃ calling, Steps c A ⟨none, { op := some (.shutdownTask task), calling := true }, [], s⟩
      ⟨none, { op := some (.shutdownTask task), calling }, [], s'⟩ := by
  rw [shutdownTask] at h
  split_ifs at h
  · obtain ⟨hid, hk, hs, ha⟩ := hp.enters _ _ _ _ .shutdown
    have hg : Steps c A ⟨none, { op := some (.shutdownTask task), calling := true }, [], s⟩
        ⟨none, { op := some (.shutdownTask task), calling := true }, [], c.getTasksForShutdownBarrier e s⟩ := by
      rw [getTasksForShutdownBarrier]
      split_ifs
      · exact steps_of_outer (e := e) .shutdownTasks
      · exact .refl
    have heq : (c.getTasksForShutdownBarrier e s).time = s.time ∧
        (c.getTasksForShutdownBarrier e s).barriers = s.barriers ∧
        (c.getTasksForShutdownBarrier e s).cluster = s.cluster := by
      rw [getTasksForShutdownBarrier]
      split_ifs <;> exact ⟨rfl, rfl, rfl⟩
    generalize c.getTasksForShutdownBarrier e s = s₁ at h hg heq hs ha
    obtain ⟨ht, hb, hcl⟩ := heq
    have hj₁ : Joined s₁ := by simpa only [Joined, hb, hcl] using hj
    rw [← ht] at h
    have hs₁ := of_barrierAsyncLocked (p := { op := some (.shutdownTask task), calling := true }) h hj₁ hid (hb ▸ hk) hs
      (fun h => ha ⟨h.1, h.2, h.3, hb ▸ h.4, hb ▸ h.5, hb ▸ h.6⟩) ⟨rfl, rfl, rfl⟩ rfl .shutdown
    exact ⟨false, hg.trans hs₁⟩
  · obtain ⟨⟨s₁, status⟩, h₁, h⟩ := Option.bind_eq_some_iff.mp h
    exact ⟨true, Option.some.inj h ▸ steps_of_disconnectTask h₁ hc rfl⟩

theorem steps_of_resetTask (h : c.resetTask e task s.time s = some s') (hc : Called s s.time (.resetTask task)) :
    Steps c A ⟨none, p, [], s⟩ ⟨none, p, [], s'⟩ := by
  rw [resetTask] at h
  obtain ⟨⟨s₁, status⟩, h₁, h⟩ := Option.bind_eq_some_iff.mp h
  exact Option.some.inj h ▸ steps_of_disconnectTask h₁ hc rfl

theorem steps_of_reportTaskError (h : c.reportTaskError e task error s.time s = some s')
    (hc : Called s s.time (.reportTaskError task error)) : Steps c A ⟨none, p, [], s⟩ ⟨none, p, [], s'⟩ := by
  rw [reportTaskError] at h
  split_ifs at h
  · exact Option.some.inj h ▸ Steps.done e .refl hc rfl
  · obtain ⟨s₁, h₁, h⟩ := Option.bind_eq_some_iff.mp h
    obtain ⟨s₂, h₂, h⟩ := Option.bind_eq_some_iff.mp h
    have hs₁ := Inner.of_setTaskError (p := p) (l := []) Inner.passBarrier_passes h₁
    have hs₂ := Inner.of_propagateError (p := p) (l := []) Inner.passBarrier_passes h₂
    exact Option.some.inj h ▸ (steps_of_inners (hs₁.trans hs₂)).done e hc rfl
  · exact Option.some.inj h ▸ Steps.done e .refl hc rfl

theorem steps_of_recordHeartbeat (h : c.recordHeartbeat e task incarnation s.time s = some s')
    (hc : Called s s.time (.recordHeartbeat task incarnation)) : Steps c A ⟨none, p, [], s⟩ ⟨none, p, [], s'⟩ := by
  rw [recordHeartbeat] at h
  split_ifs at h
  · exact Option.some.inj h ▸ Steps.done e .refl hc rfl
  · exact Option.some.inj h ▸ Steps.done e (steps_of_outer (e := e) .heartbeat) hc rfl
  · exact Option.some.inj h ▸ Steps.done e .refl hc rfl
  · exact steps_of_rejectTask h hc rfl
  · exact Option.some.inj h ▸ Steps.done e .refl hc rfl
  · exact Option.some.inj h ▸ Steps.done e .refl hc rfl

theorem inners_of_checkHeartbeats {tasks stale stale' : List TaskId}
    (h : tasks.foldlM (c.checkHeartbeat e) (s, stale) = some (s', stale')) :
    Inners c e ⟨none, p, [], s⟩ ⟨none, p, [], s'⟩ := by
  induction tasks generalizing s stale
  case nil => exact (Prod.mk.inj (Option.some.inj h)).1 ▸ .refl
  case cons task tasks hi =>
    rw [List.foldlM_cons] at h
    obtain ⟨⟨s₁, stale₁⟩, h₁, h⟩ := Option.bind_eq_some_iff.mp h
    refine .trans ?_ (hi h)
    rw [checkHeartbeat] at h₁
    dsimp only at h₁
    split_ifs at h₁
    · obtain ⟨s₂, h₂, h₁⟩ := Option.bind_eq_some_iff.mp h₁
      exact (Prod.mk.inj (Option.some.inj h₁)).1 ▸ Inner.of_setTaskError Inner.passBarrier_passes h₂
    · exact (Prod.mk.inj (Option.some.inj h₁)).1 ▸ .refl

theorem inners_of_checkHeartbeatTimeout (h : c.checkHeartbeatTimeout e s = some s') :
    Inners c e ⟨none, p, [], s⟩ ⟨none, p, [], s'⟩ := by
  rw [checkHeartbeatTimeout] at h
  obtain ⟨⟨s₁, stale⟩, h₁, h⟩ := Option.bind_eq_some_iff.mp h
  refine (inners_of_checkHeartbeats h₁).trans ?_
  dsimp only at h
  split_ifs at h
  · exact Option.some.inj h ▸ .refl
  · exact Inner.of_propagateError Inner.passBarrier_passes h

theorem steps_of_timedOut {ids : List String} (hid : ∀ id ∈ ids, A.id id) (ha : p.added = none)
    (h : ids.foldlM (fun s id => c.passBarrier e id (barrierTimedOut (s.barriers id) e) s) s = some s') :
    Steps c A ⟨none, p, [], s⟩ ⟨none, p, [], s'⟩ := by
  induction ids generalizing s
  case nil => exact Option.some.inj h ▸ .refl
  case cons id ids hi =>
    rw [List.foldlM_cons] at h
    obtain ⟨s₁, h₁, h⟩ := Option.bind_eq_some_iff.mp h
    have hs := steps_of_passBarrier (A := A) (p := p) h₁ Bool.false_ne_true (hid id List.mem_cons_self) (by simp [ha])
    rw [← ha] at hs
    exact hs.trans (hi (fun id hm => hid id (.tail _ hm)) h)

theorem steps_of_checkStaleness (h : c.checkStaleness e s = some s') (hid : ∀ id ∈ s.ongoingBarriers, A.id id)
    (ha : p.added = none) : Steps c A ⟨none, p, [], s⟩ ⟨none, p, [], s'⟩ := by
  rw [checkStaleness] at h
  obtain ⟨s₁, h₁, h⟩ := Option.bind_eq_some_iff.mp h
  have hs₁ := inners_of_checkHeartbeatTimeout (p := p) h₁
  refine (steps_of_inners hs₁).trans ?_
  rw [checkBarrierTimeout] at h
  refine steps_of_timedOut (fun id hm => hid id (hs₁.ongoingBarriers ?_)) ha h
  exact (e.perm _).mem_iff.mp (List.mem_of_mem_filter ((e.perm _).mem_iff.mp hm))

theorem steps_of_cancelBarrier {counter : Int} (h : c.cancelBarrier e id counter task s = some (s', status))
    (hid : A.id id) (ha : p.added = none) : Steps c A ⟨none, p, [], s⟩ ⟨none, p, [], s'⟩ := by
  rw [cancelBarrier] at h
  split_ifs at h
  · exact (Prod.mk.inj (Option.some.inj h)).1 ▸ .refl
  · exact (Prod.mk.inj (Option.some.inj h)).1 ▸ .refl
  · obtain ⟨s₁, h₁, h⟩ := Option.map_eq_some_iff.mp h
    have hs := steps_of_passBarrier (A := A) (p := p) h₁ Bool.false_ne_true hid (by simp [ha])
    rw [← ha] at hs
    exact (Prod.mk.inj h).1 ▸ hs

theorem of_apply (h : c.apply e s.time s op = some s') (hc : Called s s.time op) (hj : Joined s)
    (hp : Permits c A e s op) :
    ∃ calling, Steps c A ⟨none, { op, calling := true }, [], s⟩ ⟨none, { op, calling }, [], s'⟩ ∧
      (calling → op.waits = false) := by
  cases op <;> rw [apply] at h
  case registerTask =>
    obtain ⟨calling, hs⟩ := steps_of_registerTask h hj hp hc
    exact ⟨calling, hs, fun _ => rfl⟩
  case shutdownTask =>
    obtain ⟨calling, hs⟩ := steps_of_shutdownTask h hj hp hc
    exact ⟨calling, hs, fun _ => rfl⟩
  case resetTask       => exact ⟨true, steps_of_resetTask h hc, fun _ => rfl⟩
  case recordHeartbeat => exact ⟨true, steps_of_recordHeartbeat h hc, fun _ => rfl⟩
  case reportTaskError => exact ⟨true, steps_of_reportTaskError h hc, fun _ => rfl⟩
  case checkStaleness  => exact ⟨true, steps_of_checkStaleness h (hp.stale rfl) rfl, fun _ => rfl⟩
  case cancelBarrier id counter task =>
    obtain ⟨⟨s₁, status⟩, h₁, h⟩ := Option.bind_eq_some_iff.mp h
    have hs := steps_of_cancelBarrier (p := { op := some (.cancelBarrier id counter task), calling := true }) h₁
      (hp.cancel _ _ _ rfl) rfl
    exact ⟨true, Option.some.inj h ▸ hs.done e hc rfl, fun _ => rfl⟩
  case barrierAsync id counter timeout task participants =>
    obtain ⟨hid, hk, hs, ha⟩ := hp.enters _ _ _ _ .barrier
    exact ⟨false, of_barrierAsyncLocked h hj hid hk hs ha ⟨rfl, rfl, rfl⟩ rfl .barrier, fun h => absurd h Bool.false_ne_true⟩
  case watchTasks =>
    exact ⟨false, steps_of_outer (e := e) (.watch rfl rfl h), fun h => absurd h Bool.false_ne_true⟩
  case getAliveTasks =>
    exact ⟨false, steps_of_outer (e := e) (.alive rfl rfl h), fun h => absurd h Bool.false_ne_true⟩
  case pollForError =>
    exact ⟨false, steps_of_outer (e := e) (.poll rfl rfl (Option.some.inj h)), fun h => absurd h Bool.false_ne_true⟩

theorem joined_emit {event : Event} (hj : Joined s) : Joined (s.emit event) :=
  hj

-- An operation starts and returns.
theorem of_step (h : c.step s (e, op) = some s') (hj : Joined s)
    (hp : Permits c A e (s.emit (.called s.time op)) op) : Steps c A ⟨none, {}, [], s⟩ ⟨none, {}, [], s'⟩ := by
  rw [step] at h
  obtain ⟨s₁, h₁, h⟩ := Option.bind_eq_some_iff.mp h
  obtain rfl := Option.some.inj h
  obtain ⟨calling, hs, hw⟩ := of_apply (A := A) (s := s.emit (.called s.time op)) h₁ Inner.logged_emit (joined_emit hj) hp
  exact .head (.outer (e := e) .call) (hs.tail (.outer (e := e) (.return rfl rfl rfl rfl hw)))

end Apply

theorem Steps.joined (h : Steps c A x y) (hj : Joined x.state) : Joined y.state := by
  induction h
  case refl      => exact hj
  case tail h hi =>
    cases h
    case inner h => exact h.joined hi
    case outer h => exact h.joined hi

theorem permits_all : Permits c {} e s op where
  enters _ _ _ _ _ := ⟨trivial, trivial, fun _ => trivial, fun _ => trivial⟩
  cancel _ _ _ _   := trivial
  stale _ _ _      := trivial
  restart          := trivial

-- A run from a state between two operations.
theorem steps_of_permits {ops : List (Env × Op)} (hj : Joined s) (hp : ∀ op ∈ ops, ∀ s, Permits c A op.1 s op.2)
    (h : ops.foldlM c.step s = some s') : Steps c A ⟨none, {}, [], s⟩ ⟨none, {}, [], s'⟩ := by
  induction ops generalizing s
  case nil => exact Option.some.inj h ▸ .refl
  case cons op ops hi =>
    rw [List.foldlM_cons] at h
    obtain ⟨s₁, h₁, h⟩ := Option.bind_eq_some_iff.mp h
    have hs := of_step h₁ hj (hp op List.mem_cons_self _)
    exact hs.trans (hi (hs.joined hj) (fun op hm => hp op (.tail _ hm)) h)

theorem of_steps {ops : List (Env × Op)} (hj : Joined s) (h : ops.foldlM c.step s = some s') :
    Steps c {} ⟨none, {}, [], s⟩ ⟨none, {}, [], s'⟩ :=
  steps_of_permits hj (fun _ _ _ => permits_all) h

theorem joined_initial : Joined {} :=
  fun _ _ h => absurd h List.not_mem_nil

theorem of_run {ops : List (Env × Op)} (h : c.run ops = some s) : Steps c {} ⟨none, {}, [], {}⟩ ⟨none, {}, [], s⟩ :=
  of_steps joined_initial h

end Coordination.CoordinationService
