import XlaModel.Coordination.Theorems.Service.Depth

-- The functions of the service call each other recursively while a barrier ends. What they do is a
-- sequence of small steps, in which the calls that are not finished yet are explicit.
namespace Coordination.CoordinationService

-- A barrier that is marked as passed and has callbacks that are not invoked yet.
structure Ending where
  id        : String
  result    : Status
  callbacks : List BarrierCallback

-- The operation that is in progress: whether it can hand over a callback, whether it has to update the
-- cluster state before it returns, the callback that it is in possession of, and the barrier that
-- this callback has just been added to.
structure Phase where
  op       : Option Op := none
  calling  : Bool := false
  updating : Bool := false
  held     : Option (String × BarrierCallback) := none
  added    : Option String := none

-- Tasks that are leaving have changed their state. They are given with the barriers that they still
-- have to fail.
structure Point where
  ending  : Option Ending
  phase   : Phase
  leaving : List (TaskId × List String)
  state   : State

variable (c : CoordinationService) (e : Env)

def Logged (s : State) (event : Event) : Prop :=
  ∃ entry ∈ s.log, entry.event = event

def Called (s : State) (call : Nat) (op : Op) : Prop :=
  Logged s (.called call op)

def Registered (s : State) (task : TaskId) (incarnation : Nat) : Prop :=
  Logged s (.registered task incarnation)

def BarrierCallback.call : BarrierCallback → Nat
  | user call        => call
  | connect _ _ call => call
  | shutdown call    => call

-- The callback of the operation can be invoked after the operation has returned.
def Op.waits : Op → Bool
  | barrierAsync ..                                  => true
  | watchTasks _ | getAliveTasks .. | pollForError _ => true
  | _                                                => false

-- A status can be returned to a call if its callback has been invoked by a barrier, or if it is a call
-- that does not wait.
def Answerable (s : State) (call : Nat) : Prop :=
  (∃ cause id counter callback status, Logged s (.reply cause id counter callback status) ∧ callback.call = call) ∨
  ∃ op, Called s call op ∧ op.waits = false

def toLeave (taskState : TaskState) : List String :=
  if c.recoverable then [] else e.order taskState.ongoingBarriers

@[simps]
def respondAll (dones : List (Nat × Status)) (s : State) : State :=
  { s with log := (dones.map fun p => ⟨.done p.1 p.2, s.cluster⟩).reverse ++ s.log }

-- The callback of an earlier call of the same task is invoked.
def polling (task : TaskId) (call : Nat) (status : Status) (s : State) : State :=
  { respondAll ((MapVector.find s.errorPolling.doneCallbacks task).toList.map (·, status)) s with
    clientPollingForError := true
    errorPolling := { s.errorPolling with
      doneCallbacks := MapVector.set (MapVector.erase s.errorPolling.doneCallbacks task) task call } }

variable {c e} in
theorem pollForError_cases {s s' : State} {call : Nat} (h : c.pollForError e task call s = s') :
    (∃ status, s' = { s with clientPollingForError := true }.emit (.done call status)) ∨
    (s.errorPolling.responded = false ∧ ∃ status, s' = polling task call status s) := by
  rw [← h, pollForError]
  dsimp only
  split_ifs with _ _ _ hr
  any_goals exact .inl ⟨_, rfl⟩
  refine .inr ⟨Bool.not_eq_true _ ▸ hr, pollCancelled "new request from the same task", ?_⟩
  simp only [removeTask, polling, respondAll, State.emitAll_eq, List.map_map]
  rfl

open State in
inductive Inner : Point → Point → Prop
  | respond (dones : List (Nat × Status)) : (∀ d ∈ dones, Answerable s d.1) →
    Inner ⟨x, p, l, s⟩ ⟨x, p, l, respondAll dones s⟩
  | removePoll (status : Status) :
    Inner ⟨x, p, l, s⟩
      ⟨x, p, l, { respondAll ((MapVector.find s.errorPolling.doneCallbacks task).toList.map (·, status)) s with
        errorPolling := { s.errorPolling with
          doneCallbacks := MapVector.erase s.errorPolling.doneCallbacks task } }⟩
  | failPolls : s.errorPolling.responded = false →
    Inner ⟨x, p, l, s⟩
      ⟨x, p, l, { respondAll ((e.order s.errorPolling.doneCallbacks).map fun d => (d.2, error)) s with
        errorPolling := { responded := true, error } }⟩
  | connect : c.contains task → Answerable s call →
    Inner ⟨x, p, l, s⟩
      ⟨x, p, l, c.clusterStateUpdated e ((s.setTask task (·.setConnected e.now)).emit (.done call .okStatus))⟩
  | invoke {id : String} :
    Inner ⟨some ⟨id, result, callback :: callbacks⟩, p, l, s⟩
      ⟨some ⟨id, result, callbacks⟩, p, l, s.emit (.reply .ended id (s.barriers id).counter callback result)⟩
  | clear {id : String} :
    Inner ⟨some ⟨id, result, []⟩, p, l, s⟩ ⟨none, p, l, s.setBarrier id (·.clearCallbacks)⟩
  | fail {id : String} {ids : List String} : ¬c.recoverable → ¬result.ok → (∀ t ∈ (s.barriers id).participants, c.contains t) →
    Inner ⟨none, p, (task, id :: ids) :: l, s⟩
      ⟨some ⟨id, result, callbacksOf e (s.barriers id)⟩, p, (task, ids) :: l, marked id result s⟩
  | leave {id : String} : c.recoverable → c.contains task → id ∈ (s.cluster task).ongoingBarriers →
    MapVector.find (s.barriers id).doneCallbacks task = none →
    Inner ⟨none, p, l, s⟩ ⟨none, p, l, (s.emit (.left id task)).setBarrier id (·.leave task)⟩
  | drop {id : String} (status : Status) : c.recoverable → c.contains task →
    id ∈ (s.cluster task).ongoingBarriers → MapVector.find (s.barriers id).doneCallbacks task = some callback →
    Inner ⟨none, p, l, s⟩
      ⟨none, p, l, ((s.emit (.left id task)).emit (.reply .stale id (s.barriers id).counter callback status)).setBarrier
        id fun b => (b.leave task).eraseCallback task⟩
  | error : c.contains task → (s.cluster task).state ≠ .error →
    Inner ⟨none, p, l, s⟩
      ⟨none, p, (task, c.toLeave e (s.cluster task)) :: l, s.setTask task (·.setError status)⟩
  | disconnect : c.contains task → (s.cluster task).state ≠ .disconnected →
    Inner ⟨none, p, l, s⟩
      ⟨none, p, (task, c.toLeave e (s.cluster task)) :: l,
        s.setTask task (·.disconnect c.heartbeatTimeout e.now)⟩
  | finish {before after : List AlivenessState} : s.alivenessStates = before ++ a :: after →
    c.isSatisfied s a.tasks a.inBarrier →
    Inner ⟨none, p, l, s⟩ ⟨none, p, l, c.finished e a.tasks a.dones { s with alivenessStates := before ++ after }⟩
  | resume : (∀ a ∈ s.alivenessStates, ¬c.isSatisfied s a.tasks a.inBarrier) →
    Inner ⟨none, p, (task, []) :: l, s⟩ ⟨none, p, l, c.clusterStateUpdated e s⟩

abbrev Inners : Point → Point → Prop :=
  Relation.ReflTransGen (Inner c e)

-- What a step can do to a barrier. It depends on the tasks for which the barrier is ongoing, and on
-- whether some task is about to fail it.
inductive BarrierState.Changes (ongoing : TaskId → Prop) (failing : Prop) : BarrierState → BarrierState → Prop
  | same  : Changes ongoing failing b b
  | clear : Changes ongoing failing b b.clearCallbacks
  | leave : ongoing task → Changes ongoing failing b (b.leave task)
  | drop  : ongoing task → Changes ongoing failing b ((b.leave task).eraseCallback task)
  | fail {result : Status} : failing → ¬result.ok → Changes ongoing failing b { b with passed := true, result }

open BarrierState in
theorem Inner.changes {c : CoordinationService} {e : Env} {x y : Point} (h : Inner c e x y) (id : String) :
    Changes (fun t => id ∈ (x.state.cluster t).ongoingBarriers) (∃ f ∈ x.leaving, id ∈ f.2) (x.state.barriers id)
      (y.state.barriers id) := by
  have hb {s : State} {id' : String} {b : BarrierState} {ongoing : TaskId → Prop} {failing : Prop}
      (h : id = id' → Changes ongoing failing (s.barriers id') b) :
      Changes ongoing failing (s.barriers id) (Function.update s.barriers id' b id) := by
    by_cases he : id = id'
    case pos =>
      rw [he, Function.update_self]
      exact h he
    case neg =>
      rw [Function.update_of_ne he]
      exact .same
  cases h
  case clear       => exact hb fun _ => .clear
  case fail ho _ _ => exact hb fun he => .fail ⟨_, List.mem_cons_self, he ▸ List.mem_cons_self⟩ ‹_›
  case leave hi _  => exact hb fun he => .leave (he ▸ hi)
  case drop hi _   => exact hb fun he => .drop (he ▸ hi)
  all_goals simpa using .same

namespace Inner

variable {c : CoordinationService} {e : Env} {s s' : State} {x : Option Ending} {p : Phase}
  {l : List (TaskId × List String)} {task : TaskId} {id : String} {status result : Status}
  {callback : BarrierCallback} {cause : Cause} {counter : Int}

theorem logged_emit {event : Event} : Logged (s.emit event) event :=
  ⟨⟨event, s.cluster⟩, List.mem_cons_self, rfl⟩

theorem answerable_reply : Answerable (s.emit (.reply cause id counter callback status)) callback.call :=
  .inl ⟨_, _, _, _, _, logged_emit, rfl⟩

theorem done {call : Nat} (ha : Answerable s call) :
    Inner c e ⟨x, p, l, s⟩ ⟨x, p, l, s.emit (.done call status)⟩ :=
  respond [(call, status)] (by simpa using ha)

theorem of_invoke (h : c.invoke e cause id counter status s callback = some s') :
    Inners c e ⟨x, p, l, s.emit (.reply cause id counter callback status)⟩ ⟨x, p, l, s'⟩ := by
  have ha : Answerable (s.emit (.reply cause id counter callback status)) callback.call := answerable_reply
  cases callback <;> rw [CoordinationService.invoke] at h
  case user call => exact Option.some.inj h ▸ .refl
  case shutdown call => exact Option.some.inj h ▸ .single (done ha)
  case connect task incarnation call =>
    obtain ⟨taskState, ht, h⟩ := Option.bind_eq_some_iff.mp h
    obtain ⟨hc, _⟩ := task?_eq_some.mp ht
    split_ifs at h
    · obtain ⟨s₁, h₁, h⟩ := Option.bind_eq_some_iff.mp h
      obtain ⟨_, rfl⟩ := modifyTask_eq_some.mp h₁
      exact Option.some.inj h ▸ .single (connect hc ha)
    · exact Option.some.inj h ▸ .single (done ha)
    · exact Option.some.inj h ▸ .single (done ha)

theorem invoke_barriers (h : c.invoke e cause id counter status s callback = some s') :
    s'.barriers = s.barriers := by
  cases callback <;> rw [CoordinationService.invoke] at h
  case user call => exact Option.some.inj h ▸ rfl
  case shutdown call => exact Option.some.inj h ▸ rfl
  case connect task incarnation call =>
    obtain ⟨taskState, ht, h⟩ := Option.bind_eq_some_iff.mp h
    split_ifs at h
    · obtain ⟨s₁, h₁, h⟩ := Option.bind_eq_some_iff.mp h
      obtain ⟨_, rfl⟩ := modifyTask_eq_some.mp h₁
      rw [← Option.some.inj h, clusterStateUpdated_eq]
      rfl
    · exact Option.some.inj h ▸ rfl
    · exact Option.some.inj h ▸ rfl

-- A task is not connected by a callback that is cancelled.
theorem invoke_cancelled (h : c.invoke e cause id counter status s callback = some s')
    (hs : status.code = .cancelled) :
    ∃ dones, (∀ d ∈ dones, d.1 = callback.call) ∧
      s' = respondAll dones (s.emit (.reply cause id counter callback status)) := by
  have hok : status.ok = false := by simp [Status.ok, hs]
  cases callback <;> rw [CoordinationService.invoke] at h
  case user call => exact ⟨[], by simp, (Option.some.inj h).symm⟩
  case shutdown call => exact ⟨[(call, _)], by simp [BarrierCallback.call], (Option.some.inj h).symm⟩
  case connect task incarnation call =>
    obtain ⟨taskState, ht, h⟩ := Option.bind_eq_some_iff.mp h
    rw [if_neg (by simp [hok])] at h
    split_ifs at h
    · exact ⟨[(call, _)], by simp [BarrierCallback.call], (Option.some.inj h).symm⟩
    · exact ⟨[(call, _)], by simp [BarrierCallback.call], (Option.some.inj h).symm⟩

theorem of_propagateResult (h : c.propagateResult e id result s = some s') :
    Inners c e ⟨some ⟨id, result, callbacksOf e (s.barriers id)⟩, p, l, s⟩ ⟨none, p, l, s'⟩ := by
  have hf {callbacks : List BarrierCallback} {counter : Int} {s₁ s₂ : State} (hc : (s₁.barriers id).counter = counter)
      (h : callbacks.foldlM (c.invoke e .ended id counter result) s₁ = some s₂) :
      Inners c e ⟨some ⟨id, result, callbacks⟩, p, l, s₁⟩ ⟨some ⟨id, result, []⟩, p, l, s₂⟩ := by
    induction callbacks generalizing s₁
    case nil => exact Option.some.inj h ▸ .refl
    case cons callback callbacks hi =>
      rw [List.foldlM_cons] at h
      obtain ⟨s₃, h₃, h⟩ := Option.bind_eq_some_iff.mp h
      refine .head invoke (.trans (hc ▸ of_invoke h₃) (hi ?_ h))
      rw [invoke_barriers h₃, hc]
  rw [propagateResult] at h
  obtain ⟨s₁, h₁, h⟩ := Option.bind_eq_some_iff.mp h
  exact .tail (hf rfl h₁) (Option.some.inj h ▸ clear)

theorem of_refreshAliveness (h : c.refreshAliveness e s = some s') :
    Inners c e ⟨none, p, l, s⟩ ⟨none, p, l, s'⟩ ∧
    ∀ a ∈ s'.alivenessStates, ¬c.isSatisfied s' a.tasks a.inBarrier := by
  -- The calls that are still pending come first.
  have hf {as : List AlivenessState} {s₁ s₂ : State}
      (ha : ∀ a ∈ s₁.alivenessStates, ¬c.isSatisfied s₁ a.tasks a.inBarrier) (h : as.foldlM (c.refresh e) s₁ = some s₂) :
      Inners c e ⟨none, p, l, { s₁ with alivenessStates := s₁.alivenessStates ++ as }⟩ ⟨none, p, l, s₂⟩ ∧
      ∀ a ∈ s₂.alivenessStates, ¬c.isSatisfied s₂ a.tasks a.inBarrier := by
    induction as generalizing s₁
    case nil =>
      rw [List.append_nil]
      exact Option.some.inj h ▸ ⟨.refl, ha⟩
    case cons a as hi =>
      rw [List.foldlM_cons] at h
      obtain ⟨s₃, h₃, h⟩ := Option.bind_eq_some_iff.mp h
      rw [refresh] at h₃
      split_ifs at h₃ with hs
      · rw [finish_eq] at h₃
        obtain rfl := Option.some.inj h₃
        have hn : ∀ b ∈ (c.finished e a.tasks a.dones s₁).alivenessStates,
            ¬c.isSatisfied (c.finished e a.tasks a.dones s₁) b.tasks b.inBarrier := ha
        obtain ⟨hi, hn⟩ := hi hn h
        exact ⟨.head (finish rfl hs) hi, hn⟩
      · obtain rfl := Option.some.inj h₃
        have hn : ∀ b ∈ s₁.alivenessStates ++ [a], ¬c.isSatisfied s₁ b.tasks b.inBarrier := by
          intro b hb
          cases List.mem_append.mp hb
          case inl hb => exact ha b hb
          case inr hb => exact List.mem_singleton.mp hb ▸ hs
        obtain ⟨hi, hn⟩ := hi hn h
        rw [List.append_assoc] at hi
        exact ⟨hi, hn⟩
  obtain ⟨hi, hn⟩ := hf (by simp) h
  exact ⟨hi, hn⟩

theorem setBarrier_respondAll {dones : List (Nat × Status)} {f : BarrierState → BarrierState} :
    (respondAll dones s).setBarrier id f = respondAll dones (s.setBarrier id f) :=
  rfl

theorem of_removeTask {reason : String} : Inner c e ⟨x, p, l, s⟩ ⟨x, p, l, removeTask task reason s⟩ := by
  convert @removePoll c e x p l s task (pollCancelled reason) using 2
  simp only [removeTask, respondAll, State.emitAll_eq, List.map_map]
  rfl

section Leave

variable {reason : String} {pass : PassBarrier}

theorem of_leaveBarrier (h : c.leaveBarrier e task reason s id = some s') (hr : c.recoverable)
    (hc : c.contains task) (hm : id ∈ (s.cluster task).ongoingBarriers) :
    Inners c e ⟨none, p, l, s⟩ ⟨none, p, l, s'⟩ := by
  rw [leaveBarrier] at h
  have hd : (((s.emit (.left id task)).setBarrier id (·.leave task)).barriers id).doneCallbacks =
      (s.barriers id).doneCallbacks := by
    rw [State.barriers_setBarrier_self]
    rfl
  cases hf : MapVector.find (s.barriers id).doneCallbacks task <;> simp only [hd, hf] at h
  case none => exact Option.some.inj h ▸ .single (leave hr hc hm hf)
  case some callback =>
    obtain ⟨s₂, h₂, h⟩ := Option.bind_eq_some_iff.mp h
    obtain ⟨dones, hds, rfl⟩ := invoke_cancelled h₂ rfl
    simp only [setBarrier_respondAll, State.emit_setBarrier, State.setBarrier_setBarrier,
      State.barriers_setBarrier_self] at h
    obtain rfl := Option.some.inj h
    refine .head (drop _ hr hc hm hf) (.single (respond dones fun d hd' => ?_))
    rw [hds d hd']
    exact answerable_reply (s := s.emit (.left id task))

theorem of_leaveOngoingBarriers_recoverable (h : c.leaveOngoingBarriers e pass task reason s = some s')
    (hr : c.recoverable) : Inners c e ⟨none, p, l, s⟩ ⟨none, p, l, s'⟩ := by
  rw [leaveOngoingBarriers] at h
  obtain ⟨taskState, ht, h⟩ := Option.bind_eq_some_iff.mp h
  obtain ⟨hc, rfl⟩ := task?_eq_some.mp ht
  rw [if_pos hr] at h
  have hf {ids : List String} {s₁ : State} (hm : ∀ id ∈ ids, id ∈ (s₁.cluster task).ongoingBarriers)
      (h : ids.foldlM (c.leaveBarrier e task reason) s₁ = some s') :
      Inners c e ⟨none, p, l, s₁⟩ ⟨none, p, l, s'⟩ := by
    induction ids generalizing s₁
    case nil => exact Option.some.inj h ▸ .refl
    case cons id ids hi =>
      rw [List.foldlM_cons] at h
      obtain ⟨s₂, h₂, h⟩ := Option.bind_eq_some_iff.mp h
      have hl := of_leaveBarrier (p := p) (l := l) h₂ hr hc (hm id List.mem_cons_self)
      have hcl : s₂.cluster = s₁.cluster := leaveBarrier_cluster _ h₂
      exact hl.trans (hi (hcl ▸ fun id hid => hm id (.tail _ hid)) h)
  exact hf (fun id hid => (e.perm _).mem_iff.mp hid) h

end Leave

-- The given function ends barriers step by step.
def Passes (c : CoordinationService) (e : Env) (pass : PassBarrier) : Prop :=
  ∀ id result s s', pass id result s = some s' →
    (∀ t ∈ (s.barriers id).participants, c.contains t) ∧
    ∀ p l, Inners c e ⟨some ⟨id, result, callbacksOf e (s.barriers id)⟩, p, l, marked id result s⟩ ⟨none, p, l, s'⟩

section Pass

variable {reason : String} {pass : PassBarrier} {error : Status} (hp : Passes c e pass)

include hp

theorem of_failBarriers {ids : List String} (hr : ¬c.recoverable)
    (h : ids.foldlM (fun s id => pass id (failedByTask (s.barriers id) task reason) s) s = some s') :
    Inners c e ⟨none, p, (task, ids) :: l, s⟩ ⟨none, p, (task, []) :: l, s'⟩ := by
  induction ids generalizing s
  case nil => exact Option.some.inj h ▸ .refl
  case cons id ids hi =>
    rw [List.foldlM_cons] at h
    obtain ⟨s₁, h₁, h⟩ := Option.bind_eq_some_iff.mp h
    obtain ⟨hc, hs⟩ := hp _ _ _ _ h₁
    have ho : ¬(failedByTask (s.barriers id) task reason).ok := Bool.false_ne_true
    exact .head (fail hr ho hc) ((hs _ _).trans (hi h))

theorem of_leaveOngoingBarriers (h : c.leaveOngoingBarriers e pass task reason s = some s') :
    Inners c e ⟨none, p, (task, c.toLeave e (s.cluster task)) :: l, s⟩ ⟨none, p, (task, []) :: l, s'⟩ := by
  rw [toLeave]
  split_ifs with hr
  · exact of_leaveOngoingBarriers_recoverable h hr
  · rw [leaveOngoingBarriers] at h
    obtain ⟨taskState, ht, h⟩ := Option.bind_eq_some_iff.mp h
    obtain ⟨_, rfl⟩ := task?_eq_some.mp ht
    rw [if_neg hr] at h
    exact of_failBarriers hp hr h

theorem of_setTaskError (h : c.setTaskError e pass error s task = some s') :
    Inners c e ⟨none, p, l, s⟩ ⟨none, p, l, s'⟩ := by
  rw [setTaskError] at h
  obtain ⟨taskState, ht, h⟩ := Option.bind_eq_some_iff.mp h
  obtain ⟨hc, rfl⟩ := task?_eq_some.mp ht
  split_ifs at h with he
  · exact Option.some.inj h ▸ .refl
  · obtain ⟨s₁, h₁, h⟩ := Option.bind_eq_some_iff.mp h
    obtain ⟨s₂, h₂, h⟩ := Option.bind_eq_some_iff.mp h
    obtain ⟨hs₂, hn⟩ := of_refreshAliveness (p := p) (l := (task, []) :: l) h₂
    have hs₁ := of_leaveOngoingBarriers (p := p) (l := l) hp h₁
    rw [State.cluster_setTask, if_pos rfl] at hs₁
    exact .head (.error hc he) (hs₁.trans (hs₂.trans (Option.some.inj h ▸ .single (resume hn))))

theorem of_setAllTasksError (h : c.setAllTasksError e pass error s = some s') :
    Inners c e ⟨none, p, l, s⟩ ⟨none, p, l, s'⟩ := by
  rw [setAllTasksError] at h
  generalize e.order c.tasks = tasks at h
  induction tasks generalizing s
  case nil => exact Option.some.inj h ▸ .refl
  case cons task tasks hi =>
    rw [List.foldlM_cons] at h
    obtain ⟨s₁, h₁, h⟩ := Option.bind_eq_some_iff.mp h
    exact (of_setTaskError hp h₁).trans (hi h)

theorem of_disconnectTask {status : Status} (h : c.disconnectTask e pass task s = some (s', status)) :
    Inners c e ⟨none, p, l, s⟩ ⟨none, p, l, s'⟩ := by
  rw [disconnectTask] at h
  split_ifs at h with hc hd
  · exact (Prod.mk.inj (Option.some.inj h)).1 ▸ .refl
  · obtain ⟨s₁, h₁, h⟩ := Option.bind_eq_some_iff.mp h
    obtain ⟨s₂, h₂, h⟩ := Option.bind_eq_some_iff.mp h
    obtain ⟨hs₂, hn⟩ := of_refreshAliveness (p := p) (l := (task, []) :: l) h₂
    have hs₁ := of_leaveOngoingBarriers (p := p) (l := l) hp h₁
    rw [State.cluster_setTask, if_pos rfl] at hs₁
    refine .head (.disconnect hc hd) (hs₁.trans (hs₂.trans ?_))
    have hr : Inner c e ⟨none, p, (task, []) :: l, s₂⟩
        ⟨none, p, (task, []) :: l, removeTask task "task has disconnected." s₂⟩ := of_removeTask
    rw [← (Prod.mk.inj (Option.some.inj h)).1]
    refine .head hr (.single (resume ?_))
    rwa [removeTask, State.emitAll_eq]
  · exact (Prod.mk.inj (Option.some.inj h)).1 ▸ .refl

theorem of_disconnectAllNonRecoverableTasks (h : c.disconnectAllNonRecoverableTasks e pass s = some s') :
    Inners c e ⟨none, p, l, s⟩ ⟨none, p, l, s'⟩ := by
  rw [disconnectAllNonRecoverableTasks] at h
  generalize e.order c.tasks = tasks at h
  induction tasks generalizing s
  case nil => exact Option.some.inj h ▸ .refl
  case cons task tasks hi =>
    rw [List.foldlM_cons] at h
    obtain ⟨s₁, h₁, h⟩ := Option.bind_eq_some_iff.mp h
    refine .trans ?_ (hi h)
    split_ifs at h₁
    · exact Option.some.inj h₁ ▸ .refl
    · obtain ⟨⟨s₂, status⟩, h₂, hs⟩ := Option.map_eq_some_iff.mp h₁
      exact hs ▸ of_disconnectTask hp h₂

theorem of_propagateError (h : c.propagateError e pass error s = some s') :
    Inners c e ⟨none, p, l, s⟩ ⟨none, p, l, s'⟩ := by
  rw [propagateError, sendErrorPollingResponseOrFailAllTasks] at h
  split_ifs at h with hr ho hc
  · exact Option.some.inj h ▸ .refl
  · rw [sendErrorPollingResponse] at h
    split_ifs at h
    · exact Option.some.inj h ▸ .refl
    · rw [← Option.some.inj h]
      refine .single ?_
      convert @failPolls c e none p l s error (Bool.not_eq_true _ ▸ ‹¬s.errorPolling.responded = true›) using 2
      simp only [setPollingError, respondAll, State.emitAll_eq, List.map_map]
      rfl
  · exact of_setAllTasksError hp h

theorem of_afterBarrier (h : c.afterBarrier e pass id result s = some s') :
    Inners c e ⟨none, p, l, s⟩ ⟨none, p, l, s'⟩ := by
  rw [afterBarrier, completeShutdownAfterBarrier] at h
  split_ifs at h
  · exact of_setAllTasksError hp h
  · exact of_disconnectAllNonRecoverableTasks hp h
  · obtain ⟨s₁, h₁, h⟩ := Option.bind_eq_some_iff.mp h
    exact (of_propagateError hp h₁).trans (of_setAllTasksError hp h)
  · exact Option.some.inj h ▸ .refl

end Pass

theorem passBarrierWithin_passes {depth : Nat} : Passes c e (c.passBarrierWithin e depth) := by
  induction depth
  case zero =>
    intro id result s s' h
    simp [passBarrierWithin] at h
  case succ depth hi =>
    intro id result s s' h
    rw [passBarrierWithin] at h
    obtain ⟨s₁, h₁, h⟩ := Option.bind_eq_some_iff.mp h
    obtain ⟨hc, rfl⟩ := markPassed_eq h₁
    obtain ⟨s₂, h₂, h⟩ := Option.bind_eq_some_iff.mp h
    refine ⟨hc, fun p l => .trans ?_ (of_afterBarrier hi h)⟩
    have hs := of_propagateResult (p := p) (l := l) h₂
    simpa [marked, callbacksOf] using hs

theorem passBarrier_passes : Passes c e (c.passBarrier e) :=
  passBarrierWithin_passes

end Inner
end Coordination.CoordinationService
