import Mathlib.Data.List.TakeWhile
import XlaModel.Coordination.Service.Operations

namespace Coordination.CoordinationService

variable {c : CoordinationService} {e : Env} {s s' : State} {task t : TaskId} {id id' : String}

namespace State

variable {f : TaskState → TaskState} {g : BarrierState → BarrierState} {events : List Event}

theorem cluster_setTask : (s.setTask task f).cluster t = if t = task then f (s.cluster t) else s.cluster t := by
  simp only [setTask, Function.update_apply]
  split_ifs with h <;> simp [h]

theorem barriers_setBarrier : (s.setBarrier id g).barriers id' = if id' = id then g (s.barriers id') else s.barriers id' := by
  simp only [setBarrier, Function.update_apply]
  split_ifs with h <;> simp [h]

@[simp]
theorem barriers_setBarrier_self : (s.setBarrier id g).barriers id = g (s.barriers id) := by
  simp [barriers_setBarrier]

theorem setBarrier_setBarrier {f g : BarrierState → BarrierState} :
    (s.setBarrier id f).setBarrier id g = s.setBarrier id fun b => g (f b) := by
  simp [setBarrier]

theorem emit_setBarrier {f : BarrierState → BarrierState} {event : Event} :
    (s.setBarrier id f).emit event = (s.emit event).setBarrier id f :=
  rfl

theorem emitAll_eq : s.emitAll events = { s with log := (events.map (⟨·, s.cluster⟩)).reverse ++ s.log } := by
  rw [emitAll]
  induction events generalizing s
  case nil => rfl
  case cons event events hi =>
    rw [List.foldl_cons, hi]
    simp [emit]

end State

open State

theorem clusterStateUpdated_eq : c.clusterStateUpdated e s =
    { s with
      version := s.version + 1
      watchCallbacks := []
      log := ((s.watchCallbacks.map fun call =>
        ⟨.watch call (c.getJobState e s.cluster) (s.version + 1), s.cluster⟩).reverse ++ s.log : List Entry) } := by
  simp only [clusterStateUpdated, notifyWatchTasksCallbacks, emitAll_eq, List.map_map, Function.comp_def]

section Updated

@[simp]
theorem clusterStateUpdated_cluster : (c.clusterStateUpdated e s).cluster = s.cluster := by
  simp [clusterStateUpdated_eq]

@[simp]
theorem clusterStateUpdated_version : (c.clusterStateUpdated e s).version = s.version + 1 := by
  simp [clusterStateUpdated_eq]

@[simp]
theorem clusterStateUpdated_watchCallbacks : (c.clusterStateUpdated e s).watchCallbacks = [] := by
  simp [clusterStateUpdated_eq]

@[simp]
theorem clusterStateUpdated_barriers : (c.clusterStateUpdated e s).barriers = s.barriers := by
  simp [clusterStateUpdated_eq]

@[simp]
theorem clusterStateUpdated_ongoingBarriers : (c.clusterStateUpdated e s).ongoingBarriers = s.ongoingBarriers := by
  simp [clusterStateUpdated_eq]

@[simp]
theorem clusterStateUpdated_alivenessStates : (c.clusterStateUpdated e s).alivenessStates = s.alivenessStates := by
  simp [clusterStateUpdated_eq]

@[simp]
theorem clusterStateUpdated_time : (c.clusterStateUpdated e s).time = s.time := by
  simp [clusterStateUpdated_eq]

@[simp]
theorem clusterStateUpdated_log : (c.clusterStateUpdated e s).log = (s.watchCallbacks.map fun call =>
    ⟨.watch call (c.getJobState e s.cluster) (s.version + 1), s.cluster⟩).reverse ++ s.log := by
  simp [clusterStateUpdated_eq]

end Updated

section Access

theorem task?_eq_some {taskState : TaskState} :
    c.task? s task = some taskState ↔ c.contains task ∧ s.cluster task = taskState := by
  simp [task?]

theorem modifyTask_eq_some {f : TaskState → TaskState} :
    c.modifyTask s task f = some s' ↔ c.contains task ∧ s.setTask task f = s' := by
  simp [modifyTask]

-- Applies an idempotent function to the states of some tasks.
theorem foldlM_modifyTask {f : TaskState → TaskState} {tasks : List TaskId} (hf : ∀ x, f (f x) = f x)
    (h : tasks.foldlM (fun s task => c.modifyTask s task f) s = some s') :
    (∀ task ∈ tasks, c.contains task) ∧
    s' = { s with cluster := fun t => if t ∈ tasks then f (s.cluster t) else s.cluster t } := by
  induction tasks generalizing s
  case nil => simpa using h.symm
  case cons task tasks hi =>
    rw [List.foldlM_cons] at h
    have ⟨s₁, h₁, h⟩ := Option.bind_eq_some_iff.mp h
    have ⟨hc, h₁⟩ := modifyTask_eq_some.mp h₁
    have ⟨ht, h⟩ := hi h
    refine ⟨fun t h => ?_, ?_⟩
    · cases List.mem_cons.mp h
      case inl h => exact h ▸ hc
      case inr h => exact ht t h
    · rw [h, ← h₁, setTask]
      congr 1
      funext t
      by_cases he : t = task
      case pos => by_cases hm : task ∈ tasks <;> simp [he, hm, hf]
      case neg => simp [he]

end Access

@[simp]
theorem exitBarrier_exitBarrier {x : TaskState} : (x.exitBarrier id).exitBarrier id = x.exitBarrier id := by
  simp [TaskState.exitBarrier]

@[simp]
theorem joinBarrier_joinBarrier {x : TaskState} : (x.joinBarrier id).joinBarrier id = x.joinBarrier id := by
  simp [TaskState.joinBarrier]

theorem mem_exitBarrier {x : TaskState} :
    id' ∈ (x.exitBarrier id).ongoingBarriers ↔ id' ∈ x.ongoingBarriers ∧ id' ≠ id := by
  simp [TaskState.exitBarrier]

theorem mem_joinBarrier {x : TaskState} :
    id' ∈ (x.joinBarrier id).ongoingBarriers ↔ id' = id ∨ id' ∈ x.ongoingBarriers := by
  simp [TaskState.joinBarrier]

section Mark

-- The state in which a barrier has just been marked as passed.
@[simps]
def marked (id : String) (result : Status) (s : State) : State :=
  let b := s.barriers id
  { s with
    barriers        := Function.update s.barriers id { b with passed := true, result }
    cluster         := fun t => if t ∈ b.participants then (s.cluster t).exitBarrier b.id else s.cluster t
    ongoingBarriers := s.ongoingBarriers.filter (· ≠ b.id)
    log             := ⟨.ended id b.counter result, s.cluster⟩ :: s.log }

theorem markPassed_eq {result : Status} (h : c.markPassed e id result s = some s') :
    (∀ t ∈ (s.barriers id).participants, c.contains t) ∧ s' = marked id result s := by
  rw [markPassed] at h
  have ⟨s₁, h₁, h⟩ := Option.bind_eq_some_iff.mp h
  have ⟨hc, h₁⟩ := foldlM_modifyTask (fun _ => exitBarrier_exitBarrier) h₁
  simp only [barriers_setBarrier_self, BarrierState.participants, List.Perm.mem_iff (e.perm _)] at hc h₁ h
  refine ⟨hc, (Option.some.inj h).symm.trans ?_⟩
  rw [h₁]
  rfl

end Mark

section Aliveness

variable {tasks tasks' : List TaskId}

theorem mem_aliveTasks : t ∈ c.aliveTasks s tasks ↔ t ∈ tasks ∧ c.contains t ∧ (s.cluster t).state = .connected := by
  simp [aliveTasks]

theorem incarnationIds_eq (h : ∀ t ∈ tasks, c.contains t) :
    c.incarnationIds s tasks = some (tasks.map fun t => (s.cluster t).incarnation) := by
  rw [incarnationIds]
  induction tasks
  case nil => rfl
  case cons task tasks hi =>
    have ht : c.task? s task = some (s.cluster task) := task?_eq_some.mpr ⟨h task List.mem_cons_self, rfl⟩
    rw [List.mapM_cons, hi fun t ht => h t (.tail _ ht), ht]
    rfl

-- The state in which the pending calls of some tasks are just finished.
@[simps]
def finished (c : CoordinationService) (e : Env) (tasks : List TaskId) (dones : List Nat) (s : State) : State :=
  let v := e.order (c.aliveTasks s tasks)
  let incarnations := v.map fun t => (s.cluster t).incarnation
  { s with
    log := ((dones.map fun call => ⟨.alive s.log.length call .okStatus v incarnations, s.cluster⟩).reverse ++
      s.log : List Entry) }

theorem finish_eq {dones : List Nat} : c.finish e tasks dones s = some (c.finished e tasks dones s) := by
  have h : ∀ t ∈ e.order (c.aliveTasks s tasks), c.contains t := fun t ht =>
    (mem_aliveTasks.mp ((e.perm _).mem_iff.mp ht)).2.1
  rw [finish, incarnationIds_eq h]
  simp only [Option.bind_eq_bind, Option.bind_some, emitAll_eq, List.map_map, Function.comp_def, finished]

theorem isSatisfied_iff {inBarrier : List TaskId} :
    c.isSatisfied s tasks inBarrier ↔ ∀ t ∈ tasks, c.contains t → (s.cluster t).state = .connected → t ∈ inBarrier := by
  simp only [isSatisfied, taskSetSubset, List.all_eq_true, mem_aliveTasks, decide_eq_true_eq]
  exact ⟨fun h t ht hc hs => h t ⟨ht, hc, hs⟩, fun h t ⟨ht, hc, hs⟩ => h t ht hc hs⟩

theorem taskSetEqual_iff (h : tasks.Nodup) (h' : tasks'.Nodup) :
    taskSetEqual tasks tasks' ↔ ∀ t, t ∈ tasks ↔ t ∈ tasks' := by
  simp only [taskSetEqual, taskSetSubset, decide_eq_true_eq, List.all_eq_true]
  constructor
  · rintro ⟨hl, hs⟩ t
    exact ((List.subperm_of_subset h hs).perm_of_length_le (le_of_eq hl.symm)).mem_iff
  · exact fun hm => ⟨((List.perm_ext_iff_of_nodup h h').mpr hm).length_eq, fun t ht => (hm t).mp ht⟩

-- The request that a call enters, between the other requests. It is a new one if the set of tasks is.
inductive Request (states : List AlivenessState) (tasks : List TaskId) :
    List AlivenessState → AlivenessState → List AlivenessState → Prop
  | old : states = before ++ a :: after → taskSetEqual a.tasks tasks → Request states tasks before a after
  | new : (∀ a ∈ states, ¬taskSetEqual a.tasks tasks) → Request states tasks states { tasks := tasks } []

theorem request_split : Request s.alivenessStates tasks (s.alivenessStates.takeWhile (!taskSetEqual ·.tasks tasks))
    ((s.alivenessStates.dropWhile (!taskSetEqual ·.tasks tasks)).head?.getD { tasks := tasks })
    (s.alivenessStates.dropWhile (!taskSetEqual ·.tasks tasks)).tail := by
  have hs := List.takeWhile_append_dropWhile (p := (!taskSetEqual ·.tasks tasks)) (l := s.alivenessStates)
  have hh := List.head?_dropWhile_not (!taskSetEqual ·.tasks tasks) s.alivenessStates
  cases hd : s.alivenessStates.dropWhile (!taskSetEqual ·.tasks tasks) <;> rw [hd] at hs hh
  case nil =>
    rw [List.append_nil] at hs
    have hn : ∀ a ∈ s.alivenessStates, ¬taskSetEqual a.tasks tasks := by
      simpa using List.takeWhile_eq_self_iff.mp hs
    rw [hs]
    exact .new hn
  case cons a after => exact .old hs.symm (by simpa using hh)

theorem getAliveTasks_cases {call : Nat} (h : c.getAliveTasks e task tasks call s = some s') :
    (task ∉ tasks ∧ s' = s.emit (.alive s.log.length call (notOneOfTheTasks task) [] [])) ∨
    (task ∈ tasks ∧ ∃ before a after, Request s.alivenessStates tasks.dedup before a after ∧
      (c.isSatisfied s tasks.dedup (a.enter task call).inBarrier ∧
        s' = c.finished e tasks.dedup (a.enter task call).dones { s with alivenessStates := before ++ after } ∨
      ¬c.isSatisfied s tasks.dedup (a.enter task call).inBarrier ∧
        s' = { s with alivenessStates := before ++ a.enter task call :: after })) := by
  simp only [getAliveTasks, List.mem_dedup, finish_eq] at h
  by_cases ht : task ∈ tasks
  case neg =>
    rw [if_pos ht] at h
    exact .inl ⟨ht, (Option.some.inj h).symm⟩
  case pos =>
    rw [if_neg (not_not.mpr ht)] at h
    refine .inr ⟨ht, _, _, _, request_split, ?_⟩
    split_ifs at h with hs
    · exact .inl ⟨hs, (Option.some.inj h).symm⟩
    · exact .inr ⟨hs, (Option.some.inj h).symm⟩

end Aliveness

theorem watchTasks_cases {v : Option Int} {call : Nat} (h : c.watchTasks e v call s = some s') :
    (s.version = v.getD (-1) ∧ s' = { s with watchCallbacks := s.watchCallbacks ++ [call] }) ∨
    (v.getD (-1) < s.version ∧ s' = s.emit (.watch call (c.getJobState e s.cluster) s.version)) := by
  rw [watchTasks] at h
  split_ifs at h with hl he
  · exact .inl ⟨he, (Option.some.inj h).symm⟩
  · exact .inr ⟨lt_of_le_of_ne (not_lt.mp hl) (Ne.symm he), (Option.some.inj h).symm⟩
end Coordination.CoordinationService
