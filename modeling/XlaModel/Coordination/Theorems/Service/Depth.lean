import XlaModel.Coordination.Theorems.Service.Basic
import XlaModel.Lib.Fallible

-- The depth to which barriers are passed is enough: a barrier that is failed by a task has failing
-- tasks of its own only if these are not in error yet. So what is done at depth zero is irrelevant.
namespace Coordination.CoordinationService

open Fallible

variable {c : CoordinationService} {e : Env} {s s' : State} {task : TaskId} {id : String}
  {status result error : Status} {reason : String} {pass pass' : PassBarrier}

-- The body of `passBarrier`.
def passBarrierStep (c : CoordinationService) (e : Env) (pass : PassBarrier) : PassBarrier :=
  fun id result s => do
    let s ← c.markPassed e id result s
    let s ← c.propagateResult e id result s
    c.afterBarrier e pass (s.barriers id).id result s

theorem passBarrierWithin_eq {depth : Nat} :
    c.passBarrierWithin e depth = (c.passBarrierStep e)^[depth] fun _ _ _ => none := by
  induction depth
  case zero => rfl
  case succ depth hi =>
    rw [Function.iterate_succ_apply', ← hi]
    rfl

section Errors

-- The tasks that can still be set to an error.
def unfailed (c : CoordinationService) (s : State) : Finset TaskId :=
  c.tasks.toFinset.filter fun t => (s.cluster t).state ≠ .error

def KeepsErrors (s s' : State) : Prop :=
  ∀ t, (s.cluster t).state = .error → (s'.cluster t).state = .error

theorem mem_unfailed : task ∈ c.unfailed s ↔ c.contains task ∧ (s.cluster task).state ≠ .error := by
  simp [unfailed, mem_tasks]

theorem card_unfailed_le : (c.unfailed s).card ≤ c.numTasks := by
  calc (c.unfailed s).card
    _ ≤ c.tasks.toFinset.card := Finset.card_filter_le ..
    _ ≤ c.tasks.length        := List.toFinset_card_le _
    _ = c.numTasks            := length_tasks c

namespace KeepsErrors

theorem of_cluster (h : s'.cluster = s.cluster) : KeepsErrors s s' := by
  intro t ht
  rwa [h]

theorem trans {s₁ s₂ s₃ : State} (h₁ : KeepsErrors s₁ s₂) (h₂ : KeepsErrors s₂ s₃) : KeepsErrors s₁ s₃ :=
  fun t ht => h₂ t (h₁ t ht)

theorem card_le (h : KeepsErrors s s') : (c.unfailed s').card ≤ (c.unfailed s).card := by
  refine Finset.card_le_card fun t ht => ?_
  obtain ⟨hc, he⟩ := mem_unfailed.mp ht
  exact mem_unfailed.mpr ⟨hc, fun hs => he (h t hs)⟩

theorem setError : KeepsErrors s (s.setTask task (·.setError error)) := by
  intro t ht
  rw [State.cluster_setTask]
  split_ifs
  case pos => rfl
  case neg => exact ht

theorem marked : KeepsErrors s (marked id result s) := by
  intro t ht
  simp only [marked_cluster]
  split_ifs
  case pos => exact ht
  case neg => exact ht

end KeepsErrors

theorem card_unfailed_setError (hc : c.contains task) (he : (s.cluster task).state ≠ .error) :
    (c.unfailed (s.setTask task (·.setError error))).card < (c.unfailed s).card := by
  refine Finset.card_lt_card (Finset.ssubset_iff_of_subset ?subset |>.mpr ⟨task, ?mem, ?notMem⟩)
  case subset =>
    intro t ht
    obtain ⟨hc, he⟩ := mem_unfailed.mp ht
    exact mem_unfailed.mpr ⟨hc, fun hs => he (KeepsErrors.setError t hs)⟩
  case mem => exact mem_unfailed.mpr ⟨hc, he⟩
  case notMem =>
    intro h
    obtain ⟨_, hn⟩ := mem_unfailed.mp h
    rw [State.cluster_setTask, if_pos rfl] at hn
    exact hn rfl

end Errors

-- The functions that pass no barrier.
section Frame

theorem invoke_cluster {cause : Cause} {counter : Int} {callback : BarrierCallback} (hs : ¬status.ok) :
    Ensures (c.invoke e cause id counter status s callback) (·.cluster = s.cluster) := by
  intro s' h
  cases callback <;> rw [invoke] at h
  case user call     => exact Option.some.inj h ▸ rfl
  case shutdown call => exact Option.some.inj h ▸ rfl
  case connect task incarnation call =>
    obtain ⟨taskState, _, h⟩ := Option.bind_eq_some_iff.mp h
    rw [if_neg (fun hok => hs hok.1)] at h
    split_ifs at h
    case pos => exact Option.some.inj h ▸ rfl
    case neg => exact Option.some.inj h ▸ rfl

theorem propagateResult_cluster (hr : ¬result.ok) :
    Ensures (c.propagateResult e id result s) (·.cluster = s.cluster) := by
  rw [propagateResult]
  refine .bind (P := (·.cluster = s.cluster)) ?_ fun s₁ h₁ => .pure h₁
  exact .foldlM _ rfl fun callback s₁ h₁ => (invoke_cluster hr).imp fun s₂ h₂ => h₂.trans h₁

theorem leaveBarrier_cluster : Ensures (c.leaveBarrier e task reason s id) (·.cluster = s.cluster) := by
  rw [leaveBarrier]
  split
  · exact .pure rfl
  · refine .bind (invoke_cluster ?_) fun s₁ h₁ => .pure h₁
    exact Bool.false_ne_true

theorem refreshAliveness_cluster : Ensures (c.refreshAliveness e s) (·.cluster = s.cluster) := by
  rw [refreshAliveness]
  refine .foldlM _ rfl fun a s₁ h₁ => ?_
  rw [refresh, finish_eq]
  split_ifs
  case pos => exact .pure h₁
  case neg => exact .pure h₁

theorem sendErrorPollingResponse_cluster :
    Ensures (sendErrorPollingResponse e error s) (·.cluster = s.cluster) := by
  rw [sendErrorPollingResponse]
  split_ifs
  · exact .pure rfl
  · refine .pure ?_
    rw [setPollingError, State.emitAll_eq]
  · exact .none

end Frame

-- Two functions agree on the barriers that fail while there are less than `n` tasks that are not in
-- error.
def PassesAgree (c : CoordinationService) (n : Nat) (pass pass' : PassBarrier) : Prop :=
  ∀ id result s, ¬result.ok → (c.unfailed s).card < n → Agree (pass id result s) (pass' id result s) (KeepsErrors s)

namespace PassesAgree

variable {n : Nat} (hp : PassesAgree c n pass pass')

include hp

theorem leaveOngoingBarriers (hn : (c.unfailed s).card < n) :
    Agree (c.leaveOngoingBarriers e pass task reason s) (c.leaveOngoingBarriers e pass' task reason s)
      (KeepsErrors s) := by
  simp only [CoordinationService.leaveOngoingBarriers]
  refine .bind (.of_ensures (.of_eq _)) fun taskState _ => ?_
  split_ifs
  case pos =>
    refine .of_ensures (.foldlM _ (.of_cluster rfl) fun id s₁ h₁ => ?_)
    exact leaveBarrier_cluster.imp fun s₂ h₂ => h₁.trans (.of_cluster h₂)
  case neg =>
    refine .foldlM _ (.of_cluster rfl) fun id s₁ h₁ => ?_
    have hr : ¬(failedByTask (s₁.barriers id) task reason).ok := Bool.false_ne_true
    exact (hp id _ s₁ hr (h₁.card_le.trans_lt hn)).imp fun s₂ h₂ => h₁.trans h₂

-- A task is set to an error before it fails barriers.
theorem setTaskError (hn : (c.unfailed s).card < n + 1) :
    Agree (c.setTaskError e pass error s task) (c.setTaskError e pass' error s task) (KeepsErrors s) := by
  simp only [CoordinationService.setTaskError]
  refine .bind (.of_ensures (.of_eq _)) fun taskState ht => ?_
  obtain ⟨hc, rfl⟩ := task?_eq_some.mp ht
  split_ifs with he
  case pos => exact .of_ensures (.pure (.of_cluster rfl))
  case neg =>
    have hs : (c.unfailed (s.setTask task (·.setError error))).card < n :=
      (card_unfailed_setError hc he).trans_le (Nat.lt_succ_iff.mp hn)
    refine .bind (hp.leaveOngoingBarriers hs) fun s₁ h₁ => .of_ensures ?_
    refine .bind refreshAliveness_cluster fun s₂ h₂ => .pure ?_
    exact (KeepsErrors.setError.trans h₁).trans (.of_cluster (by rw [clusterStateUpdated_cluster, h₂]))

theorem setAllTasksError (hn : (c.unfailed s).card < n + 1) :
    Agree (c.setAllTasksError e pass error s) (c.setAllTasksError e pass' error s) (KeepsErrors s) := by
  refine .foldlM _ (.of_cluster rfl) fun task s₁ h₁ => ?_
  exact (hp.setTaskError (h₁.card_le.trans_lt hn)).imp fun s₂ h₂ => h₁.trans h₂

theorem propagateError (hn : (c.unfailed s).card < n + 1) :
    Agree (c.propagateError e pass error s) (c.propagateError e pass' error s) (KeepsErrors s) := by
  simp only [CoordinationService.propagateError, sendErrorPollingResponseOrFailAllTasks]
  split_ifs
  · exact .of_ensures (.pure (.of_cluster rfl))
  · exact .of_ensures .none
  · exact .of_ensures (sendErrorPollingResponse_cluster.imp fun _ => .of_cluster)
  · exact hp.setAllTasksError hn

theorem afterBarrier (hr : ¬result.ok) (hn : (c.unfailed s).card < n + 1) :
    Agree (c.afterBarrier e pass id result s) (c.afterBarrier e pass' id result s) (KeepsErrors s) := by
  simp only [CoordinationService.afterBarrier, completeShutdownAfterBarrier, if_neg hr]
  split_ifs
  · exact hp.setAllTasksError hn
  · refine .bind (hp.propagateError hn) fun s₁ h₁ => ?_
    exact (hp.setAllTasksError (h₁.card_le.trans_lt hn)).imp fun s₂ h₂ => h₁.trans h₂
  · exact .of_ensures (.pure (.of_cluster rfl))

theorem step : PassesAgree c (n + 1) (c.passBarrierStep e pass) (c.passBarrierStep e pass') := by
  intro id result s hr hn
  refine .bind (P := KeepsErrors s) (.of_ensures fun s₁ h => ?_) fun s₁ h₁ => ?_
  · exact (markPassed_eq h).2 ▸ .marked
  · refine .bind (P := KeepsErrors s) (.of_ensures ?_) fun s₂ h₂ => ?_
    · exact (propagateResult_cluster hr).imp fun s₂ h₂ => h₁.trans (.of_cluster h₂)
    · exact (hp.afterBarrier hr (h₂.card_le.trans_lt hn)).imp fun s₃ h₃ => h₂.trans h₃

end PassesAgree

-- Each step sets at least one task to an error before it goes deeper.
theorem passesAgree_iterate {n : Nat} :
    PassesAgree c n ((c.passBarrierStep e)^[n] pass) ((c.passBarrierStep e)^[n] pass') := by
  induction n
  case zero => exact fun _ _ _ _ hn => absurd hn (Nat.not_lt_zero _)
  case succ n hi =>
    rw [Function.iterate_succ_apply', Function.iterate_succ_apply']
    exact hi.step

section Outermost

variable (hp : PassesAgree c (c.numTasks + 1) pass pass')

include hp

theorem disconnectTask_congr : c.disconnectTask e pass task s = c.disconnectTask e pass' task s := by
  have hs (s₁ : State) : c.leaveOngoingBarriers e pass task "task disconnected" s₁ =
      c.leaveOngoingBarriers e pass' task "task disconnected" s₁ :=
    (hp.leaveOngoingBarriers (Nat.lt_succ_of_le card_unfailed_le)).eq
  simp only [disconnectTask, hs]

-- Only the outermost barrier can succeed. Tasks that are in error can be disconnected then.
theorem passBarrierStep_congr : c.passBarrierStep e pass = c.passBarrierStep e pass' := by
  funext id result s
  by_cases hr : result.ok
  case neg => exact (hp.step id result s hr (Nat.lt_succ_of_lt (Nat.lt_succ_of_le card_unfailed_le))).eq
  case pos =>
    simp only [passBarrierStep, afterBarrier, completeShutdownAfterBarrier, disconnectAllNonRecoverableTasks,
      disconnectTask_congr hp, hr, not_true_eq_false, and_false, if_false, if_true]

end Outermost

theorem iterate_passBarrierStep : (c.passBarrierStep e)^[c.numTasks + 2] pass = c.passBarrier e := by
  have hs (p : PassBarrier) : (c.passBarrierStep e)^[c.numTasks + 2] p =
      c.passBarrierStep e ((c.passBarrierStep e)^[c.numTasks + 1] p) := Function.iterate_succ_apply' ..
  rw [passBarrier, passBarrierWithin_eq, hs, hs]
  exact passBarrierStep_congr passesAgree_iterate

-- The recursion has a unique solution.
theorem passBarrierStep_eq_iff : c.passBarrierStep e pass = pass ↔ pass = c.passBarrier e := by
  constructor
  case mp =>
    intro h
    calc pass
      _ = (c.passBarrierStep e)^[c.numTasks + 2] pass := (Function.iterate_fixed h _).symm
      _ = c.passBarrier e                             := iterate_passBarrierStep
  case mpr =>
    rintro rfl
    have hs := Function.iterate_succ_apply (c.passBarrierStep e) (c.numTasks + 2) (c.passBarrier e)
    rwa [Function.iterate_succ_apply', iterate_passBarrierStep, iterate_passBarrierStep] at hs

theorem passBarrierWithin_eq_passBarrier {depth : Nat} (h : c.numTasks + 2 ≤ depth) :
    c.passBarrierWithin e depth = c.passBarrier e := by
  obtain ⟨n, hn⟩ := Nat.exists_eq_add_of_le h
  rw [hn, passBarrierWithin_eq, Function.iterate_add_apply, iterate_passBarrierStep]

end Coordination.CoordinationService
