import XlaModel.Coordination.Theorems.Service.Safety
import XlaModel.Coordination.Theorems.Service.Calls

-- Runs in which the clients call the service as it is meant to be called.
namespace Coordination.CoordinationService

variable {c : CoordinationService} {e : Env} {A : Allowed} {s s' : State} {x y : Point} {id : String} {op : Op}
  {ops : List (Env × Op)}

-- Only the service itself calls the barriers of registration and of shutdown.
def IsReserved (c : CoordinationService) (id : String) : Prop :=
  id = clusterRegisterBarrierId ∨ id = c.shutdownBarrierId

-- A barrier is called by a task of the cluster.
def Op.Proper (c : CoordinationService) : Op → Prop
  | barrierAsync id _ _ task _ => c.contains task ∧ ¬IsReserved c id
  | shutdownTask task          => c.contains task
  | _                          => True

-- No step of a proper run is taken by an unknown task, or reaches a barrier that has passed.
@[simps]
def proper (c : CoordinationService) : Allowed where
  reachPassed     := False
  stranger        := False
  instances id k  := IsReserved c id → k = 0

theorem Single.Step.counter {v v' : Single} (h : Single.Step c A id v v') :
    v'.barrier.counter = v.barrier.counter ∨ A.instances id v'.barrier.counter := by
  cases h
  case start hk _ _ _ _ _ _ _ _ _       => exact .inr hk
  case startFailed hk _ _ _ _ _ _ => exact .inr hk
  all_goals exact .inl rfl

theorem Steps.reserved (h : Steps c (proper c) x y) (hj : Joined x.state) (hr : IsReserved c id)
    (hx : (x.state.barriers id).counter = 0) : (y.state.barriers id).counter = 0 := by
  have h := h.single hj id
  generalize hv : x.single id = v, hw : y.single id = w at h
  have hx : v.barrier.counter = 0 := hv ▸ hx
  suffices hy : w.barrier.counter = 0 from congrArg (·.barrier.counter) hw ▸ hy
  clear hv hw
  induction h
  case refl => exact hx
  case tail h hi =>
    obtain h | h := h.counter
    case inl => exact h.trans hi
    case inr => exact h hr

theorem permits_proper (hr : ∀ id, IsReserved c id → (s.barriers id).counter = 0) (ho : op.Proper c) :
    Permits c (proper c) e s op where
  enters id counter task participants h := by
    have hu (hc : c.contains task) : ¬c.contains task → (proper c).stranger := fun hn => hn hc
    have hk (hi : IsReserved c id) : (c.calledInstance id 0 (s.barriers id)).1 = 0 := by
      rw [calledInstance, if_neg]
      rintro ⟨-, -, -, h, h'⟩
      exact hi.elim h h'
    have hp : Stuck c s id counter task participants → (proper c).reachPassed := fun hs => hs.again (hr id hs.once)
    cases h
    case barrier  => exact ⟨trivial, fun hi => absurd hi ho.2, hu ho.1, hp⟩
    case register hc => exact ⟨trivial, hk, hu hc, hp⟩
    case shutdown => exact ⟨trivial, hk, hu ho, hp⟩
  cancel _ _ _ _ := trivial
  stale _ _ _    := trivial
  restart        := trivial

theorem steps_of_proper (hj : Joined s) (hr : ∀ id, IsReserved c id → (s.barriers id).counter = 0)
    (ho : ∀ op ∈ ops, op.2.Proper c) (h : ops.foldlM c.step s = some s') :
    Steps c (proper c) ⟨none, {}, [], s⟩ ⟨none, {}, [], s'⟩ := by
  induction ops generalizing s
  case nil => exact Option.some.inj h ▸ .refl
  case cons op ops hi =>
    rw [List.foldlM_cons] at h
    obtain ⟨s₁, h₁, h⟩ := Option.bind_eq_some_iff.mp h
    have hs := of_step h₁ hj (permits_proper hr (ho op List.mem_cons_self))
    exact hs.trans <| hi (hs.joined hj) (fun id hi => hs.reserved hj hi (hr id hi)) (fun op hm => ho op (.tail _ hm)) h

theorem steps_of_proper_run (ho : ∀ op ∈ ops, op.2.Proper c) (h : c.run ops = some s) :
    Steps c (proper c) ⟨none, {}, [], {}⟩ ⟨none, {}, [], s⟩ :=
  steps_of_proper joined_initial (fun _ _ => rfl) ho h

section Barriers

-- What is known of a barrier in every step of a proper run.
structure Single.Inv (c : CoordinationService) (id : String) (v : Single) : Prop where
  shape     : Shape c id v.barrier
  waits     : Waits id v.barrier
  conserved : Conserved v
  progress  : Progress id v.barrier v.history

theorem Single.inv_of_steps {v v' : Single} (h : Relation.ReflTransGen (Single.Step c (proper c) id) v v') (hid : id ≠ "")
    (hv : Inv c id v) : Inv c id v' := by
  induction h
  case refl => exact hv
  case tail h hi =>
    exact ⟨h.shape (fun h => h) hi.shape, h.waits (fun h => h) hi.shape hi.waits,
      h.conserved (fun h => h) (fun h => h) hid hi.shape hi.conserved, h.progress (fun h => h) (fun h => h) hi.shape hi.progress⟩

theorem Single.inv_initial (hid : id ≠ "") : Inv c id (Point.single ⟨none, {}, [], {}⟩ id) where
  shape     := .initial
  waits     := fun _ h => absurd h.symm hid
  conserved := ⟨fun _ => rfl, fun _ _ => Nat.zero_le _⟩
  progress  := ⟨fun _ h => absurd h.symm hid, fun _ _ h => absurd h Bool.false_ne_true, trivial⟩

theorem single_inv (ho : ∀ op ∈ ops, op.2.Proper c) (h : c.run ops = some s) (hid : id ≠ "") :
    Single.Inv c id ⟨s.barriers id, none, none, false, s.history id⟩ :=
  Single.inv_of_steps ((steps_of_proper_run ho h).single joined_initial id) hid (Single.inv_initial hid)

theorem single_agreement (h : c.run ops = some s) :
    Single.Agreement id ⟨s.barriers id, none, none, false, s.history id⟩ := by
  have hs := (of_run h).single joined_initial id
  have hi : Single.Agreement id (Point.single ⟨none, {}, [], {}⟩ id) :=
    ⟨fun h => absurd h Bool.false_ne_true, fun _ _ h => absurd h (Option.some_ne_none _).symm, trivial⟩
  change Single.Agreement id (Point.single ⟨none, {}, [], s⟩ id)
  generalize Point.single ⟨none, {}, [], s⟩ id = v at hs ⊢
  induction hs
  case refl      => exact hi
  case tail h hi => exact h.agreement hi

-- Every callback that is not given up gets the result with which the barrier has ended last. So these
-- results are equal unless the barrier has ended again in between.
theorem replies_agree (h : c.run ops = some s) (id : String) :
    ((s.barriers id).passed → Ended id (s.barriers id).counter (s.barriers id).result (s.history id)) ∧
    History.Always (Agrees id) (s.history id) ∧
    ∀ cause₁ counter₁ callback₁ status₁ cause₂ counter₂ callback₂ status₂ new mid old,
      s.history id = new ++ .reply cause₂ id counter₂ callback₂ status₂ ::
        (mid ++ .reply cause₁ id counter₁ callback₁ status₁ :: old) →
      cause₁.isFinal → cause₂.isFinal → (∀ counter result, .ended id counter result ∉ mid) →
      counter₁ = counter₂ ∧ status₁ = status₂ := by
  have ha : Single.Agreement id ⟨s.barriers id, none, none, false, s.history id⟩ := single_agreement h
  refine ⟨ha.passed, ha.always, ?_⟩
  intro cause₁ counter₁ callback₁ status₁ cause₂ counter₂ callback₂ status₂ new mid old he hf₁ hf₂ hm
  have h₂ := History.always_iff.mp ha.always _ _ _ he _ _ _ _ rfl hf₂
  have h₁ : Ended id counter₁ status₁ old := History.always_iff.mp ha.always
    (new ++ .reply cause₂ id counter₂ callback₂ status₂ :: mid) (.reply cause₁ id counter₁ callback₁ status₁) old
    (by rw [he, List.append_assoc, List.cons_append]) _ _ _ _ rfl hf₁
  refine Ended.unique (h := mid ++ .reply cause₁ id counter₁ callback₁ status₁ :: old) (h₁.cons (by simp) |>.append ?_) h₂
  rintro event hm' ⟨counter, result, rfl⟩
  exact hm counter result hm'

def bothCall : List (Env × Op) :=
  [(.fixed, .barrierAsync "b" 0 10 0 []), (.fixed, .barrierAsync "b" 0 10 1 [])]

theorem replies_agree_pair : ∃ s, pair.run bothCall = some s ∧ (s.barriers "b").passed ∧
    Ended "b" (s.barriers "b").counter (s.barriers "b").result (s.history "b") := by
  have h : pair.run bothCall = some _ := rfl
  exact ⟨_, h, rfl, (replies_agree h "b").1 rfl⟩

-- An instance of a barrier only ends without an error if all of its tasks have reached it. Until then the
-- number of pending tasks is that of the tasks that it waits for.
theorem barriers_safe (ho : ∀ op ∈ ops, op.2.Proper c) (h : c.run ops = some s) (hid : id ≠ "") :
    History.Always (Passes id) (s.history id) ∧
    ((s.barriers id).passed = false → (s.barriers id).id = id →
      (s.barriers id).numPendingTasks = (s.barriers id).unreached ∧ 0 < (s.barriers id).unreached ∧
      (∃ tasks, Opened id (s.barriers id).counter tasks (s.history id) ∧ ∀ t, t ∈ tasks ↔ t ∈ (s.barriers id).participants) ∧
      ∀ t, (s.barriers id).atBarrier t → Reached id (s.barriers id).counter t (s.history id)) := by
  have hi := single_inv ho h hid
  exact ⟨hi.progress.always, fun hp hn =>
    ⟨hi.shape.pending hp, hi.waits hp hn, hi.progress.opened hp hn, hi.progress.reached hp⟩⟩

theorem proper_bothCall : ∀ op ∈ bothCall, op.2.Proper pair := by
  have hb : ¬IsReserved pair "b" := by
    unfold IsReserved
    decide
  simp only [bothCall, List.forall_mem_cons, Op.Proper, hb, not_false_eq_true, and_true]
  exact ⟨rfl, rfl, by simp⟩

theorem barriers_safe_pair : ∃ s, pair.run bothCall = some s ∧ History.Always (Passes "b") (s.history "b") := by
  have h : pair.run bothCall = some _ := rfl
  exact ⟨_, h, (barriers_safe proper_bothCall h (by decide)).1⟩

theorem handed_history (s : State) (id : String) :
    (handed (s.history id)).filterMap BarrierCallback.user? = s.answered (.barrier id) := by
  simp only [handed, State.history, State.answered, List.filterMap_filterMap, List.filterMap_filter, List.filterMap_map,
    Function.comp_def]
  refine List.filterMap_congr fun entry _ => ?_
  cases entry.event
  case handed id' callback => by_cases hi : id' = id <;> simp [Event.barrier?, Event.handed?, Kind.answered?, hi]
  all_goals simp [Event.barrier?, Event.handed?, Kind.answered?]

-- Every call of a barrier is answered once, or its callback waits at the barrier. None waits at a barrier
-- that has passed.
theorem barrierAsync_answers_once (ho : ∀ op ∈ ops, op.2.Proper c) (h : c.run ops = some s) (hid : id ≠ "") :
    (s.asked (.barrier id)).Perm
      ((replied (s.history id) ++ (s.barriers id).doneCallbacks.map (·.2)).filterMap BarrierCallback.user?) ∧
    (s.asked (.barrier id)).Nodup ∧ ((s.barriers id).passed → (s.barriers id).doneCallbacks = []) := by
  obtain ⟨hp, hn⟩ := asked_perm (.barrier id) h
  have hc := (single_inv ho h hid).conserved
  refine ⟨?perm, hn, fun hp => ?callbacks⟩
  case perm =>
    have hb : (handed (s.history id)).Perm (replied (s.history id) ++ (s.barriers id).doneCallbacks.map (·.2)) :=
      List.perm_iff_count.mpr fun callback => by simpa using hc.balance callback
    calc
      s.asked (.barrier id)
      _ |>.Perm (s.answered (.barrier id)) := by simpa [Front.waiting] using hp
      _ |>.Perm _                          := handed_history s id ▸ hb.filterMap _
  case callbacks => exact hc.nil_of_idle (.inl hp)

theorem barrierAsync_answers_once_pair : ∃ s, pair.run bothCall = some s ∧ s.asked (.barrier "b") = [1, 0] ∧
    (s.asked (.barrier "b")).Perm
      ((replied (s.history "b") ++ (s.barriers "b").doneCallbacks.map (·.2)).filterMap BarrierCallback.user?) := by
  have h : pair.run bothCall = some _ := rfl
  exact ⟨_, h, rfl, (barrierAsync_answers_once proper_bothCall h (by decide)).1⟩

end Barriers
end Coordination.CoordinationService
