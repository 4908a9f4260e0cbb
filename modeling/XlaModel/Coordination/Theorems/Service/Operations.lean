import XlaModel.Coordination.Theorems.Service.Outer

namespace Coordination.CoordinationService

variable {c : CoordinationService} {e : Env} {A : Allowed} {s s' : State} {x y : Point} {p : Phase}
  {id id' : String} {task t : TaskId} {counter : Int} {result status : Status} {callback : BarrierCallback}

theorem steps_of_inners (h : Inners c e x y) : Steps c A x y :=
  Relation.ReflTransGen.mono (fun _ _ => Step.inner) _ _ h

theorem steps_of_outer (h : Outer c e A x y) : Steps c A x y :=
  .single (.outer h)

theorem steps_of_passBarrier (h : c.passBarrier e id result s = some s') (ho : ¬result.ok) (hid : A.id id)
    (ha : ∀ id' ∈ p.added, id' = id) :
    Steps c A ⟨none, p, [], s⟩ ⟨none, { p with added := none }, [], s'⟩ := by
  have ⟨hc, hs⟩ := Inner.passBarrier_passes id result s s' h
  exact .head (.outer (.fail hid ha ho hc)) (steps_of_inners (hs _ []))

section Settled

-- A barrier that has passed and that no task is about to fail.
structure Settled (id : String) (counter : Int) (result : Status) (x : Point) : Prop where
  outcome : (x.state.barriers id).passed ∧ (x.state.barriers id).counter = counter ∧ (x.state.barriers id).result = result
  ongoing : ∀ t, id ∉ (x.state.cluster t).ongoingBarriers
  leaving : ∀ f ∈ x.leaving, id ∉ f.2

theorem Settled.marked {x : Option Ending} (hi : (s.barriers id).id = id)
    (hj : ∀ t, id ∈ (s.cluster t).ongoingBarriers → t ∈ (s.barriers id).participants) :
    Settled id (s.barriers id).counter result ⟨x, p, [], marked id result s⟩ where
  outcome   := by simp
  ongoing t := fun h => (mem_ongoing_marked h).2 (hj t (mem_ongoing_marked h).1) hi.symm
  leaving   := by simp

theorem BarrierState.Changes.outcome {b b' : BarrierState} {ongoing : TaskId → Prop}
    (h : BarrierState.Changes ongoing failing b b') (hn : ¬failing) :
    b'.passed = b.passed ∧ b'.counter = b.counter ∧ b'.result = b.result := by
  cases h
  case fail h _ => exact absurd h hn
  all_goals exact ⟨rfl, rfl, rfl⟩

theorem Inner.settled (h : Inner c e x y) (hs : Settled id counter result x) : Settled id counter result y := by
  refine ⟨?state, fun t hi => hs.ongoing t (h.ongoing hi), ?ongoing⟩
  case state =>
    obtain ⟨hp, hc, hr⟩ := (h.changes id).outcome fun ⟨f, hf, hi⟩ => hs.leaving f hf hi
    rw [hp, hc, hr]
    exact hs.outcome
  case ongoing =>
    have hl {taskState : TaskState} (hn : id ∉ taskState.ongoingBarriers) : id ∉ c.toLeave e taskState := by
      rw [toLeave]
      split_ifs
      · exact List.not_mem_nil
      · exact fun h => hn ((e.perm _).mem_iff.mp h)
    cases h
    case fail =>
      intro f hf
      cases List.mem_cons.mp hf
      case inl hf => exact hf ▸ List.not_mem_of_not_mem_cons (hs.leaving _ List.mem_cons_self)
      case inr hf => exact hs.leaving f (.tail _ hf)
    case resume => exact fun f hf => hs.leaving f (.tail _ hf)
    case error =>
      intro f hf
      cases List.mem_cons.mp hf
      case inl hf => exact hf ▸ hl (hs.ongoing _)
      case inr hf => exact hs.leaving f hf
    case disconnect =>
      intro f hf
      cases List.mem_cons.mp hf
      case inl hf => exact hf ▸ hl (hs.ongoing _)
      case inr hf => exact hs.leaving f hf
    all_goals exact hs.leaving

theorem Inners.settled (h : Inners c e x y) (hs : Settled id counter result x) : Settled id counter result y := by
  induction h
  case refl        => exact hs
  case tail h hi => exact h.settled hi

end Settled
section Start

theorem setBarrier_const {f : BarrierState → BarrierState} :
    s.setBarrier id f = s.setBarrier id fun _ => f (s.barriers id) := by
  simp [State.setBarrier]

theorem foldl_set_false {tasks known : List TaskId} (hk : known.Nodup) :
    ∃ known' : List TaskId, tasks.foldl (fun m task => MapVector.set m task false) (known.map (·, false)) = known'.map (·, false) ∧
      known'.Nodup ∧ ∀ t, t ∈ known' ↔ t ∈ known ++ tasks := by
  induction tasks generalizing known
  case nil => exact ⟨known, rfl, hk, by simp⟩
  case cons task tasks hi =>
    rw [List.foldl_cons]
    by_cases ht : task ∈ known
    case pos =>
      have hm : MapVector.set (known.map (·, false)) task false = known.map (·, false) := by
        rw [MapVector.set, if_pos (by simpa [MapVector.keys] using ht), List.map_map, List.map_inj_left]
        intro t _
        by_cases he : t = task <;> simp [he]
      obtain ⟨known', hf, hn, hm'⟩ := hi hk
      rw [hm]
      refine ⟨known', hf, hn, fun t => (hm' t).trans ?_⟩
      simp only [List.mem_append, List.mem_cons]
      constructor
      · exact fun h => h.imp_right .inr
      · rintro (h | rfl | h)
        · exact .inl h
        · exact .inl ht
        · exact .inr h
    case neg =>
      have hm : MapVector.set (known.map (·, false)) task false = (known ++ [task]).map (·, false) := by
        rw [MapVector.set, if_neg (by simpa [MapVector.keys] using ht), List.map_append, List.map_singleton]
      obtain ⟨known', hf, hn, hm'⟩ := hi (MapVector.nodup_concat hk ht)
      rw [hm]
      exact ⟨known', hf, hn, by simpa using hm'⟩

theorem initializeTasksAtBarrier_cases {participants : List TaskId}
    (h : c.initializeTasksAtBarrier e id participants s = some (s', status)) :
    ∃ tasks, NextTasks c (s.barriers id) tasks ∧
      ((s' = s.setBarrier id (fun b => { b with tasksAtBarrier := tasks.map (·, false) }) ∧ status.ok ∧
        (tasks = [] → c.numTasks = 0)) ∨
      (¬status.ok ∧ c.passBarrier e id status
        (s.setBarrier id fun b => { b with tasksAtBarrier := tasks.map (·, false) }) = some s')) := by
  rw [initializeTasksAtBarrier] at h
  split_ifs at h with h₁ h₂
  · obtain ⟨rfl, rfl⟩ := Prod.mk.inj (Option.some.inj h)
    refine ⟨(s.barriers id).participants, .inl rfl, .inl ⟨by simp [State.setBarrier], rfl, fun h => ?_⟩⟩
    exact absurd (List.map_eq_nil_iff.mp h) h₁
  · obtain ⟨rfl, rfl⟩ := Prod.mk.inj (Option.some.inj h)
    refine ⟨e.order c.tasks, .inr ⟨?_, ?_, fun t ht => ?_⟩, .inl ⟨rfl, rfl, fun h => ?_⟩⟩
    · simpa [BarrierState.participants, MapVector.keys] using h₁
    · exact (e.perm _).nodup_iff.mpr c.nodup_tasks
    · exact c.mem_tasks.mp ((e.perm _).mem_iff.mp ht)
    · have := (e.perm c.tasks).length_eq
      simpa [h] using this.symm
  · obtain ⟨tasks, ht, hn, hm⟩ := @foldl_set_false (participants.takeWhile c.contains) [] List.nodup_nil
    rw [List.map_nil] at ht
    rw [ht] at h
    rw [List.nil_append] at hm
    have hc : ∀ t ∈ tasks, c.contains t := fun t ht => List.mem_takeWhile_imp ((hm t).mp ht)
    have hp : (s.barriers id).participants = [] := by
      simpa [BarrierState.participants, MapVector.keys] using h₁
    refine ⟨tasks, .inr ⟨hp, hn, hc⟩, ?_⟩
    cases hf : participants.find? (!c.contains ·) <;> simp only [hf] at h
    case none =>
      obtain ⟨rfl, rfl⟩ := Prod.mk.inj (Option.some.inj h)
      refine .inl ⟨rfl, rfl, fun he => ?_⟩
      obtain ⟨t, participants, rfl⟩ := List.exists_cons_of_ne_nil h₂
      have hc : c.contains t := by simpa using List.find?_eq_none.mp hf t List.mem_cons_self
      exact absurd (he ▸ (hm t).mpr (by simp [hc])) List.not_mem_nil
    case some task =>
      obtain ⟨s₁, h₁, h⟩ := Option.bind_eq_some_iff.mp h
      obtain ⟨rfl, rfl⟩ := Prod.mk.inj (Option.some.inj h)
      exact .inr ⟨Bool.false_ne_true, h₁⟩

theorem findTaskInError_none {tasks : List TaskId} (h : c.findTaskInError s tasks = some none) :
    ∀ t ∈ tasks, (s.cluster t).state ≠ .error := by
  induction tasks
  case nil => simp
  case cons task tasks hi =>
    rw [findTaskInError] at h
    have ⟨taskState, ht, h⟩ := Option.bind_eq_some_iff.mp h
    obtain ⟨_, rfl⟩ := task?_eq_some.mp ht
    split_ifs at h with he
    · simp at h
    · intro t ht
      cases List.mem_cons.mp ht
      case inl ht => exact ht ▸ he
      case inr ht => exact hi h t ht

theorem joinBarriers_eq {tasks : List TaskId} (h : c.joinBarriers id tasks s = some s') :
    (∀ t ∈ tasks, c.contains t) ∧
    s' = { s with cluster := fun t => if t ∈ tasks then (s.cluster t).joinBarrier id else s.cluster t } :=
  foldlM_modifyTask (fun _ => joinBarrier_joinBarrier) h

-- What is known of a barrier when its initialization is done.
structure Started (id : String) (counter : Int) (status : Status) (s : State) : Prop where
  counter : (s.barriers id).counter = counter
  ok      : status.ok → (s.barriers id).passed = false
  failed  : ¬status.ok → (s.barriers id).passed ∧ (s.barriers id).result = status

theorem of_startFailed {b : BarrierState} (hj : Joined s) (hn : Next (s.barriers b.id) b.counter) (hid : A.id b.id)
    (hk : A.instances b.id b.counter) (ha : p.added = none)
    (ht : NextTasks c (s.barriers b.id) b.participants) (hd : b.doneCallbacks = []) (ho : ¬status.ok)
    (h : c.passBarrier e b.id status (s.setBarrier b.id fun _ => b) = some s') :
    Steps c A ⟨none, p, [], s⟩ ⟨none, p, [], s'⟩ ∧ Started b.id b.counter status s' := by
  have ⟨hc, hi⟩ := Inner.passBarrier_passes _ _ _ _ h
  simp only [State.barriers_setBarrier_self] at hc hi
  have hm : Settled b.id b.counter status ⟨some ⟨b.id, status, callbacksOf e b⟩, p, [],
      marked b.id status (s.setBarrier b.id fun _ => b)⟩ := by
    have hm : Settled b.id ((s.setBarrier b.id fun _ => b).barriers b.id).counter status
        ⟨some ⟨b.id, status, callbacksOf e b⟩, p, [], marked b.id status (s.setBarrier b.id fun _ => b)⟩ := by
      refine .marked (by simp) fun t hi => ?_
      rw [State.barriers_setBarrier_self]
      cases ht
      case inl ht => exact ht ▸ hj t _ hi
      case inr ht => exact absurd (hj t _ hi) (by simp [ht.1])
    rwa [State.barriers_setBarrier_self] at hm
  have hs := Inners.settled (hi p []) hm
  refine ⟨.head (.outer (.startFailed hid hk ha hn ht hc ho hd)) (steps_of_inners (hi p [])), hs.outcome.2.1, ?_, ?_⟩
  · exact fun h => absurd h ho
  · exact fun _ => ⟨hs.outcome.1, hs.outcome.2.2⟩

theorem of_openBarrier {timeout : Int} {b : BarrierState} {tasks : List TaskId}
    (h : c.openBarrier e b.id b.counter timeout (s.setBarrier b.id fun _ => b) = some (s', status)) (hj : Joined s)
    (hn : Next (s.barriers b.id) b.counter) (hid : A.id b.id) (hk : A.instances b.id b.counter) (ha : p.added = none)
    (ht : NextTasks c (s.barriers b.id) tasks) (hs : tasks = [] → c.numTasks = 0 ∧ A.stranger) (hp : b.passed = false) (hd : b.doneCallbacks = [])
    (hb : b.tasksAtBarrier = tasks.map (·, false)) :
    Steps c A ⟨none, p, [], s⟩ ⟨none, p, [], s'⟩ ∧ Started b.id b.counter status s' := by
  have hm : MapVector.keys b.tasksAtBarrier = tasks := participants_eq hb
  rw [openBarrier] at h
  obtain ⟨inError, h₁, h⟩ := Option.bind_eq_some_iff.mp h
  simp only [State.setBarrier_setBarrier, State.barriers_setBarrier_self, BarrierState.participants, hm] at h₁ h
  cases inError
  case some task =>
    obtain ⟨s₂, h₂, h⟩ := Option.bind_eq_some_iff.mp h
    obtain ⟨rfl, rfl⟩ := Prod.mk.inj (Option.some.inj h)
    refine of_startFailed (b := { b with numPendingTasks := b.tasksAtBarrier.length }) hj hn hid hk ha ?_ hd
      Bool.false_ne_true h₂
    exact (hm ▸ ht : c.NextTasks (s.barriers b.id) (MapVector.keys b.tasksAtBarrier))
  case none =>
    obtain ⟨s₂, h₂, h⟩ := Option.bind_eq_some_iff.mp h
    obtain ⟨rfl, rfl⟩ := Prod.mk.inj (Option.some.inj h)
    obtain ⟨hc, rfl⟩ := joinBarriers_eq h₂
    have hmem t : t ∈ e.order tasks ↔ t ∈ tasks := (e.perm _).mem_iff
    have he (hr : ¬c.recoverable) t (ht : t ∈ tasks) : (s.cluster t).state ≠ .error := by
      rw [failsInitially, if_neg hr] at h₁
      exact findTaskInError_none h₁ t ((hmem t).mpr ht)
    have ho := Outer.start (e := e) (A := A) (p := p) (b := { b with
      numPendingTasks := b.tasksAtBarrier.length, deadline := e.now + timeout }) hid hk ha hs hn ht
        (fun t ht => hc t ((hmem t).mpr ht)) he hp hd (by simp [hb]) hb
    refine ⟨?_, ?_⟩
    · convert steps_of_outer ho using 2
      simp only [opened, State.setBarrier, State.emit, hmem]
    · exact ⟨by simp, fun _ => by simpa using hp, fun h => absurd rfl h⟩

-- A barrier is initialized, or it is marked as passed right away.
theorem of_initializeBarrier {timeout : Int} {participants : List TaskId}
    (h : c.initializeBarrier e id counter timeout task participants s = some (s', status)) (hj : Joined s)
    (hn : Next (s.barriers id) counter) (hid : A.id id) (hk : A.instances id counter) (ha : p.added = none) (hs : c.numTasks = 0 → A.stranger) :
    Steps c A ⟨none, p, [], s⟩ ⟨none, p, [], s'⟩ ∧ Started id counter status s' := by
  rw [initializeBarrier] at h
  obtain ⟨⟨s₁, status₁⟩, h₁, h⟩ := Option.bind_eq_some_iff.mp h
  obtain ⟨tasks, ht, hi⟩ := initializeTasksAtBarrier_cases h₁
  replace h : (if ¬status₁.ok then some (s₁, status₁) else c.openBarrier e id counter timeout s₁) = some (s', status) := h
  simp only [State.setBarrier_setBarrier, State.barriers_setBarrier_self] at ht hi
  clear h₁
  rw [setBarrier_const] at hi
  generalize hb : ({
    id              := id
    counter         := counter
    deadline        := (s.barriers id).deadline
    numPendingTasks := (s.barriers id).numPendingTasks
    tasksAtBarrier  := tasks.map (·, false)
    initiatingTask  := task } : BarrierState) = b at hi
  have ⟨hbt, hp, hd⟩ : b.tasksAtBarrier = tasks.map (·, false) ∧ b.passed = false ∧ b.doneCallbacks = [] := by
    simp [← hb]
  obtain rfl : b.id = id := hb ▸ rfl
  obtain rfl : b.counter = counter := hb ▸ rfl
  clear hb
  obtain ⟨rfl, ho, he⟩ | ⟨ho, hi⟩ := hi
  · rw [if_neg (not_not.mpr ho)] at h
    exact of_openBarrier h hj hn hid hk ha ht (fun h => ⟨he h, hs (he h)⟩) hp hd hbt
  · rw [if_pos ho] at h
    obtain ⟨rfl, rfl⟩ := Prod.mk.inj (Option.some.inj h)
    exact of_startFailed hj hn hid hk ha (participants_eq hbt ▸ ht) hd ho hi

end Start

section Enter

variable {participants : List TaskId}

theorem of_addBarrierCallback (h : c.addBarrierCallback e id task callback s = some s')
    (hp : p.held = some (id, callback)) (ha : p.added = none) (hid : A.id id) :
    Steps c A ⟨none, p, [], s⟩ ⟨none, { p with held := none, added := some id }, [], s'⟩ ∧
    ∀ id', ∃ callbacks, s'.barriers id' = { s.barriers id' with doneCallbacks := callbacks } := by
  have hb {s : State} id' : ∃ callbacks, (s.setBarrier id (·.addCallback task callback)).barriers id' =
      { s.barriers id' with doneCallbacks := callbacks } := by
    rw [State.barriers_setBarrier]
    split_ifs
    · exact ⟨_, rfl⟩
    · exact ⟨_, rfl⟩
  rw [addBarrierCallback] at h
  cases hf : MapVector.find (s.barriers id).doneCallbacks task <;> simp only [hf] at h
  case none =>
    obtain rfl := Option.some.inj h
    exact ⟨steps_of_outer (e := e) (.add hid hp ha hf), hb⟩
  case some callback' =>
    obtain ⟨s₁, h₁, h⟩ := Option.bind_eq_some_iff.mp h
    obtain ⟨dones, hds, rfl⟩ := Inner.invoke_cancelled h₁ rfl
    rw [Inner.setBarrier_respondAll] at h
    obtain rfl := Option.some.inj h
    refine ⟨.head (.outer (e := e) (.supersede hid hp ha hf)) (.single (.inner (e := e) (.respond dones ?_))), hb⟩
    intro d hd
    rw [hds d hd]
    exact Inner.answerable_reply (s := s)

theorem taskArgsError_not_ok {b : BarrierState} (h : c.taskArgsError b task participants = some status) :
    ¬status.ok := by
  rw [taskArgsError] at h
  split_ifs at h
  all_goals exact Option.some.inj h ▸ Bool.false_ne_true

theorem of_validateTaskArgs {valid : Bool} (h : c.validateTaskArgs e id task participants s = some (s', valid))
    (hid : A.id id) (ha : p.added = some id) :
    (valid = true ∧ s' = s ∧ c.taskArgsError (s.barriers id) task participants = none) ∨
    (valid = false ∧ Steps c A ⟨none, p, [], s⟩ ⟨none, { p with added := none }, [], s'⟩) := by
  rw [validateTaskArgs] at h
  cases he : c.taskArgsError (s.barriers id) task participants <;> simp only [he] at h
  case none =>
    obtain ⟨rfl, rfl⟩ := Prod.mk.inj (Option.some.inj h)
    exact .inl ⟨rfl, rfl, rfl⟩
  case some error =>
    obtain ⟨s₁, h₁, h⟩ := Option.map_eq_some_iff.mp h
    obtain ⟨rfl, rfl⟩ := Prod.mk.inj h
    exact .inr ⟨rfl, steps_of_passBarrier h₁ (taskArgsError_not_ok he) hid (by simp [ha])⟩

theorem Inner.passed (h : Inner c e x y) (hp : (x.state.barriers id).passed) : (y.state.barriers id).passed := by
  have h := h.changes id
  generalize x.state.barriers id = b, y.state.barriers id = b' at hp h ⊢
  cases h
  case fail => rfl
  all_goals exact hp

theorem Inners.passed (h : Inners c e x y) (hp : (x.state.barriers id).passed) : (y.state.barriers id).passed := by
  induction h
  case refl      => exact hp
  case tail h hi => exact h.passed hi

theorem of_repeatBarrierResult (h : c.repeatBarrierResult e id task s = some s') (hp : p.held = none)
    (hid : A.id id) (had : p.added = some id) (hb : (s.barriers id).passed) :
    Steps c A ⟨none, p, [], s⟩ ⟨none, { p with added := none }, [], s'⟩ := by
  rw [repeatBarrierResult] at h
  obtain ⟨callback, hf, h⟩ := Option.bind_eq_some_iff.mp h
  refine .head (.outer (e := e) (.take hid hp had hb hf)) ?_
  have ha {cause : Cause} {counter : Int} {status : Status} {s₁ : State} (hc : cause ≠ .superseded) (hc' : cause ≠ .stale)
      (hd : cause = .notDisconnected ∨ ((s₁.barriers id).passed ∧ (s₁.barriers id).counter = counter ∧
        (s₁.barriers id).result = status)) (h : c.invoke e cause id counter status s₁ callback = some s') :
      Steps c A ⟨none, { p with held := some (id, callback), added := none }, [], s₁⟩
        ⟨none, { p with added := none }, [], s'⟩ := by
    have hs := Outer.answer (c := c) (e := e) (A := A) (p := { p with held := some (id, callback), added := none }) hid
      rfl hc hc' hd
    simp only [← hp] at hs
    exact .head (.outer hs) (steps_of_inners (Inner.of_invoke h))
  have hb : ((s.setBarrier id (·.eraseCallback task)).barriers id).passed := by
    rwa [State.barriers_setBarrier_self]
  dsimp only at h
  split_ifs at h with hi
  · obtain ⟨⟨s₁, status⟩, h₁, h⟩ := Option.bind_eq_some_iff.mp h
    have hd := Inner.of_disconnectTask (p := { p with held := some (id, callback), added := none }) (l := [])
      Inner.passBarrier_passes h₁
    refine (steps_of_inners hd).trans ?_
    have hb₁ : (s₁.barriers id).passed := Inners.passed hd hb
    replace h : (if ¬status.ok then c.invoke e .notDisconnected id (s₁.barriers id).counter status s₁ callback
      else c.invoke e .repeated id (s₁.barriers id).counter (s₁.barriers id).result s₁ callback) = some s' := h
    split_ifs at h
    · exact ha (by simp) (by simp) (.inr ⟨hb₁, rfl, rfl⟩) h
    · exact ha (by simp) (by simp) (.inl rfl) h
  · exact ha (by simp) (by simp) (.inr ⟨hb, rfl, rfl⟩) h

theorem of_reachBarrier (hid : A.id id) (ha : Accepts c A (s.barriers id) task) (had : p.added = some id)
    (h : c.reachBarrier e id task (accepted id task callback s) = some s') :
    Steps c A ⟨none, p, [], s⟩ ⟨none, { p with added := none }, [], s'⟩ := by
  rw [reachBarrier] at h
  dsimp only at h
  split_ifs at h with hm hz
  · exact Option.some.inj h ▸ steps_of_outer (e := e) (.accept hid ha had hm)
  · have ⟨hc, hi⟩ := Inner.passBarrier_passes _ _ _ _ h
    simp only [State.barriers_setBarrier_self] at hc hi hz
    have hz : (s.barriers id).numPendingTasks = 1 := by
      have : (s.barriers id).numPendingTasks - 1 = 0 := hz
      omega
    exact .head (.outer (e := e) (.complete hid ha had hm hz hc)) (steps_of_inners (hi _ []))
  · have hz : (s.barriers id).numPendingTasks ≠ 1 := by
      have : (s.barriers id).numPendingTasks - 1 ≠ 0 := by simpa [BarrierState.reach] using hz
      omega
    exact Option.some.inj h ▸ steps_of_outer (e := e) (.reach hid ha had hm hz)

-- A recoverable task that has likely just restarted calls a barrier that is only used once, but has
-- passed more than once.
structure Stuck (c : CoordinationService) (s : State) (id : String) (counter : Int) (task : TaskId)
    (participants : List TaskId) : Prop where
  recoverable : c.recoverable
  counter     : counter = 0
  once        : id = clusterRegisterBarrierId ∨ id = c.shutdownBarrierId
  passed      : (s.barriers id).passed
  again       : (s.barriers id).counter ≠ 0
  args        : c.taskArgsError (s.barriers id) task participants = none

theorem of_enterBarrier {started : Bool} (h : c.enterBarrier e id counter started task participants callback s = some s')
    (hp : p.held = some (id, callback)) (had : p.added = none) (hid : A.id id) (hst : started → (s.barriers id).passed = false ∧ (s.barriers id).counter = counter)
    (hs : ¬c.contains task → A.stranger)
    (ha : (s.barriers id).passed → (s.barriers id).counter ≠ counter → c.recoverable → counter = 0 →
      c.taskArgsError (s.barriers id) task participants = none → A.reachPassed) :
    Steps c A ⟨none, p, [], s⟩ ⟨none, { p with held := none, added := none }, [], s'⟩ := by
  rw [enterBarrier] at h
  obtain ⟨s₁, h₁, h⟩ := Option.bind_eq_some_iff.mp h
  obtain ⟨hs₁, hb⟩ := of_addBarrierCallback (A := A) h₁ hp had hid
  obtain ⟨callbacks, hb⟩ := hb id
  refine hs₁.trans ?_
  dsimp only at h
  by_cases hc : ¬started ∧ counter ≠ (s₁.barriers id).counter ∧ ¬(c.recoverable ∧ counter = 0)
  case pos =>
    rw [if_pos hc] at h
    exact steps_of_passBarrier h Bool.false_ne_true hid (by simp)
  case neg =>
    rw [if_neg hc] at h
    obtain ⟨⟨s₂, valid⟩, h₂, h⟩ := Option.bind_eq_some_iff.mp h
    obtain ⟨rfl, rfl, hv⟩ | ⟨rfl, hs₂⟩ := of_validateTaskArgs (p := { p with held := none, added := some id }) (A := A) h₂
      hid rfl
    · dsimp only at h
      rw [if_neg (not_not.mpr rfl)] at h
      split_ifs at h with hr
      · exact of_repeatBarrierResult h rfl hid rfl hr.1
      · rw [hb] at hr hc hv
        refine of_reachBarrier hid ⟨?_, fun hps => ?_, hs⟩ rfl h
        · rw [hb]
          rw [taskArgsError] at hv
          split_ifs at hv with _ hl _ hm
          · exact .inr (not_not.mp hl)
          · exact .inl hm
        · rw [hb] at hps
          have hn : counter ≠ (s.barriers id).counter := fun he => hr ⟨hps, he⟩
          have hns : ¬started := fun h => Bool.false_ne_true ((hst h).1.symm.trans hps)
          have ⟨hrec, h₀⟩ : c.recoverable ∧ counter = 0 := by_contra fun hn' => hc ⟨hns, hn, hn'⟩
          exact ha hps hn.symm hrec h₀ hv
    · exact Option.some.inj h ▸ hs₂

theorem calledInstance_next {counter' : Int} {b : BarrierState} (h : c.calledInstance id counter b = (counter', true)) :
    Next b counter' := by
  rw [calledInstance] at h
  split_ifs at h with hc
  · obtain ⟨rfl, _⟩ := Prod.mk.inj h
    exact .inr ⟨hc.1, rfl⟩
  · obtain ⟨rfl, hn⟩ := Prod.mk.inj h
    rw [decide_eq_true_eq] at hn
    exact hn

theorem calledInstance_once {counter' : Int} {b : BarrierState} (h : c.calledInstance id counter b = (counter', false)) :
    counter' = counter ∧ (b.passed → c.recoverable → counter = 0 → id = clusterRegisterBarrierId ∨ id = c.shutdownBarrierId) := by
  rw [calledInstance] at h
  split_ifs at h with hc
  · simp at h
  · refine ⟨(Prod.mk.inj h).1.symm, fun hp hr h₀ => ?_⟩
    by_contra hn
    rw [not_or] at hn
    exact hc ⟨hp, hr, h₀, hn⟩

theorem of_barrierAsyncLocked {timeout : Int}
    (h : c.barrierAsyncLocked e id counter timeout task participants callback s = some s') (hj : Joined s)
    (hid : A.id id) (hk : A.instances id (c.calledInstance id counter (s.barriers id)).1)
    (hs : ¬c.contains task → A.stranger) (ha : Stuck c s id counter task participants → A.reachPassed)
    (hp : p.calling ∧ p.held = none ∧ p.added = none) (ho : p.op = some op) (hc : Hands c s.time op id callback) :
    Steps c A ⟨none, p, [], s⟩ ⟨none, { p with calling := false }, [], s'⟩ := by
  have hpn : ({ p with calling := false, held := none, added := none } : Phase) = { p with calling := false } := by
    rw [← hp.2.1, ← hp.2.2]
  rw [barrierAsyncLocked] at h
  generalize hq : ({ p with calling := false, held := some (id, callback) } : Phase) = q
  have hqh : q.held = some (id, callback) := hq ▸ rfl
  have hqa : q.added = none := hq ▸ hp.2.2
  have hqn : ({ q with held := none, added := none } : Phase) = { p with calling := false } := by
    rw [← hpn, ← hq]
  have hh : Outer c e A ⟨none, p, [], s⟩ ⟨none, q, [], s.emit (.handed id callback)⟩ := hq ▸ .hand hid hp.1 hp.2.1 hp.2.2 ho hc
  refine .head (.outer hh) ?_
  have hs₀ : c.numTasks = 0 → A.stranger := fun h => hs (by simp [← mem_tasks, tasks, h])
  dsimp only at h
  cases hi : c.calledInstance id counter (s.barriers id)
  case mk counter' start =>
    simp only [State.emit_barriers, hi] at h hk
    cases start
    case true =>
      rw [if_pos rfl] at h
      obtain ⟨⟨s₁, status⟩, h₁, h⟩ := Option.bind_eq_some_iff.mp h
      obtain ⟨hs₁, hst⟩ := of_initializeBarrier (p := q) (A := A) h₁ hj (calledInstance_next hi) hid hk hqa hs₀
      refine hs₁.trans ?_
      dsimp only at h
      split_ifs at h with ho
      · have hf := hst.ok ho
        have he := of_enterBarrier (A := A) h hqh hqa hid (fun _ => ⟨hf, hst.counter⟩) hs fun hp =>
          absurd (hf.symm.trans hp) Bool.false_ne_true
        rwa [hqn] at he
      · have hf := hst.failed ho
        have hn₁ : Cause.notInitialized ≠ .superseded := by simp
        have hn₂ : Cause.notInitialized ≠ .stale := by simp
        have hr := Outer.answer (c := c) (e := e) (A := A) (s := s₁) hid hqh hn₁ hn₂ (.inr ⟨hf.1, hst.counter, hf.2⟩)
        have hqn' : ({ q with held := none } : Phase) = { p with calling := false } := by
          rw [← hqn, ← hqa]
        rw [hqn'] at hr
        exact .head (.outer hr) (steps_of_inners (Inner.of_invoke h))
    case false =>
      rw [if_neg Bool.false_ne_true] at h
      obtain ⟨rfl, ho⟩ := calledInstance_once hi
      have he := of_enterBarrier (A := A) h hqh hqa hid (fun h => absurd h Bool.false_ne_true) hs
        fun hp hn hr h₀ hv => ha ⟨hr, h₀, ho hp hr h₀, hp, h₀ ▸ hn, hv⟩
      rwa [hqn] at he

end Enter
end Coordination.CoordinationService
