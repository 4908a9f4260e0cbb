import XlaModel.Coordination.Theorems.Service.Watch

-- What the service promises to the clients that watch the tasks or that ask which tasks are alive.
namespace Coordination.CoordinationService

variable {c : CoordinationService} {f g : Front} {n : Nat} {event : Event}

section Alive

variable {events : List Event} {a : AlivenessState}

namespace Front

-- A request with the call that is being made, if that enters it.
def Joins (f : Front) (a : AlivenessState) : Prop :=
  a ∈ f.pending ∨ ∃ task tasks before b after, f.op = some (.getAliveTasks task tasks) ∧ task ∈ tasks ∧
    Request f.pending tasks.dedup before b after ∧ a = b.enter task f.time

-- No pending request is left whose connected tasks have all entered it.
def Blocked (c : CoordinationService) (f : Front) : Prop :=
  f.depth = 0 → ∀ a ∈ f.pending, ¬f.Satisfied c a.tasks a.inBarrier

-- The events with which a request is finished.
def Releases (c : CoordinationService) (f : Front) (events : List Event) : Prop :=
  ∃ a v, f.Joins a ∧ f.Satisfied c a.tasks a.inBarrier ∧ v.Perm (f.alive c a.tasks) ∧
    events = a.dones.map fun call => .alive f.history.length call .okStatus v (v.map fun t => (f.info t).incarnation)

section Request

variable {before after : List AlivenessState} {task : TaskId} {tasks tasks' inBarrier : List TaskId} {info : TaskInfo}

theorem pending_mem (h : f.pending = before ++ a :: after) : ∀ b ∈ before ++ after, b ∈ f.pending := by
  rw [h]
  exact fun b hb => ((List.sublist_cons_self ..).append_left _).subset hb

theorem request_mem (h : Request f.pending tasks before a after) : ∀ b ∈ before ++ after, b ∈ f.pending := by
  cases h
  case old _ h => exact pending_mem h
  case new     => simp

theorem request_perm (hn : ∀ a ∈ f.pending, a.tasks.Nodup) (h : Request f.pending tasks.dedup before a after) :
    a.tasks.Perm tasks.dedup := by
  cases h
  case old hs h =>
    have ha : a ∈ f.pending := h ▸ List.mem_append_right _ List.mem_cons_self
    exact (List.perm_ext_iff_of_nodup (hn a ha) (List.nodup_dedup _)).mpr
      ((taskSetEqual_iff (hn a ha) (List.nodup_dedup _)).mp hs)
  case new => rfl

theorem alive_perm (h : tasks.Perm tasks') : (f.alive c tasks).Perm (f.alive c tasks') :=
  h.filter _

theorem satisfied_perm (h : tasks.Perm tasks') : f.Satisfied c tasks inBarrier ↔ f.Satisfied c tasks' inBarrier := by
  simp only [Satisfied, (alive_perm h).mem_iff]

-- No task that is alive gets lost when a task connects.
theorem satisfied_of_set (hc : info.state = (f.info task).state ∨ info.state = .connected)
    (h : (f.set task info).Satisfied c tasks inBarrier) : f.Satisfied c tasks inBarrier := by
  intro t ht
  simp only [Front.alive, List.mem_filter, decide_eq_true_eq] at ht
  refine h t ?_
  simp only [Front.alive, List.mem_filter, decide_eq_true_eq]
  refine ⟨ht.1, ht.2.1, ?_⟩
  by_cases he : t = task
  case neg =>
    have hu : (f.set task info).info t = f.info t := Function.update_of_ne he ..
    rw [hu, ht.2.2]
  case pos =>
    subst he
    have hu : (f.set t info).info t = info := Function.update_self ..
    rw [hu]
    exact hc.elim (fun h => h.trans ht.2.2) fun h => h

end Request

-- What a step does to the clients that ask which tasks are alive.
structure AliveStep (c : CoordinationService) (f g : Front) (events : List Event) : Prop where
  pending : ∀ a ∈ g.pending, f.Joins a
  blocked : f.Blocked c → g.Blocked c
  events  : (∀ release n status v incarnations, .alive release n status v incarnations ∉ events) ∨
    (g.info = f.info ∧ Releases c f events) ∨
    ∃ task tasks, f.op = some (.getAliveTasks task tasks) ∧ task ∉ tasks ∧
      events = [.alive f.history.length f.time (notOneOfTheTasks task) [] []]

theorem AliveStep.same (hp : g.pending = f.pending) (hb : f.Blocked c → g.Blocked c)
    (he : ∀ release n status v incarnations, .alive release n status v incarnations ∉ events) : AliveStep c f g events where
  pending _ ha := .inl (hp ▸ ha)
  blocked      := hb
  events       := .inl he

theorem Step.aliveStep (h : Step c f g) (hn : ∀ a ∈ f.pending, a.tasks.Nodup) :
    ∃ events, Emits f g events ∧ AliveStep c f g events := by
  have hq {events : List Event} (h : ∀ event ∈ events, event.isQuiet) (release n : Nat) (status : Status) (v : List TaskId)
      (incarnations : List Nat) : .alive release n status v incarnations ∉ events :=
    fun hm => Bool.false_ne_true (h _ hm)
  have hs {events : List Event} (hp : g.pending = f.pending) (hd : g.depth = f.depth) (hi : g.info = f.info)
      (he : ∀ release n status v incarnations, .alive release n status v incarnations ∉ events) :
      AliveStep c f g events :=
    .same hp (by simp [Blocked, Satisfied, Front.alive, hp, hd, hi]) he
  cases h
  case call              => exact ⟨_, rfl, hs rfl rfl rfl (by simp)⟩
  case «return»          => exact ⟨_, emits_self, hs rfl rfl rfl (by simp)⟩
  case updating          => exact ⟨_, emits_self, hs rfl rfl rfl (by simp)⟩
  case update            => exact ⟨_, emits_updated emits_self, hs rfl rfl rfl (by simp)⟩
  case quiet he          => exact ⟨_, rfl, hs rfl rfl rfl (hq he)⟩
  case change he _ hc    =>
    exact ⟨_, rfl, .same rfl (fun hb hd a ha hs => hb hd a ha (satisfied_of_set hc hs)) (hq he)⟩
  case connect hc _      =>
    refine ⟨_, emits_updated rfl, .same rfl (fun hb hd a ha hs => hb hd a ha (satisfied_of_set (.inr hc) hs)) ?_⟩
    simp
  case leave             => exact ⟨[], rfl, .same rfl (fun _ hd => absurd hd (Nat.succ_ne_zero _)) (by simp)⟩
  case resume ha         => exact ⟨_, emits_updated emits_self, .same rfl (fun _ _ => ha) (by simp)⟩
  case finish a v before after ha ht hv =>
    have hm := pending_mem ha
    have ha : a ∈ f.pending := ha ▸ List.mem_append_right _ List.mem_cons_self
    exact ⟨_, rfl, fun b hb => .inl (hm b hb), fun hb hd b hj => hb hd b (hm b hj),
      .inr (.inl ⟨rfl, a, v, .inl ha, ht, hv, rfl⟩)⟩
  case alive task before a after tasks hm hc ho hr ht =>
    have hj : f.Joins (a.enter task f.time) := .inr ⟨task, tasks, before, a, after, ho, hm, hr, rfl⟩
    refine ⟨[], rfl, fun b hb => ?pending, fun hb hd b hb' => ?unique, .inl (by simp)⟩
    case pending =>
      obtain rfl | hb := List.mem_cons.mp (List.perm_middle.mem_iff.mp hb)
      · exact hj
      · exact .inl (request_mem hr b hb)
    case unique =>
      obtain rfl | hb' := List.mem_cons.mp (List.perm_middle.mem_iff.mp hb')
      · exact fun hs => ht ((satisfied_perm (request_perm hn hr)).mp hs)
      · exact hb hd b (request_mem hr b hb')
  case aliveNow task before a after v tasks hm hc ho hr ht hv =>
    have hp := request_perm hn hr
    have hj : f.Joins (a.enter task f.time) := .inr ⟨task, tasks, before, a, after, ho, hm, hr, rfl⟩
    exact ⟨_, rfl, fun b hb => .inl (request_mem hr b hb), fun hb hd b hb' => hb hd b (request_mem hr b hb'),
      .inr (.inl ⟨rfl, _, v, hj, (satisfied_perm hp).mpr ht, hv.trans (alive_perm hp).symm, rfl⟩)⟩
  case aliveError task tasks ht hc ho => exact ⟨_, rfl, fun a ha => .inl ha, fun h => h, .inr (.inr ⟨task, tasks, ho, ht, rfl⟩)⟩
  case watch             => exact ⟨[], rfl, hs rfl rfl rfl (by simp)⟩
  all_goals exact ⟨_, rfl, hs rfl rfl rfl (by simp)⟩

-- The calls that have entered a request are calls of its tasks for the same set of tasks.
structure Entered (f : Front) (a : AlivenessState) : Prop where
  nodup : a.tasks.Nodup
  tasks : ∀ t ∈ a.inBarrier, ∃ n ∈ a.dones, ∃ tasks, f.Logged (.called n (.getAliveTasks t tasks)) ∧ ∀ u, u ∈ tasks ↔ u ∈ a.tasks
  dones : ∀ n ∈ a.dones, ∃ t tasks, t ∈ tasks ∧ f.Logged (.called n (.getAliveTasks t tasks)) ∧ ∀ u, u ∈ tasks ↔ u ∈ a.tasks

theorem Entered.mono (h : Entered f a) (he : Emits f g events) : Entered g a := by
  have hl {event : Event} (h : f.Logged event) : g.Logged event := he.logged.mpr (.inr h)
  refine ⟨h.nodup, fun t ht => ?tasks, fun n hn => ?dones⟩
  case tasks =>
    obtain ⟨n, hn, tasks, hc, hm⟩ := h.tasks t ht
    exact ⟨n, hn, tasks, hl hc, hm⟩
  case dones =>
    obtain ⟨t, tasks, ht, hc, hm⟩ := h.dones n hn
    exact ⟨t, tasks, ht, hl hc, hm⟩

theorem Entered.enter {task : TaskId} {tasks : List TaskId} (h : Entered f a) (hp : a.tasks.Perm tasks.dedup) (ht : task ∈ tasks)
    (hc : f.Logged (.called n (.getAliveTasks task tasks))) : Entered f (a.enter task n) := by
  have hm (u : TaskId) : u ∈ tasks ↔ u ∈ a.tasks := by rw [hp.mem_iff, List.mem_dedup]
  refine ⟨h.nodup, fun t hi => ?tasks, fun n' hn => ?dones⟩
  case tasks =>
    obtain rfl | hi := List.mem_insert_iff.mp hi
    · exact ⟨n, List.mem_append_right _ (List.mem_singleton_self _), tasks, hc, hm⟩
    · obtain ⟨n, hn, h⟩ := h.tasks t hi
      exact ⟨n, List.mem_append_left _ hn, h⟩
  case dones =>
    obtain hn | hn := List.mem_append.mp hn
    · exact h.dones n' hn
    · exact ⟨task, tasks, ht, List.mem_singleton.mp hn ▸ hc, hm⟩

theorem Joins.entered (h : f.Joins a) (hc : f.Calls) (hf : ∀ a ∈ f.pending, Entered f a) : Entered f a := by
  obtain ha | ⟨task, tasks, before, b, after, ho, ht, hr, rfl⟩ := h
  case inl => exact hf a ha
  case inr =>
    have hb : Entered f b := by
      cases hr
      case old _ h => exact hf b (h ▸ List.mem_append_right _ List.mem_cons_self)
      case new     => exact ⟨List.nodup_dedup _, by simp, by simp⟩
    exact hb.enter (request_perm (fun a ha => (hf a ha).nodup) hr) ht (hc.op _ ho)

-- An answer that tells a client which tasks are alive. All of them have asked for the same tasks, and are
-- answered together with it.
inductive Answer (c : CoordinationService) (f : Front) (release n : Nat) :
    Status → List TaskId → List Nat → (TaskId → TaskInfo) → Prop
  | ok {task : TaskId} {tasks v : List TaskId} {info : TaskId → TaskInfo} :
    f.Logged (.called n (.getAliveTasks task tasks)) → task ∈ tasks → v.Nodup →
    (∀ t, t ∈ v ↔ t ∈ tasks ∧ c.contains t ∧ (info t).state = .connected) →
    (∀ t ∈ v, ∃ n' tasks', f.Logged (.called n' (.getAliveTasks t tasks')) ∧ (∀ u, u ∈ tasks' ↔ u ∈ tasks) ∧
      (.alive release n' .okStatus v (v.map fun t => (info t).incarnation), info) ∈ f.history) →
    Answer c f release n .okStatus v (v.map fun t => (info t).incarnation) info
  | error {task : TaskId} {tasks : List TaskId} {info : TaskId → TaskInfo} :
    f.Logged (.called n (.getAliveTasks task tasks)) → task ∉ tasks →
    Answer c f release n (notOneOfTheTasks task) [] [] info

theorem Answer.mono {release n : Nat} {status : Status} {v : List TaskId} {incarnations : List Nat} {info : TaskId → TaskInfo}
    (h : Answer c f release n status v incarnations info) (he : Emits f g events) :
    Answer c g release n status v incarnations info := by
  have hl {event : Event} (h : f.Logged event) : g.Logged event := he.logged.mpr (.inr h)
  cases h
  case ok hc ht hn hm hv =>
    refine .ok (hl hc) ht hn hm fun t ht => ?_
    obtain ⟨n', tasks', hc, hu, hh⟩ := hv t ht
    exact ⟨n', tasks', hl hc, hu, he.mem.mpr (.inr hh)⟩
  case error hc ht => exact .error (hl hc) ht

-- What is known of the clients that ask which tasks are alive. Those that are answered together get the
-- same answer.
structure Asked (c : CoordinationService) (f : Front) : Prop where
  entered : ∀ a ∈ f.pending, Entered f a
  blocked : Blocked c f
  answers : ∀ release n status v incarnations info, (.alive release n status v incarnations, info) ∈ f.history →
    release < f.history.length ∧ Answer c f release n status v incarnations info
  agree   : ∀ release n n' status status' v v' incarnations incarnations' info info',
    (.alive release n status v incarnations, info) ∈ f.history →
    (.alive release n' status' v' incarnations', info') ∈ f.history →
    status' = status ∧ v' = v ∧ incarnations' = incarnations ∧ info' = info

theorem Releases.answer {n : Nat} {v : List TaskId} (hj : f.Joins a) (hs : f.Satisfied c a.tasks a.inBarrier)
    (hv : v.Perm (f.alive c a.tasks)) (he : Emits f g (a.dones.map fun call =>
      .alive f.history.length call .okStatus v (v.map fun t => (f.info t).incarnation))) (hi : g.info = f.info)
    (hc : f.Calls) (hf : Asked c f) (hn : n ∈ a.dones) :
    Answer c g f.history.length n .okStatus v (v.map fun t => (f.info t).incarnation) g.info := by
  have ha := hj.entered hc hf.entered
  obtain ⟨t, tasks, ht, hl, hu⟩ := ha.dones n hn
  rw [hi]
  refine .ok (he.logged.mpr (.inr hl)) ht ?nodup ?tasks ?incarnations
  case nodup => exact hv.nodup_iff.mpr (ha.nodup.filter _)
  case tasks =>
    intro t
    rw [hv.mem_iff, Front.alive, List.mem_filter, decide_eq_true_eq, hu]
  case incarnations =>
    intro t ht
    obtain ⟨n', hn', tasks', hl', hu'⟩ := ha.tasks t (hs t (hv.mem_iff.mp ht))
    refine ⟨n', tasks', he.logged.mpr (.inr hl'), fun u => (hu' u).trans (hu u).symm, he.mem.mpr (.inl ⟨?_, hi.symm⟩)⟩
    exact List.mem_map.mpr ⟨n', hn', rfl⟩

-- The answers of a step belong to a release of their own, and are equal.
theorem AliveStep.answers (h : AliveStep c f g events) (he : Emits f g events) (hc : f.Calls) (hf : Asked c f) :
    ∃ status v incarnations, ∀ release n status' v' incarnations',
      .alive release n status' v' incarnations' ∈ events → release = f.history.length ∧ status' = status ∧ v' = v ∧
        incarnations' = incarnations ∧ Answer c g release n status' v' incarnations' g.info := by
  obtain hn | ⟨hi, a, v, hj, hs, hv, rfl⟩ | ⟨task, tasks, ho, ht, rfl⟩ := h.events
  case inl => exact ⟨.okStatus, [], [], fun _ _ _ _ _ hm => absurd hm (hn _ _ _ _ _)⟩
  case inr.inl =>
    refine ⟨.okStatus, v, v.map fun t => (f.info t).incarnation, fun release n status' v' incarnations' hm => ?_⟩
    obtain ⟨n, hn, hm⟩ := List.mem_map.mp hm
    cases hm
    exact ⟨rfl, rfl, rfl, rfl, Releases.answer hj hs hv he hi hc hf hn⟩
  case inr.inr =>
    refine ⟨notOneOfTheTasks task, [], [], fun release n status' v' incarnations' hm => ?_⟩
    cases List.mem_singleton.mp hm
    exact ⟨rfl, rfl, rfl, rfl, .error (he.logged.mpr (.inr (hc.op _ ho))) ht⟩

theorem AliveStep.asked (h : AliveStep c f g events) (he : Emits f g events) (hc : f.Calls) (hf : Asked c f) : Asked c g := by
  obtain ⟨status₀, v₀, incarnations₀, ha⟩ := h.answers he hc hf
  refine ⟨fun b hb => ?pending, h.blocked hf.blocked, ?released, ?together⟩
  case pending => exact ((h.pending b hb).entered hc hf.entered).mono he
  case released =>
    intro release n status v incarnations info hm
    obtain ⟨hm, hi⟩ | hm := he.mem.mp hm
    case inl =>
      obtain ⟨rfl, _, _, _, hr⟩ := ha _ _ _ _ _ hm
      have hl : 0 < events.length := List.length_pos_of_mem hm
      refine ⟨?_, (show info = g.info from hi) ▸ hr⟩
      rw [show g.history = _ from he]
      simpa using hl
    case inr =>
      obtain ⟨hl, hr⟩ := hf.answers _ _ _ _ _ _ hm
      refine ⟨hl.trans_le ?_, hr.mono he⟩
      rw [show g.history = _ from he]
      simp
  case together =>
    intro release n n' status status' v v' incarnations incarnations' info info' hm hm'
    obtain ⟨hm, hi⟩ | hm := he.mem.mp hm <;> obtain ⟨hm', hi'⟩ | hm' := he.mem.mp hm'
    case inl.inl =>
      obtain ⟨_, rfl, rfl, rfl, _⟩    := ha _ _ _ _ _ hm
      obtain ⟨_, rfl, rfl, rfl, _⟩ := ha _ _ _ _ _ hm'
      exact ⟨rfl, rfl, rfl, hi'.trans hi.symm⟩
    case inl.inr => exact absurd (hf.answers _ _ _ _ _ _ hm').1 (by simp [(ha _ _ _ _ _ hm).1])
    case inr.inl => exact absurd (hf.answers _ _ _ _ _ _ hm).1 (by simp [(ha _ _ _ _ _ hm').1])
    case inr.inr => exact hf.agree _ _ _ _ _ _ _ _ _ _ _ hm hm'

end Front
end Alive

section Steps

variable {s s₁ s₂ : State} {ops : List (Env × Op)}

-- What is known of the clients in every step of a run.
structure Front.Inv (c : CoordinationService) (f : Front) : Prop where
  calls   : f.Calls
  watched : f.Watched c
  asked   : f.Asked c

theorem Front.Step.inv (h : Step c f g) (hf : Inv c f) : Inv c g := by
  obtain ⟨_, he, hw⟩  := h.watchStep
  obtain ⟨_, he', ha⟩ := h.aliveStep fun a ha => (hf.asked.entered a ha).nodup
  exact ⟨h.calls hf.calls, hw.watched he hf.calls hf.watched, ha.asked he' hf.calls hf.asked⟩

theorem Front.inv_initial : Inv c (Point.front ⟨none, {}, [], {}⟩) where
  calls   := calls_initial
  watched := ⟨by simp, by simp⟩
  asked   := ⟨by simp, by simp [Blocked], by simp, by simp⟩

theorem front_inv (h : c.run ops = some s) : Front.Inv c (Point.front ⟨none, {}, [], s⟩) :=
  Steps.invariant (fun _ _ h => h.inv) (of_run h) Front.inv_initial

theorem Front.Fresh.settled {version : Int} {info : TaskId → TaskInfo} (h : Fresh version info (Point.front ⟨none, {}, [], s⟩)) :
    version ≤ s.version ∧ (s.version = version → infoOf s.cluster = info) :=
  ⟨h.1, fun hv => (h.2 hv).resolve_left (by simp [Unsettled])⟩

theorem run_append {ops₁ ops₂ : List (Env × Op)} (h₁ : c.run ops₁ = some s₁) (h : ops₂.foldlM c.step s₁ = some s) :
    c.run (ops₁ ++ ops₂) = some s := by
  rw [run, List.foldlM_append]
  exact Option.bind_eq_some_iff.mpr ⟨s₁, h₁, h⟩

-- The tasks as the clients see them only change together with the version. A call waits while the version
-- is the one that it has been called with, and is answered once, with a later version and with the tasks at
-- that version.
theorem watchTasks_misses_no_update {ops₁ ops₂ : List (Env × Op)} (h₁ : c.run ops₁ = some s₁)
    (h : ops₂.foldlM c.step s₁ = some s) :
    s₁.version ≤ s.version ∧ (s.version = s₁.version → infoOf s.cluster = infoOf s₁.cluster) ∧
    (∀ n ∈ s.watchCallbacks, ∃ v, Called s n (.watchTasks v) ∧ v.getD (-1) = s.version) ∧
    (∀ entry ∈ s.log, ∀ n infos version, entry.event = .watch n infos version →
      (∃ v, Called s n (.watchTasks v) ∧ v.getD (-1) < version) ∧ infos.Perm (c.tasks.map (infoOf entry.cluster)) ∧
      version ≤ s.version ∧ (s.version = version → infoOf s.cluster = infoOf entry.cluster)) ∧
    (s.asked .watch).Perm (s.answered .watch ++ s.watchCallbacks) ∧ (s.asked .watch).Nodup := by
  have hi := front_inv (run_append h₁ h)
  have hf := Steps.invariant (P := Front.Fresh s₁.version (infoOf s₁.cluster))
    (fun _ _ h => h.fresh) (of_steps ((of_run h₁).joined joined_initial) h) ⟨le_rfl, fun _ => .inr rfl⟩
  refine ⟨hf.settled.1, hf.settled.2, ?watching, ?delivered, asked_perm .watch (run_append h₁ h)⟩
  case watching =>
    intro n hn
    obtain ⟨v, hm, hv⟩ := hi.watched.waiting n hn
    exact ⟨v, logged_iff.mp hm, hv⟩
  case delivered =>
    intro entry hm n infos version he
    have hm : (.watch n infos version, infoOf entry.cluster) ∈ (Point.front ⟨none, {}, [], s⟩).history :=
      List.mem_map.mpr ⟨entry, hm, by rw [Entry.front, he]⟩
    obtain ⟨⟨v, hl, hv⟩, hp, hf⟩ := hi.watched.reports n infos version _ hm
    exact ⟨⟨v, logged_iff.mp hl, hv⟩, hp, hf.settled⟩

theorem watchTasks_misses_no_update_pair : ∃ s₁ s, pair.run [(.fixed, .registerTask 0 5)] = some s₁ ∧
    [(Env.fixed, Op.watchTasks (some 2)), (.fixed, .registerTask 1 6)].foldlM pair.step s₁ = some s ∧
    s.answered .watch = [1] ∧ s₁.version ≤ s.version ∧ (s.asked .watch).Nodup := by
  have h₁ : pair.run [(.fixed, .registerTask 0 5)] = some _ := rfl
  refine ⟨_, _, h₁, rfl, rfl, ?_⟩
  have h := watchTasks_misses_no_update h₁ (show List.foldlM pair.step _ [(.fixed, .watchTasks (some 2)),
    (.fixed, .registerTask 1 6)] = some _ from rfl)
  exact ⟨h.1, h.2.2.2.2.2⟩

-- A call that waits for the alive tasks waits for one that is connected. All calls that are answered
-- together get the same answer: the connected ones of the tasks that they have asked for, all of which are
-- answered with them.
theorem getAliveTasks_agrees (h : c.run ops = some s) :
    (∀ a ∈ s.alivenessStates, ∃ t ∈ a.tasks, c.contains t ∧ (s.cluster t).state = .connected ∧ t ∉ a.inBarrier) ∧
    (∀ release n status v incarnations, ∀ entry ∈ s.log, entry.event = .alive release n status v incarnations →
      ∃ task tasks, Called s n (.getAliveTasks task tasks) ∧
        if task ∈ tasks then
          status = .okStatus ∧ v.Nodup ∧
          (∀ t, t ∈ v ↔ t ∈ tasks ∧ c.contains t ∧ (entry.cluster t).state = .connected) ∧
          incarnations = v.map (fun t => (entry.cluster t).incarnation) ∧
          ∀ t ∈ v, ∃ n' tasks', Called s n' (.getAliveTasks t tasks') ∧ (∀ u, u ∈ tasks' ↔ u ∈ tasks) ∧
            Logged s (.alive release n' .okStatus v incarnations)
        else
          status = notOneOfTheTasks task ∧ v = [] ∧ incarnations = []) ∧
    (∀ release n n' status status' v v' incarnations incarnations',
      Logged s (.alive release n status v incarnations) → Logged s (.alive release n' status' v' incarnations') →
      status' = status ∧ v' = v ∧ incarnations' = incarnations) ∧
    (s.asked .alive).Perm (s.answered .alive ++ s.alivenessStates.flatMap (·.dones)) ∧ (s.asked .alive).Nodup := by
  have hi := (front_inv h).asked
  have hm {entry : Entry} (he : entry ∈ s.log) : entry.front ∈ (Point.front ⟨none, {}, [], s⟩).history :=
    List.mem_map_of_mem he
  refine ⟨?pending, ?released, ?together, asked_perm .alive h⟩
  case pending =>
    intro a ha
    have hs := hi.blocked rfl a ha
    rw [satisfied_iff, isSatisfied_iff] at hs
    push Not at hs
    exact hs
  case released =>
    rintro release n status v incarnations ⟨event, cluster⟩ he rfl
    have hr : Front.Answer c _ release n status v incarnations (infoOf cluster) := (hi.answers _ _ _ _ _ _ (hm he)).2
    generalize hg : infoOf cluster = info at hr
    cases hr <;> subst hg
    case ok task tasks hc ht hn hv ha =>
      refine ⟨task, tasks, logged_iff.mp hc, ?_⟩
      rw [if_pos ht]
      refine ⟨rfl, hn, hv, rfl, fun t ht => ?_⟩
      obtain ⟨n', tasks', hc, hu, hl⟩ := ha t ht
      exact ⟨n', tasks', logged_iff.mp hc, hu, logged_iff.mp ⟨_, hl, rfl⟩⟩
    case error task tasks hc ht =>
      refine ⟨task, tasks, logged_iff.mp hc, ?_⟩
      rw [if_neg ht]
      exact ⟨rfl, rfl, rfl⟩
  case together =>
    rintro release n n' status status' v v' incarnations incarnations' ⟨⟨event, cluster⟩, hl, rfl⟩ ⟨⟨event', cluster'⟩, hl', rfl⟩
    obtain ⟨hs, hv, hi, _⟩ := hi.agree _ _ _ _ _ _ _ _ _ _ _ (hm hl) (hm hl')
    exact ⟨hs, hv, hi⟩

theorem getAliveTasks_agrees_pair : ∃ s, pair.run [(.fixed, .registerTask 0 5), (.fixed, .registerTask 1 6),
      (.fixed, .getAliveTasks 0 [0, 1]), (.fixed, .getAliveTasks 1 [1, 0])] = some s ∧
    s.answered .alive = [3, 2] ∧ (s.asked .alive).Perm (s.answered .alive ++ s.alivenessStates.flatMap (·.dones)) := by
  have h : pair.run [(.fixed, .registerTask 0 5), (.fixed, .registerTask 1 6), (.fixed, .getAliveTasks 0 [0, 1]),
    (.fixed, .getAliveTasks 1 [1, 0])] = some _ := rfl
  exact ⟨_, h, rfl, (getAliveTasks_agrees h).2.2.2.1⟩

end Steps
end Coordination.CoordinationService
