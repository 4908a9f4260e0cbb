import XlaModel.Runtime.ThunkExecutor.Theorems.Views

namespace Runtime.ThunkExecutor

open ExecutionGraph

variable {ε : Type} {g : ExecutionGraph} {params : ExecuteParams} {s s' : State ε} {a : Action ε}

-- The results of the thunks, as far as they are recorded in the history.
structure StatusInv (s : State ε) : Prop where
  abort       : s.shared.abort → ∃ error, s.shared.abortStatus = some error
  abortStatus : ∀ error, s.shared.abortStatus = some error → ∃ i, .complete i (some error) ∈ s.history
  finished    : ∀ i status w, s.shared.thunk i = .finished status w →
    (∃ u, .start i u ∈ s.history) ∧ .complete i status ∈ s.history
  completed   : ∀ i status, .complete i status ∈ s.history → ∃ w, s.shared.thunk i = .finished status w
  running     : ∀ i w, s.shared.thunk i = .running w → .start i w ∈ s.history
  started     : ∀ i w, .start i w ∈ s.history → s.shared.thunk i ≠ .idle ∧ s.shared.thunk i ≠ .skipped
  resolved    : s.shared.executeEvent = none → ∀ status v, .resolve status v ∉ s.history
  event       : ∀ status, s.shared.executeEvent = some status → ∃ v, .resolve status v ∈ s.history

namespace ExecuteState

variable {s : ExecuteState ε}

theorem abort_apply_eq (h : ∀ error, a ≠ .abort error) :
    (s.apply a).abort = s.abort ∧ (s.apply a).abortStatus = s.abortStatus := by
  cases a
  case abort error => exact absurd rfl (h error)
  case complete =>
    rw [apply, completeThunk]
    split <;> exact ⟨rfl, rfl⟩
  all_goals exact ⟨rfl, rfl⟩

theorem executeEvent_apply_eq (h : ∀ status v, a ≠ .resolve status v) : (s.apply a).executeEvent = s.executeEvent := by
  cases a
  case resolve status v => exact absurd rfl (h status v)
  case complete =>
    rw [apply, completeThunk]
    split <;> rfl
  all_goals rfl

theorem started_apply {i : Nat} (h : s.thunk i ≠ .idle ∧ s.thunk i ≠ .skipped) (hk : ∀ v, a ≠ .skip i v) :
    (s.apply a).thunk i ≠ .idle ∧ (s.apply a).thunk i ≠ .skipped := by
  by_cases hs : ∃ v, a = .start i v
  case pos =>
    obtain ⟨v, rfl⟩ := hs
    simp [apply, setThunk]
  case neg =>
    by_cases hc : ∃ status, a = .complete i status
    case pos =>
      obtain ⟨status, rfl⟩ := hc
      rw [apply, completeThunk]
      split
      case h_1 => simp [setThunk]
      case h_2 => exact h
    case neg => rwa [thunk_apply (fun v hv => hs ⟨v, hv⟩) hk fun status hv => hc ⟨status, hv⟩]

theorem thunk_start {i : Nat} {v : View} : (s.apply (.start i v)).thunk i = .running v :=
  Function.update_self _ _ _

theorem thunk_complete {i : Nat} {status : Option ε} {v : View} (h : s.thunk i = .running v) :
    (s.apply (.complete i status)).thunk i = .finished status (v ∪ {.completed i}) := by
  rw [apply, completeThunk, h]
  exact Function.update_self _ _ _

end ExecuteState

namespace StatusInv

theorem init {type : ReadyQueueType} : StatusInv (State.init ε g type) := by
  constructor <;> simp [State.init, ExecuteState.create]

theorem error_of_abort {error : ε} (i : ViewInv g s) (h : Step g params s (.abort error) s') :
    ∃ j w, s.shared.thunk j = .finished (some error) w := by
  cases h
  case task sh t ts rest history h =>
    have hk := (i.task t (Multiset.mem_cons_self _ _)).2
    cases h
    case fail j all d q v =>
      obtain ⟨-, ⟨-, w, hw⟩ | ⟨hn, -⟩⟩ := hk
      case inl => exact ⟨j, w, hw⟩
      case inr => cases hn

theorem step {w : g.WellFormed} (c : CountdownInv w s) (v : ViewInv g s) (i : StatusInv s) (h : Step g params s a s') :
    StatusInv s' := by
  have e := h.extend c
  have hs := h.shared_eq
  have hh := h.history_eq
  constructor
  case abort =>
    intro ha
    rw [hs] at ha ⊢
    by_cases he : ∃ error, a = .abort error
    case pos =>
      obtain ⟨error, rfl⟩ := he
      cases hb : s.shared.abortStatus <;> simp [ExecuteState.apply, hb]
    case neg =>
      have hn := ExecuteState.abort_apply_eq (s := s.shared) fun error h => he ⟨error, h⟩
      rw [hn.2]
      exact i.abort (hn.1 ▸ ha)
  case abortStatus =>
    intro error ha
    rw [hs] at ha
    have hold (hb : s.shared.abortStatus = some error) : ∃ j, .complete j (some error) ∈ s'.history :=
      (i.abortStatus error hb).imp fun j hj => e.history _ hj
    by_cases he : ∃ error, a = .abort error
    case pos =>
      obtain ⟨error', rfl⟩ := he
      cases hb : s.shared.abortStatus
      case some => exact hold (by simpa [ExecuteState.apply, hb] using ha)
      case none =>
        obtain rfl : error' = error := by simpa [ExecuteState.apply, hb] using ha
        obtain ⟨j, u, hj⟩ := error_of_abort v h
        exact ⟨j, e.history _ (i.finished j _ u hj).2⟩
    case neg => exact hold <| (ExecuteState.abort_apply_eq fun error h => he ⟨error, h⟩).2.symm.trans ha
  case finished =>
    intro j status u hj
    obtain hj | ⟨x, rfl, hx, -⟩ := ExecuteState.finished_apply <| hs ▸ hj
    case inl =>
      obtain ⟨⟨x, hx⟩, hc⟩ := i.finished j status u hj
      exact ⟨⟨x, e.history _ hx⟩, e.history _ hc⟩
    case inr => exact ⟨⟨x, e.history _ (i.running j x hx)⟩, hh ▸ .head _⟩
  case completed =>
    intro j status hj
    rw [hh] at hj
    cases hj
    case head =>
      obtain ⟨u, hu⟩ := h.running_of_complete
      exact ⟨_, hs ▸ ExecuteState.thunk_complete hu⟩
    case tail hj =>
      obtain ⟨u, hu⟩ := i.completed j status hj
      exact ⟨u, e.finished _ _ _ hu⟩
  case running =>
    intro j u hj
    obtain rfl | hj := ExecuteState.running_apply <| hs ▸ hj
    case inl => exact hh ▸ .head _
    case inr => exact e.history _ (i.running j u hj)
  case started =>
    intro j u hj
    rw [hh] at hj
    cases hj
    case head => simp [hs, ExecuteState.apply, ExecuteState.setThunk]
    case tail hj =>
      have hj := i.started j u hj
      rw [hs]
      refine ExecuteState.started_apply hj ?_
      rintro x rfl
      exact hj.1 (h.idle_of_visit c rfl).2
  case resolved =>
    intro hn status u hj
    rw [hh] at hj
    cases hj
    case head => simp [hs, ExecuteState.apply] at hn
    case tail hj =>
      by_cases hr : ∃ status u, a = .resolve status u
      case pos =>
        obtain ⟨_, _, rfl⟩ := hr
        simp [hs, ExecuteState.apply] at hn
      case neg =>
        rw [hs, ExecuteState.executeEvent_apply_eq fun status u h => hr ⟨status, u, h⟩] at hn
        exact i.resolved hn status u hj
  case event =>
    intro status hn
    rw [hs] at hn
    by_cases hr : ∃ status u, a = .resolve status u
    case pos =>
      obtain ⟨status', u, rfl⟩ := hr
      obtain rfl : status' = status := by simpa [ExecuteState.apply] using hn
      exact ⟨u, hh ▸ .head _⟩
    case neg =>
      rw [ExecuteState.executeEvent_apply_eq fun status u h => hr ⟨status, u, h⟩] at hn
      exact (i.event status hn).imp fun u hu => e.history _ hu

end StatusInv

-- How an action depends on the actions before it. A thunk is executed at most once, after the thunks at the sources of its
-- edges. The event is resolved once, when all thunks that have been executed are completed. It gets an error if and only
-- if a thunk has failed, and otherwise all thunks have been executed.
def Follows (g : ExecutionGraph) : Action ε → List (Action ε) → Prop
  | .start j v,        h => (∀ u, .start j u ∉ h) ∧ (∀ status u, .resolve status u ∉ h) ∧ ∀ k i, g.Edge k i j →
    (∃ u ⊆ v, .start i u ∈ h) ∧ (k = .execution → .complete i none ∈ h ∧ .completed i ∈ v)
  | .complete i _,     h => (∃ u, .start i u ∈ h) ∧ ∀ status, .complete i status ∉ h
  | .resolve status v, h => (∀ status u, .resolve status u ∉ h) ∧
    (∀ i u, .start i u ∈ h → (∃ status, .complete i status ∈ h) ∧ .completed i ∈ v) ∧
    (∀ error, status = some error → ∃ i, .complete i (some error) ∈ h) ∧
    (∀ i error, .complete i (some error) ∈ h → status ≠ none) ∧
    (status = none → ∀ i < g.nodesDefs.length, .complete i none ∈ h)
  | _,                 _ => True

theorem TaskStep.resolve_cases {sh : ExecuteState ε} {t : Task ε} {ts : Multiset (Task ε)} {status : Option ε} {v : View}
    (h : TaskStep g params sh t (.resolve status v) ts) : t.stage = .complete ∧ v = t.view ∧
      ((sh.abort ∧ status = sh.abortStatus) ∨ (status = none ∧ .aborted ∉ v)) := by
  cases h
  case resolveError h => exact ⟨rfl, rfl, .inl ⟨h, rfl⟩⟩
  case resolve h      => exact ⟨rfl, rfl, .inr ⟨rfl, h⟩⟩

section Follows

variable {w : g.WellFormed} {v : View} {j : Nat} {status : Option ε} (i : Inv w s) (st : StatusInv s)
include i st

-- The thunk of a node that is ready has not been executed, and the event has not been resolved.
theorem not_started (hj : s.shared.thunk j = .idle) (hn : j < g.nodesDefs.length) :
    (∀ u, .start j u ∉ s.history) ∧ ∀ status u, .resolve status u ∉ s.history := by
  refine ⟨fun u hu => (st.started j u hu).1 hj, st.resolved ?_⟩
  have hv : j ∉ (s.countdown g).visited := by
    simp [State.countdown, ExecuteState.visited, hj, ThunkState.isIdle]
  have hp := i.countdown.countdown.pending_pos (Finset.mem_range.mpr hn) hv
  have hf := i.countdown.countdown.finished
  rw [if_neg hp.ne'] at hf
  cases he : s.shared.executeEvent
  case none => rfl
  case some => simp [State.countdown, he] at hf

omit i in
-- A thread that does not know about an abort knows that the sources of edges have been executed.
theorem knows_of_edge (hc : v.Consistent s) (hk : v.Knows s k j) (ha : .aborted ∉ v) :
    (∃ u ⊆ v, .start j u ∈ s.history) ∧ (k = .execution → .complete j none ∈ s.history ∧ .completed j ∈ v) := by
  constructor
  case left =>
    obtain ⟨u, hu, h | h⟩ := hc.visited j hk.visited
    case inl => exact ⟨u, hu, h⟩
    case inr => exact absurd (hu h.2) ha
  case right =>
    intro he
    obtain ⟨hc, u, hu⟩ | ⟨h, -⟩ := (hk.done he).status
    case inl => exact ⟨(st.finished j none u hu).2, hc⟩
    case inr => exact absurd h ha

theorem follows_start (h : Step g params s (.start j v) s') : Follows g (.start j v) s.history := by
  obtain ⟨hn, hidle⟩ := h.idle_of_visit i.countdown rfl
  obtain ⟨hs, hr⟩ := not_started i st hidle hn
  refine ⟨hs, hr, fun k m he => ?_⟩
  have hready : j ∈ (s.countdown g).ready := by
    have := h.ready
    simp only [TaskStep.visitedBy, TaskStep.readyOf, zero_add] at this
    exact this ▸ Multiset.mem_add.mpr (.inl (Multiset.mem_singleton_self j))
  obtain ⟨-, -, hz⟩ := i.countdown.countdown.of_mem_ready hready
  have hm := Finset.mem_range.mpr (w.lt_length_of_edge he)
  obtain ⟨hv, hd⟩ := i.countdown.countdown.processed hz hm (mem_successors.mpr ⟨k, he⟩)
  have hk := (i.view.edge k m j he hv).resolve_left hd
  cases h
  case task sh t ts rest history h =>
    obtain ⟨hc, ht⟩ := i.view.task t (Multiset.mem_cons_self _ _)
    cases h
    case run q v ha hm =>
      obtain ⟨⟨u, hu, hs⟩, he⟩ := knows_of_edge st hc (hk.mono ht) ha
      exact ⟨⟨u, hu.trans Set.subset_union_left, hs⟩, fun hk => (he hk).imp_right .inl⟩

omit i in
theorem follows_complete (h : Step g params s (.complete j status) s') : Follows g (.complete j status) s.history := by
  obtain ⟨u, hu⟩ := h.running_of_complete
  refine ⟨⟨u, st.running j u hu⟩, fun status hs => ?_⟩
  obtain ⟨x, hx⟩ := st.completed j status hs
  cases hx.symm.trans hu

theorem follows_resolve (h : Step g params s (.resolve status v) s') : Follows g (.resolve status v) s.history := by
  cases h
  case task sh t ts rest history h =>
    have ht : t ∈ t ::ₘ rest := Multiset.mem_cons_self _ _
    obtain ⟨hstage, hv, hstatus⟩ := h.resolve_cases
    obtain ⟨hc, hk⟩ := i.view.task t ht
    have hz := i.countdown.pending_eq_zero ht hstage
    have hdone : ∀ m < g.nodesDefs.length, v.Done _ m := fun m hm =>
      (i.view.done_of_pending_eq_zero w i.countdown.countdown hz m hm).mono <| by
        obtain ⟨stage, q, u⟩ := t
        obtain rfl : stage = .complete := hstage
        exact hv ▸ hk
    have hresolved : sh.executeEvent = none := by
      have hf : (State.countdown g _).finished = 1 := i.countdown.countdown.finished.trans (if_pos hz)
      cases he : sh.executeEvent
      case none => rfl
      case some => simp [State.countdown, he, Task.finishes, hstage] at hf
    have hall : status = none → ∀ m < g.nodesDefs.length, .complete m none ∈ history := by
      intro hn m hm
      obtain ⟨ha, hs⟩ | ⟨-, ha⟩ := hstatus
      case inl =>
        obtain ⟨error, he⟩ := st.abort ha
        exact absurd (he.symm.trans (hs.symm.trans hn)) (Option.some_ne_none _)
      case inr =>
        obtain ⟨-, x, hx⟩ | ⟨hab, -⟩ := (hdone m hm).status
        case inl => exact (st.finished m none x hx).2
        case inr => exact absurd hab ha
    refine ⟨st.resolved hresolved, ?ok, ?error, ?skipped, hall⟩
    case ok =>
      intro m u hm
      have hd := hdone m (Finset.mem_range.mp (Finset.mem_filter.mp (i.view.visit m u (.inl hm)).1).1)
      obtain ⟨hcm, x, hx⟩ | ⟨-, hcm | hsk⟩ := hd.status
      case inl => exact ⟨⟨_, (st.finished m _ x hx).2⟩, hcm⟩
      case inr.inl =>
        obtain ⟨status, x, hx⟩ := hc.completed m (hv ▸ hcm)
        exact ⟨⟨_, (st.finished m _ x hx).2⟩, hcm⟩
      case inr.inr => exact absurd hsk (st.started m u hm).2
    case error =>
      intro error he
      obtain ⟨-, hs⟩ | ⟨hn, -⟩ := hstatus
      case inl => exact st.abortStatus error (hs.symm.trans he)
      case inr => exact absurd (he.symm.trans hn) (Option.some_ne_none _)
    case skipped =>
      intro m error hm hn
      obtain ⟨x, hx⟩ := st.completed m _ hm
      obtain ⟨z, hz⟩ := (st.finished m _ x hx).1
      have hm : m ∈ sh.visited g := (i.view.visit m z (.inl hz)).1
      obtain ⟨y, hy⟩ := st.completed m _ (hall hn m <| Finset.mem_range.mp (Finset.mem_filter.mp hm).1)
      cases hx.symm.trans hy

end Follows

structure ExecuteInv (w : g.WellFormed) (s : State ε) : Prop extends Inv w s, StatusInv s where
  follows : History.Always (Follows g) s.history

theorem execute_invariant {type : ReadyQueueType} (w : g.WellFormed) (hn : 0 < g.nodesDefs.length) :
    (system ε g params type).Invariant (ExecuteInv w) where
  init h := ⟨(invariant w hn).init h, h ▸ .init, by obtain rfl := h; trivial⟩
  step := by
    intro s a s' i h
    refine ⟨(invariant w hn).step i.toInv h, i.toStatusInv.step i.countdown i.view h, ?_⟩
    have h : Step g params s a s' := h
    rw [h.history_eq]
    refine ⟨?_, i.follows⟩
    cases a
    case start    => exact follows_start i.toInv i.toStatusInv h
    case complete => exact follows_complete i.toStatusInv h
    case resolve  => exact follows_resolve i.toInv i.toStatusInv h
    all_goals trivial

section Paths

open Relation Precedence

variable {h old : List (Action ε)} {v : View} {i j : Nat}

-- A thread that executes a thunk knows about the thunks on all paths to its node.
theorem start_of_path (ha : History.Always (Follows g) (.start j v :: old)) (hp : ReflTransGen (Precedence.Step g.Edge) i j) :
    i = j ∨ ∃ u ⊆ v, .start i u ∈ old := by
  induction hp using ReflTransGen.head_induction_on
  case refl => exact .inl rfl
  case head i m hi _ ih =>
    obtain ⟨k, he⟩ := hi
    right
    obtain rfl | ⟨u, hu, hm⟩ := ih
    case inl => exact (ha.1.2.2 k i he).1
    case inr =>
      obtain ⟨new, old', rfl⟩ := List.append_of_mem hm
      obtain ⟨x, hx, hi⟩ := ((History.always_iff.mp ha.2 new _ old' rfl).2.2 k i he).1
      exact ⟨x, hx.trans hu, List.mem_append_right _ (.tail _ hi)⟩

theorem complete_of_before (ha : History.Always (Follows g) (.start j v :: old)) (hb : Before g.Edge .execution i j) :
    .complete i none ∈ old ∧ .completed i ∈ v := by
  obtain ⟨k, m, hk, he, hp⟩ := hb
  obtain rfl : k = .execution := by cases k <;> first | rfl | exact absurd hk (by decide)
  obtain rfl | ⟨u, hu, hm⟩ := start_of_path ha hp
  case inl => exact (ha.1.2.2 _ i he).2 rfl
  case inr =>
    obtain ⟨new, old', rfl⟩ := List.append_of_mem hm
    obtain ⟨hc, hv⟩ := ((History.always_iff.mp ha.2 new _ old' rfl).2.2 _ i he).2 rfl
    exact ⟨List.mem_append_right _ (.tail _ hc), hu hv⟩

end Paths

section Execute

variable {ops : List Operation} {type : ReadyQueueType}

-- A step of the only task.
theorem reachable_single {sh : ExecuteState ε} {t t' : Task ε} {a : Action ε} {h : List (Action ε)}
    (hr : (system ε g params type).Reachable ⟨sh, {t}, h⟩) (hs : TaskStep g params sh t a {t'}) :
    (system ε g params type).Reachable ⟨sh.apply a, {t'}, a :: h⟩ :=
  hr.step (show Step g params ⟨sh, t ::ₘ 0, h⟩ a _ from .task hs)

-- The thread executes both thunks on its own.
def inlineParams : ExecuteParams where
  hasRunner       := false
  splitThreshold  := 0
  executeMayBlock := fun _ => false

theorem create_writeRead : ∃ g, create writeRead = .ok g ∧ g.source = [0] ∧ g.outEdges 0 = [⟨.execution, 1⟩] ∧
    (g.inEdges 1).length = 1 :=
  ⟨_, rfl, rfl, rfl, rfl⟩

theorem reachable_writeRead {g : ExecutionGraph} (hs : g.source = [0]) (ho : g.outEdges 0 = [⟨.execution, 1⟩])
    (hi : (g.inEdges 1).length = 1) : ∃ s v old,
      (system Unit g inlineParams .lifo).Reachable s ∧ s.history = .start 1 v :: old := by
  have hno (i : Nat) (q : ReadyQueue) : ¬mayOffload inlineParams i q := fun h => nomatch h.1
  have h₀ : (system Unit g inlineParams .lifo).Reachable (.init Unit g .lifo) := .init rfl
  have hp : (ReadyQueue.create g g.source .lifo).pop = some (0, .lifo ⟨[]⟩) := by rw [hs]; rfl
  have h₁ := reachable_single h₀ (.pop hp)
  have h₂ := reachable_single h₁ (.run (hno _ _) (by simp [ExecuteState.create]))
  have h₃ := h₂.step (.complete ExecuteState.thunk_start none)
  have h₄ := reachable_single h₃ (.available <| ExecuteState.thunk_complete ExecuteState.thunk_start)
  have h₅ := reachable_single h₄ .succeed
  rw [ho] at h₅
  have h₆ := reachable_single h₅ (.process (.inl rfl))
  have hsink : isSink g 0 = false := by rw [isSink, ho]; rfl
  rw [hsink] at h₆
  have h₇ := reachable_single h₆ .keep
  have hq : ∀ sh : ExecuteState Unit, (sh.node 1).value = 1 → (sh.push 1 (.lifo ⟨[]⟩)).pop = some (1, .lifo ⟨[]⟩) := by
    intro sh hv
    rw [ExecuteState.push, if_pos hv]
    rfl
  have h₈ := reachable_single h₇ (.pop (hq _ ?_))
  have h₉ := reachable_single h₈ (.run (hno _ _) ?_)
  exact ⟨_, _, _, h₉, rfl⟩
  all_goals
    simp [ExecuteState.apply, ExecuteState.completeThunk, ExecuteState.setThunk, ExecuteState.create, hi, Atomic.fetchSub,
      Atomic.fetchAdd, MemoryOrder.releases]

-- Every interleaving of the threads executes the thunks in the order of the execution graph.
theorem execute_follows (h : create ops = .ok g) (hn : 0 < ops.length) (hr : (system ε g params type).Reachable s) :
    History.Always (Follows g) s.history := by
  have w := create_wellFormed h
  exact (hr.invariant (execute_invariant w (create_length h ▸ hn))).follows

theorem execute_follows_writeRead : ∃ g s v old, create writeRead = .ok g ∧
    (system Unit g inlineParams .lifo).Reachable s ∧ s.history = .start 1 v :: old ∧ History.Always (Follows g) s.history := by
  obtain ⟨g, h, hs, ho, hi⟩ := create_writeRead
  obtain ⟨s, v, old, hr, hh⟩ := reachable_writeRead hs ho hi
  exact ⟨g, s, v, old, h, hr, hh, execute_follows h (by decide) hr⟩

-- Conflicting thunks are ordered in every interleaving of the threads, and the effects of the first thunk are visible to
-- the thread that executes the second one.
theorem execute_race_free {new old : List (Action ε)} {v : View} {i j : Nat} {a b : Operation} (h : create ops = .ok g)
    (hr : (system ε g params type).Reachable s) (hs : s.history = new ++ .start j v :: old) (hij : i < j)
    (hi : ops[i]? = some a) (hj : ops[j]? = some b) :
    (BufferConflict a b ∨ TokenConflict a b → .complete i none ∈ old ∧ .completed i ∈ v) ∧
    (ResourceConflict a b → ∃ u ⊆ v, .start i u ∈ old) := by
  have w := create_wellFormed h
  have hn : 0 < ops.length := Nat.zero_lt_of_lt (List.getElem?_eq_some_iff.mp hi).1
  have ha := (hr.invariant (execute_invariant w (create_length h ▸ hn))).follows
  have ha : History.Always (Follows g) (.start j v :: old) := by
    rw [hs] at ha
    clear hs
    induction new
    case nil       => exact ha
    case cons ih   => exact ih ha.2
  have hb {k : Kind} (hk : conflictKind a b = some k) : Precedence.Before g.Edge k i j :=
    (create_reduced h).2 k i j ⟨hij, a, b, hi, hj, hk⟩
  constructor
  case left =>
    intro hc
    obtain hc | hc := hc
    case inl => exact complete_of_before ha (hb (conflictKind_of_buffer hc))
    case inr => exact complete_of_before ha (hb (conflictKind_of_token hc))
  case right =>
    intro hc
    obtain ⟨k, hk⟩ := conflictKind_of_resource hc
    exact (start_of_path ha (hb hk).path).resolve_left hij.ne

theorem execute_race_free_writeRead : ∃ g s v old, create writeRead = .ok g ∧
    (system Unit g inlineParams .lifo).Reachable s ∧ s.history = .start 1 v :: old ∧
      .complete 0 none ∈ old ∧ .completed 0 ∈ v := by
  obtain ⟨g, h, hs, ho, hi⟩ := create_writeRead
  obtain ⟨s, v, old, hr, hh⟩ := reachable_writeRead hs ho hi
  have hh' : s.history = [] ++ .start 1 v :: old := hh
  refine ⟨g, s, v, old, h, hr, hh, (execute_race_free h hr hh' Nat.zero_lt_one rfl rfl).1 (.inl ?_)⟩
  exact ⟨_, List.mem_singleton.mpr rfl, _, List.mem_singleton.mpr rfl, .inl (by decide), .inl rfl⟩

-- The assertions of the executor.
structure Checks (g : ExecutionGraph) (s : State ε) : Prop where
  popped   : ∀ t ∈ s.tasks, ∀ i ∈ t.ready, (s.shared.node i).value = 0
  counter  : ∀ t ∈ s.tasks, ∀ e ∈ t.due g, 1 ≤ (s.shared.node e.2).value
  pending  : s.shared.pendingNodes.value = 0 →
    ∀ i < g.nodesDefs.length, (∃ status v, s.shared.thunk i = .finished status v) ∨ s.shared.thunk i = .skipped
  complete : ∀ t ∈ s.tasks, t.stage = .complete →
    (∀ t' ∈ s.tasks, t'.readyQueue.isEmpty) ∧ (s.shared.abort → ∃ error, s.shared.abortStatus = some error) ∧
      s.shared.executeEvent = none

theorem execute_checks (h : create ops = .ok g) (hn : 0 < ops.length) (hr : (system ε g params type).Reachable s) :
    Checks g s := by
  have w := create_wellFormed h
  have i := hr.invariant (execute_invariant w (create_length h ▸ hn))
  have hmem {M : Type} {f : Task ε → Multiset M} {t : Task ε} {x : M} (ht : t ∈ s.tasks) (hx : x ∈ f t) :
      x ∈ (s.tasks.map f).sum := by
    obtain ⟨rest, hr⟩ := Multiset.exists_cons_of_mem ht
    rw [hr, Multiset.map_cons, Multiset.sum_cons]
    exact Multiset.mem_add.mpr (.inl hx)
  constructor
  case popped  => exact fun t ht j hj => (i.countdown.countdown.of_mem_ready (hmem ht hj)).2.2
  case counter => exact fun t ht e he => i.countdown.countdown.counter_pos (hmem ht he)
  case pending =>
    intro hz j hj
    obtain ⟨-, v, hv⟩ | ⟨-, hc | hs⟩ := (i.view.done_of_pending_eq_zero w i.countdown.countdown hz j hj).status
    case inl     => exact .inl ⟨_, v, hv⟩
    case inr.inl => exact .inl (i.view.pending.completed j hc)
    case inr.inr => exact .inr hs
  case complete =>
    intro t ht hs
    have hz := i.countdown.pending_eq_zero ht hs
    refine ⟨fun t' ht' => ?queues, i.abort, ?finished⟩
    case queues =>
      rw [ReadyQueue.isEmpty_iff]
      refine Multiset.eq_zero_of_forall_notMem fun j hj => ?_
      have hj : j ∈ (s.countdown g).ready := hmem ht' (Multiset.mem_add.mpr (.inl hj))
      rw [(i.countdown.countdown.of_pending_eq_zero hz).2.2.1] at hj
      exact Multiset.notMem_zero j hj
    case finished =>
      have hf : (s.countdown g).finished = 1 := i.countdown.countdown.finished.trans (if_pos hz)
      obtain ⟨rest, hr⟩ := Multiset.exists_cons_of_mem ht
      cases he : s.shared.executeEvent
      case none => rfl
      case some => simp [State.countdown, he, hr, Task.finishes, hs] at hf

theorem execute_checks_writeRead : ∃ g s v old, create writeRead = .ok g ∧
    (system Unit g inlineParams .lifo).Reachable s ∧ s.history = .start 1 v :: old ∧ Checks g s := by
  obtain ⟨g, h, hs, ho, hi⟩ := create_writeRead
  obtain ⟨s, v, old, hr, hh⟩ := reachable_writeRead hs ho hi
  exact ⟨g, s, v, old, h, hr, hh, execute_checks h (by decide) hr⟩

end Execute

end Runtime.ThunkExecutor
