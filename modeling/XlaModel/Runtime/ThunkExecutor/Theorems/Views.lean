import XlaModel.Runtime.ThunkExecutor.Theorems.Countdown

namespace Runtime.ThunkExecutor

open ExecutionGraph

variable {ε : Type} {g : ExecutionGraph} {params : ExecuteParams} {s s' : State ε} {v w : View}

-- The facts about a state that remain true.
structure State.Extends (s s' : State ε) : Prop where
  history  : ∀ a ∈ s.history, a ∈ s'.history
  finished : ∀ i status w, s.shared.thunk i = .finished status w → s'.shared.thunk i = .finished status w
  skipped  : ∀ i, s.shared.thunk i = .skipped → s'.shared.thunk i = .skipped
  abort    : s.shared.abort → s'.shared.abort

-- What is in a view has happened. A thread that knows that a node has been visited knows what was known there.
structure View.Consistent (s : State ε) (v : View) : Prop where
  visited   : ∀ i, .visited i ∈ v →
    ∃ w ⊆ v, .start i w ∈ s.history ∨ .skip i w ∈ s.history ∧ .aborted ∈ w
  completed : ∀ i, .completed i ∈ v → ∃ status w, s.shared.thunk i = .finished status w
  aborted   : .aborted ∈ v → s.shared.abort

-- A thread knows that the thunk of a node has been executed or skipped, and whether it has failed.
structure View.Done (s : State ε) (i : Nat) (v : View) : Prop where
  visited : .visited i ∈ v
  status  : (.completed i ∈ v ∧ ∃ w, s.shared.thunk i = .finished none w) ∨
    (.aborted ∈ v ∧ (.completed i ∈ v ∨ s.shared.thunk i = .skipped))

-- What is known about the source of an edge once the edge has been processed.
structure View.Knows (s : State ε) (k : Kind) (i : Nat) (v : View) : Prop where
  visited : .visited i ∈ v
  done    : k = .execution → v.Done s i

namespace View

theorem Consistent.empty : Consistent s ∅ where
  visited _ h   := h.elim
  completed _ h := h.elim
  aborted h     := h.elim

theorem Consistent.union (hv : v.Consistent s) (hw : w.Consistent s) : Consistent s (v ∪ w) where
  visited i h := by
    obtain h | h := h
    case inl =>
      obtain ⟨u, hu, ha⟩ := hv.visited i h
      exact ⟨u, hu.trans Set.subset_union_left, ha⟩
    case inr =>
      obtain ⟨u, hu, ha⟩ := hw.visited i h
      exact ⟨u, hu.trans Set.subset_union_right, ha⟩
  completed i h := h.elim (hv.completed i) (hw.completed i)
  aborted h     := h.elim hv.aborted hw.aborted

theorem Consistent.extend (h : s.Extends s') (hv : v.Consistent s) : v.Consistent s' where
  visited i hi := by
    obtain ⟨w, hw, ha⟩ := hv.visited i hi
    exact ⟨w, hw, ha.imp (h.history _) fun ha => ⟨h.history _ ha.1, ha.2⟩⟩
  completed i hi := by
    obtain ⟨status, w, hw⟩ := hv.completed i hi
    exact ⟨status, w, h.finished i status w hw⟩
  aborted ha := h.abort (hv.aborted ha)

theorem Done.extend (h : s.Extends s') (hd : v.Done s i) : v.Done s' i where
  visited := hd.visited
  status  := by
    obtain ⟨hc, w, hw⟩ | ⟨ha, hs⟩ := hd.status
    case inl => exact .inl ⟨hc, w, h.finished i none w hw⟩
    case inr => exact .inr ⟨ha, hs.imp_right (h.skipped i)⟩

theorem Done.mono (h : v ⊆ w) (hd : v.Done s i) : w.Done s i where
  visited := h hd.visited
  status  := hd.status.imp (And.imp_left (h ·)) (And.imp (h ·) (Or.imp_left (h ·)))

theorem Knows.extend (h : s.Extends s') (hk : v.Knows s k i) : v.Knows s' k i where
  visited := hk.visited
  done he := (hk.done he).extend h

theorem Knows.mono (h : v ⊆ w) (hk : v.Knows s k i) : w.Knows s k i where
  visited := h hk.visited
  done he := (hk.done he).mono h

end View

-- What the thread of a task knows.
def Task.Knows (s : State ε) (t : Task ε) : Prop :=
  match t.stage with
  | .splitReadyQueue i | .runThunk i                    => (s.shared.node i).view ⊆ t.view
  | .checkEvent i                                       => .visited i ∈ t.view
  | .processScheduledOutEdges i _ _ | .continuation i _ => .visited i ∈ t.view
  | .processCompletedOutEdges i status _ _              =>
    .visited i ∈ t.view ∧ ((.completed i ∈ t.view ∧ ∃ w, s.shared.thunk i = .finished status w) ∨
      (status = none ∧ .aborted ∈ t.view ∧ s.shared.thunk i = .skipped))
  | .processOutEdges i _ _ _                            => t.view.Done s i
  | .complete                                           => s.shared.pendingNodes.view ⊆ t.view
  | .execute                                            => True

structure ViewInv (g : ExecutionGraph) (s : State ε) : Prop where
  node     : ∀ j, (s.shared.node j).view.Consistent s
  pending  : s.shared.pendingNodes.view.Consistent s
  running  : ∀ i w, s.shared.thunk i = .running w → w.Consistent s ∧ .visited i ∈ w
  finished : ∀ i status w, s.shared.thunk i = .finished status w →
    w.Consistent s ∧ .visited i ∈ w ∧ .completed i ∈ w
  task     : ∀ t ∈ s.tasks, t.view.Consistent s ∧ t.Knows s
  -- The view of a node does not change when the node has been visited.
  visit    : ∀ i w, .start i w ∈ s.history ∨ .skip i w ∈ s.history →
    i ∈ s.shared.visited g ∧ (s.shared.node i).view ⊆ w
  edge     : ∀ k i j, g.Edge k i j → i ∈ s.shared.visited g →
    (i, j) ∈ (s.countdown g).due ∨ (s.shared.node j).view.Knows s k i
  delivered : ∀ i ∈ s.shared.visited g, i ∈ (s.countdown g).drops ∨ (∃ j, (i, j) ∈ (s.countdown g).due) ∨
    s.shared.pendingNodes.view.Done s i ∨ ∃ k j, g.Edge k i j ∧ (s.shared.node j).view.Done s i

-- When no nodes are pending, the thread that finds this knows everything.
theorem ViewInv.done_of_pending_eq_zero (w : g.WellFormed) (i : ViewInv g s) (c : Countdown.Inv w.dag (s.countdown g))
    (h : s.shared.pendingNodes.value = 0) :
    ∀ j < g.nodesDefs.length, s.shared.pendingNodes.view.Done s j := by
  obtain ⟨hv, hd, -, hp⟩ := c.of_pending_eq_zero h
  have hv : ∀ j < g.nodesDefs.length, j ∈ s.shared.visited g := by
    intro j hj
    have : j ∈ (s.countdown g).visited := hv ▸ Finset.mem_range.mpr hj
    exact this
  have hdone : ∀ j < g.nodesDefs.length, s.shared.pendingNodes.view.Done s j ∨
      ∃ k m, g.Edge k j m ∧ (s.shared.node m).view.Done s j := by
    intro j hj
    have := i.delivered j (hv j hj)
    rw [hp, hd] at this
    simpa using this
  have hnode : ∀ j, .visited j ∈ s.shared.pendingNodes.view → (s.shared.node j).view ⊆ s.shared.pendingNodes.view := by
    intro j hj
    obtain ⟨u, hu, ha⟩ := i.pending.visited j hj
    exact (i.visit j u <| ha.imp_right And.left).2.trans hu
  have hvisited : ∀ j ∈ w.dag.nodes, .visited j ∈ s.shared.pendingNodes.view := by
    refine Dag.induction_succ ?source ?edge
    case source =>
      intro j hj
      obtain ⟨hj, hs⟩ := Dag.mem_sinks.mp hj
      obtain h | ⟨k, m, he, -⟩ := hdone j (Finset.mem_range.mp hj)
      case inl => exact h.visited
      case inr =>
        have hm : m ∈ g.successors j := mem_successors.mpr ⟨k, he⟩
        rw [show g.successors j = 0 from hs] at hm
        exact absurd hm (Multiset.notMem_zero m)
    case edge =>
      intro j hj m hm hvm
      obtain ⟨k, he⟩ := mem_successors.mp hm
      obtain h | h := i.edge k j m he (hv j (Finset.mem_range.mp hj))
      case inl => rw [hd] at h; exact absurd h (Multiset.notMem_zero _)
      case inr => exact hnode m hvm h.visited
  intro j hj
  obtain h | ⟨k, m, he, h⟩ := hdone j hj
  case inl => exact h
  case inr => exact h.mono (hnode m (hvisited m (Finset.mem_range.mpr (w.forward k j m he).2)))

namespace ExecuteState

variable {s : ExecuteState ε} {a : Action ε}

theorem view_subset_apply (s : ExecuteState ε) (a : Action ε) (j : Nat) : (s.node j).view ⊆ ((s.apply a).node j).view := by
  cases a
  case decrement i m v =>
    by_cases hj : j = m
    case pos => simp [apply, hj, Atomic.fetchSub, Atomic.fetchAdd, MemoryOrder.releases]
    case neg => simp [apply, hj]
  case complete i status =>
    rw [apply, completeThunk]
    split <;> exact subset_rfl
  all_goals exact subset_rfl

theorem node_apply {j : Nat} (h : ∀ i v, a ≠ .decrement i j v) : (s.apply a).node j = s.node j := by
  cases a
  case decrement i m v =>
    have hj : j ≠ m := by
      rintro rfl
      exact h i v rfl
    simp [apply, hj]
  case complete i status =>
    rw [apply, completeThunk]
    split <;> rfl
  all_goals rfl

theorem pendingNodes_completeThunk {i : Nat} {status : Option ε} :
    (s.completeThunk i status).pendingNodes = s.pendingNodes := by
  rw [completeThunk]
  split <;> rfl

theorem pendingNodes_subset_apply (s : ExecuteState ε) (a : Action ε) :
    s.pendingNodes.view ⊆ (s.apply a).pendingNodes.view := by
  cases a
  case increment => exact subset_rfl
  case drop      => exact Set.subset_union_left
  case complete  => exact (congrArg Atomic.view pendingNodes_completeThunk).superset
  all_goals exact subset_rfl

theorem thunk_apply {i : Nat} (hs : ∀ v, a ≠ .start i v) (hk : ∀ v, a ≠ .skip i v) (hc : ∀ status, a ≠ .complete i status) :
    (s.apply a).thunk i = s.thunk i := by
  cases a
  case start j v =>
    have hj : i ≠ j := by
      rintro rfl
      exact hs v rfl
    simp [apply, setThunk, hj]
  case skip j v =>
    have hj : i ≠ j := by
      rintro rfl
      exact hk v rfl
    simp [apply, setThunk, hj]
  case complete j status =>
    have hj : i ≠ j := by
      rintro rfl
      exact hc status rfl
    rw [apply, completeThunk]
    split
    case h_1 => simp [setThunk, hj]
    case h_2 => rfl
  all_goals rfl

theorem running_apply {i : Nat} (h : (s.apply a).thunk i = .running v) : a = .start i v ∨ s.thunk i = .running v := by
  by_cases hs : ∃ u, a = .start i u
  case pos =>
    obtain ⟨u, rfl⟩ := hs
    left
    simpa [apply, setThunk] using h
  case neg =>
    refine .inr <| (thunk_apply (fun u hu => hs ⟨u, hu⟩) ?visit ?complete).symm.trans h
    case visit =>
      rintro u rfl
      simp [apply, setThunk] at h
    case complete =>
      rintro status rfl
      rw [apply, completeThunk] at h
      split at h
      case h_1       => simp [setThunk] at h
      case h_2 hn => exact absurd h (hn v)

theorem finished_apply {i : Nat} {status : Option ε} (h : (s.apply a).thunk i = .finished status v) :
    s.thunk i = .finished status v ∨
      ∃ u, a = .complete i status ∧ s.thunk i = .running u ∧ v = u ∪ {.completed i} := by
  by_cases hc : ∃ status, a = .complete i status
  case pos =>
    obtain ⟨status', rfl⟩ := hc
    rw [apply, completeThunk] at h
    split at h
    case h_1 u hu =>
      right
      simp only [setThunk, Function.update_self, ThunkState.finished.injEq] at h
      obtain ⟨rfl, rfl⟩ := h
      exact ⟨u, rfl, hu, rfl⟩
    case h_2 => exact .inl h
  case neg =>
    refine .inl <| (thunk_apply ?start ?visit fun status hs => hc ⟨status, hs⟩).symm.trans h
    case start =>
      rintro u rfl
      simp [apply, setThunk] at h
    case visit =>
      rintro u rfl
      simp [apply, setThunk] at h

theorem abort_apply (h : s.abort) : (s.apply a).abort := by
  cases a
  case complete =>
    rw [apply, completeThunk]
    split <;> exact h
  all_goals first | exact h | rfl

end ExecuteState

namespace Step

variable {a : Action ε}

theorem shared_eq (h : Step g params s a s') : s'.shared = s.shared.apply a := by
  cases h <;> rfl

theorem history_eq (h : Step g params s a s') : s'.history = a :: s.history := by
  cases h <;> rfl

theorem ready (h : Step g params s a s') :
    TaskStep.visitedBy a + (s'.countdown g).ready = TaskStep.readyOf s.shared a + (s.countdown g).ready := by
  cases h
  case task h => exact Task.sum_step _ h.ready
  case complete => rfl

theorem due (h : Step g params s a s') :
    TaskStep.processedBy a + (s'.countdown g).due = TaskStep.dueOf g a + (s.countdown g).due := by
  cases h
  case task h => exact Task.sum_step _ h.due
  case complete => rfl

theorem drops (hv : ∀ t ∈ s.tasks, t.Valid g) (h : Step g params s a s') :
    TaskStep.droppedBy a + (s'.countdown g).drops = TaskStep.dropsOf g a + (s.countdown g).drops := by
  cases h
  case task h   => exact Task.sum_step _ (h.drops <| hv _ (Multiset.mem_cons_self _ _))
  case complete => rfl

-- A thunk is idle before it is executed or skipped.
theorem idle_of_visit {w : g.WellFormed} (c : CountdownInv w s) (h : Step g params s a s')
    (hi : TaskStep.visitedBy a = {i}) : i < g.nodesDefs.length ∧ s.shared.thunk i = .idle := by
  have hr := h.ready
  have hz : TaskStep.readyOf s.shared a = 0 := by
    cases a <;> first | rfl | exact absurd hi.symm (Multiset.singleton_ne_zero _)
  rw [hi, hz, zero_add] at hr
  obtain ⟨hn, hv, -⟩ := c.countdown.of_mem_ready (hr ▸ Multiset.mem_add.mpr (.inl (Multiset.mem_singleton_self i)))
  have hn : i < g.nodesDefs.length := Finset.mem_range.mp hn
  refine ⟨hn, ?_⟩
  have hv : i ∉ s.shared.visited g := hv
  simp only [ExecuteState.visited, Finset.mem_filter, Finset.mem_range, not_and, not_not] at hv
  have hv := hv hn
  cases ht : s.shared.thunk i
  case idle => rfl
  all_goals rw [ht] at hv; cases hv

theorem running_of_complete {status : Option ε} (h : Step g params s (.complete i status) s') :
    ∃ w, s.shared.thunk i = .running w := by
  cases h
  case task h     => cases h
  case complete h => exact ⟨_, h⟩

-- The thunk of a node that has been executed or skipped stays as it is.
theorem thunk_eq {w : g.WellFormed} (c : CountdownInv w s) (h : Step g params s a s') (hi : s.shared.thunk i ≠ .idle)
    (hr : ∀ w, s.shared.thunk i ≠ .running w) : s'.shared.thunk i = s.shared.thunk i := by
  rw [h.shared_eq]
  refine ExecuteState.thunk_apply ?start ?visit ?complete
  case start =>
    rintro v rfl
    exact hi (h.idle_of_visit c rfl).2
  case visit =>
    rintro v rfl
    exact hi (h.idle_of_visit c rfl).2
  case complete =>
    rintro status rfl
    obtain ⟨w, hw⟩ := h.running_of_complete
    exact hr w hw

theorem extend {w : g.WellFormed} (c : CountdownInv w s) (h : Step g params s a s') : s.Extends s' where
  history b hb        := h.history_eq ▸ .tail _ hb
  finished i st v hi  := (h.thunk_eq c (by simp [hi]) (by simp [hi])).trans hi
  skipped i hi        := (h.thunk_eq c (by simp [hi]) (by simp [hi])).trans hi
  abort ha            := h.shared_eq ▸ ExecuteState.abort_apply ha

end Step

namespace TaskStep

variable {a : Action ε} {t : Task ε} {ts : Multiset (Task ε)} (i : ViewInv g s) (ht : t ∈ s.tasks)
  (h : TaskStep g params s.shared t a ts) (e : s.Extends s') (hs : s'.shared = s.shared.apply a)
  (hh : s'.history = a :: s.history)
include i ht h e hs hh

theorem consistent : ∀ t' ∈ ts, t'.view.Consistent s' := by
  have hc := (i.task t ht).1.extend e
  cases h
  case finish => simp
  case pop => simpa using hc.union ((i.node _).extend e)
  case available h => simpa using hc.union ((i.finished _ _ _ h).1.extend e)
  case resume h => simpa using hc.union ((i.finished _ _ _ h).1.extend e)
  case drop => simpa using hc.union (i.pending.extend e)
  case run j q v hm ha =>
    simp only [Multiset.mem_singleton, forall_eq]
    constructor
    case visited =>
      rintro k (hk | hk)
      case inl =>
        obtain ⟨w, hw, hk⟩ := hc.visited k hk
        exact ⟨w, hw.trans Set.subset_union_left, hk⟩
      case inr =>
        cases hk
        exact ⟨_, subset_rfl, .inl (hh ▸ .head _)⟩
    case completed => simpa using hc.completed
    case aborted   => simpa using hc.aborted
  case skip j q v hm ha =>
    simp only [Multiset.mem_singleton, forall_eq]
    constructor
    case visited =>
      rintro k (hk | hk | hk)
      case inl =>
        obtain ⟨w, hw, hk⟩ := hc.visited k hk
        exact ⟨w, hw.trans Set.subset_union_left, hk⟩
      case inr.inl =>
        cases hk
        exact ⟨_, subset_rfl, .inr ⟨hh ▸ .head _, by simp⟩⟩
      case inr.inr => cases hk
    case completed => simpa using hc.completed
    case aborted   => exact fun _ => e.abort ha
  case fail error j all d q v =>
    simp only [Multiset.mem_singleton, forall_eq]
    constructor
    case visited =>
      rintro k (hk | hk)
      case inl =>
        obtain ⟨w, hw, hk⟩ := hc.visited k hk
        exact ⟨w, hw.trans Set.subset_union_left, hk⟩
      case inr => cases hk
    case completed => simpa using hc.completed
    case aborted   => exact fun _ => hs ▸ rfl
  all_goals simpa using hc

theorem knows : ∀ t' ∈ ts, t'.Knows s' := by
  have hk := (i.task t ht).2
  cases h
  case finish => simp
  case pop j q' q v hp =>
    simp only [Multiset.mem_singleton, forall_eq, Atomic.load_acquire, Set.sup_eq_union, popStage, Task.Knows, hs, ExecuteState.apply]
    split_ifs <;> exact Set.subset_union_right
  case split => simpa [Task.Knows, hs, ExecuteState.apply] using hk
  case stopSplit => simpa [Task.Knows, hs, ExecuteState.apply] using hk
  case offload => simp [Task.Knows]
  case run => simp [Task.Knows]
  case skip => simp [Task.Knows, hs, ExecuteState.apply, ExecuteState.setThunk]
  case available status w j q v hf =>
    have hw := i.finished _ _ _ hf
    simp only [Multiset.mem_singleton, forall_eq, Task.Knows]
    exact ⟨.inl hk, .inl ⟨.inr hw.2.2, _, e.finished _ _ _ hf⟩⟩
  case resume status w j d q v hf =>
    have hw := i.finished _ _ _ hf
    simp only [Multiset.mem_singleton, forall_eq, Task.Knows]
    exact ⟨.inl hk, .inl ⟨.inr hw.2.2, _, e.finished _ _ _ hf⟩⟩
  case unavailable => simpa [Task.Knows] using hk
  case passExecutionEdge => simpa [Task.Knows] using hk
  case increment => simpa [Task.Knows] using hk
  case schedule => simpa [Task.Knows] using hk
  case attach => simpa [Task.Knows] using hk
  case fail error j all d q v =>
    simp only [Multiset.mem_singleton, forall_eq, Task.Knows]
    obtain ⟨hv, ⟨hc, -⟩ | ⟨hn, -⟩⟩ := hk
    case inl => exact ⟨.inl hv, .inr ⟨.inr rfl, .inl (.inl hc)⟩⟩
    case inr => cases hn
  case succeed =>
    simp only [Multiset.mem_singleton, forall_eq, Task.Knows]
    obtain ⟨hv, ⟨hc, w, hw⟩ | ⟨-, ha, hw⟩⟩ := hk
    case inl => exact ⟨hv, .inl ⟨hc, w, e.finished _ _ _ hw⟩⟩
    case inr => exact ⟨hv, .inr ⟨ha, .inr (e.skipped _ hw)⟩⟩
  case passSchedulingEdge =>
    simp only [Multiset.mem_singleton, forall_eq]
    exact View.Done.extend e hk
  case process =>
    simp only [Multiset.mem_singleton, forall_eq]
    exact View.Done.extend e hk
  case keep => simp [Task.Knows]
  case drop j all q v =>
    simp only [Multiset.mem_singleton, forall_eq, Task.Knows]
    split_ifs
    case pos =>
      simp only [hs, ExecuteState.apply, Atomic.load_acqRel, Set.sup_eq_union]
      exact Set.union_comm _ _ |>.subset
    case neg => trivial
  case resolveError => simp [Task.Knows]
  case resolve => simp [Task.Knows]

end TaskStep

-- A thread that processes an edge knows about the source of the edge.
theorem TaskStep.knows_of_decrement {t : Task ε} {ts : Multiset (Task ε)} (w : g.WellFormed) (hv : t.Valid g)
    (hk : t.Knows s) (h : TaskStep g params s.shared t (.decrement i j v) ts) :
    v = t.view ∧ (∀ k, g.Edge k i j → v.Knows s k i) ∧ (i ∈ (ts.map (Task.drops g)).sum ∨ v.Done s i) := by
  cases h
  case process => exact ⟨rfl, fun k _ => ⟨hk.visited, fun _ => hk⟩, .inr hk⟩
  case schedule e es q h =>
    refine ⟨rfl, fun k hkj => ⟨hk, fun hke => ?_⟩, .inl (by simp [Task.drops])⟩
    have he : g.Edge e.kind i e.id := hv.1 e (.head _)
    have hk := w.kind_unique he hkj
    exact absurd (h.symm.trans <| hk.trans hke) (by decide)

theorem TaskStep.done_of_drop {t : Task ε} {ts : Multiset (Task ε)} (hk : t.Knows s)
    (h : TaskStep g params s.shared t (.drop i v) ts) : v = t.view ∧ v.Done s i := by
  cases h
  exact ⟨rfl, hk⟩

namespace Step

variable {a : Action ε}

theorem due_of_decrement (h : Step g params s (.decrement i j v) s') : (i, j) ∈ (s.countdown g).due := by
  have hd := h.due
  simp only [TaskStep.processedBy, TaskStep.dueOf, zero_add] at hd
  exact hd ▸ Multiset.mem_add.mpr (.inl (Multiset.mem_singleton_self _))

theorem node_eq {w : g.WellFormed} (c : CountdownInv w s) (h : Step g params s a s') (hz : (s.shared.node i).value = 0) :
    s'.shared.node i = s.shared.node i := by
  rw [h.shared_eq]
  refine ExecuteState.node_apply ?_
  rintro k v rfl
  have hp : 1 ≤ (s.shared.node i).value := c.countdown.counter_pos h.due_of_decrement
  omega

-- The knowledge of a thread remains valid in the steps of other threads.
theorem knows {w : g.WellFormed} {t : Task ε} (c : CountdownInv w s) (h : Step g params s a s') (ht : t ∈ s.tasks)
    (hd : ∀ i v, a = .drop i v → t.stage ≠ .complete) (hk : t.Knows s) : t.Knows s' := by
  have e := h.extend c
  obtain ⟨stage, q, v⟩ := t
  have hready {i : Nat} (hi : i ∈ (⟨stage, q, v⟩ : Task ε).ready) : (s.shared.node i).value = 0 := by
    have hm : i ∈ (s.countdown g).ready := by
      obtain ⟨rest, hr⟩ := Multiset.exists_cons_of_mem ht
      simp only [State.countdown, hr, Multiset.map_cons, Multiset.sum_cons]
      exact Multiset.mem_add.mpr (.inl hi)
    exact (c.countdown.of_mem_ready hm).2.2
  cases stage
  case execute => trivial
  case splitReadyQueue i =>
    have hz := hready (i := i) (by simp [Task.ready])
    simpa [Task.Knows, h.node_eq c hz] using hk
  case runThunk i =>
    have hz := hready (i := i) (by simp [Task.ready])
    simpa [Task.Knows, h.node_eq c hz] using hk
  case checkEvent => exact hk
  case processScheduledOutEdges => exact hk
  case continuation => exact hk
  case processCompletedOutEdges i status all d =>
    refine ⟨hk.1, hk.2.imp ?completed ?aborted⟩
    case completed =>
      rintro ⟨hc, w, hw⟩
      exact ⟨hc, w, e.finished _ _ _ hw⟩
    case aborted =>
      rintro ⟨hn, ha, hw⟩
      exact ⟨hn, ha, e.skipped _ hw⟩
  case processOutEdges => exact View.Done.extend e hk
  case complete =>
    have hp : s'.shared.pendingNodes.view = s.shared.pendingNodes.view := by
      rw [h.shared_eq]
      cases a
      case drop i v => exact absurd rfl (hd i v rfl)
      case complete => exact congrArg Atomic.view ExecuteState.pendingNodes_completeThunk
      all_goals rfl
    simpa [Task.Knows, hp] using hk

end Step

theorem CountdownInv.counter_of_visited {w : g.WellFormed} (c : CountdownInv w s) (hi : i ∈ s.shared.visited g) :
    (s.shared.node i).value = 0 := by
  by_contra hz
  exact c.countdown.not_visited hz hi

-- A step visits at most one node.
theorem Step.visited_eq {a : Action ε} {w : g.WellFormed} (c : CountdownInv w s) (h : Step g params s a s') :
    (TaskStep.visitedBy a = 0 ∧ s'.shared.visited g = s.shared.visited g) ∨
      ∃ i, TaskStep.visitedBy a = {i} ∧ s'.shared.visited g = insert i (s.shared.visited g) := by
  rw [h.shared_eq]
  cases a
  case start i v =>
    have hn := (h.idle_of_visit c rfl).1
    exact .inr ⟨i, rfl, ExecuteState.visited_setThunk hn (by simp [ThunkState.isIdle])⟩
  case skip i v =>
    have hn := (h.idle_of_visit c rfl).1
    exact .inr ⟨i, rfl, ExecuteState.visited_setThunk hn (by simp [ThunkState.isIdle])⟩
  case complete => exact .inl ⟨rfl, ExecuteState.visited_completeThunk⟩
  all_goals exact .inl ⟨rfl, rfl⟩

-- No nodes are pending when a thread resolves the event.
theorem CountdownInv.pending_eq_zero {w : g.WellFormed} {t : Task ε} (c : CountdownInv w s) (ht : t ∈ s.tasks)
    (hs : t.stage = .complete) : s.shared.pendingNodes.value = 0 := by
  by_contra hz
  have hf : (s.countdown g).finished = 0 := c.countdown.finished.trans (if_neg hz)
  obtain ⟨rest, hr⟩ := Multiset.exists_cons_of_mem ht
  simp [State.countdown, hr, Task.finishes, hs] at hf

namespace ViewInv

variable {a : Action ε} {w : g.WellFormed} (c : CountdownInv w s) (i : ViewInv g s) (h : Step g params s a s')
include c i h

theorem step_task : ∀ t ∈ s'.tasks, t.view.Consistent s' ∧ t.Knows s' := by
  have e := h.extend c
  have hknows := fun t (ht : t ∈ s.tasks) hd => h.knows c ht hd (i.task t ht).2
  have hs := h.shared_eq
  have hh := h.history_eq
  cases h
  case complete =>
    intro t ht
    exact ⟨(i.task t ht).1.extend e, hknows t ht (by simp)⟩
  case task sh t₀ ts rest history h =>
    intro t ht
    rcases Multiset.mem_add.mp ht with ht | ht
    case inl =>
      have hm : t₀ ∈ t₀ ::ₘ rest := Multiset.mem_cons_self _ _
      exact ⟨h.consistent i hm e hs hh t ht, h.knows i hm e hs hh t ht⟩
    case inr =>
      have hm : t ∈ t₀ ::ₘ rest := Multiset.mem_cons_of_mem ht
      refine ⟨(i.task t hm).1.extend e, hknows t hm ?_⟩
      rintro j v rfl hst
      -- No task drops the number of pending nodes once it is zero.
      have hz : (State.countdown g _).pending = 0 := c.pending_eq_zero hm hst
      have hd := (c.countdown.of_pending_eq_zero hz).2.2.2
      have := Task.sum_step rest <| h.drops (c.valid _ (Multiset.mem_cons_self _ _))
      simp only [State.countdown] at hd
      rw [hd] at this
      simp [TaskStep.droppedBy, TaskStep.dropsOf] at this

omit i in
theorem step_visited : s.shared.visited g ⊆ s'.shared.visited g := by
  obtain ⟨-, he⟩ | ⟨j, -, he⟩ := h.visited_eq c
  case inl => exact he.symm.subset
  case inr => exact he ▸ Finset.subset_insert _ _

omit c i in
theorem view_subset (j : Nat) : (s.shared.node j).view ⊆ (s'.shared.node j).view :=
  h.shared_eq ▸ ExecuteState.view_subset_apply _ _ _

omit c i in
theorem pending_subset : s.shared.pendingNodes.view ⊆ s'.shared.pendingNodes.view :=
  h.shared_eq ▸ ExecuteState.pendingNodes_subset_apply _ _

theorem step_node (j : Nat) : (s'.shared.node j).view.Consistent s' := by
  have e := h.extend c
  have hj := (i.node j).extend e
  by_cases ha : ∃ k v, a = .decrement k j v
  case neg =>
    rw [h.shared_eq, ExecuteState.node_apply fun k v h => ha ⟨k, v, h⟩]
    exact hj
  case pos =>
    obtain ⟨k, v, rfl⟩ := ha
    have hs := h.shared_eq
    cases h
    case task sh t ts rest history h =>
      have hm : t ∈ t ::ₘ rest := Multiset.mem_cons_self _ _
      obtain rfl := (h.knows_of_decrement w (c.valid t hm) (i.task t hm).2).1
      have := hj.union ((i.task t hm).1.extend e)
      simpa [ExecuteState.apply, Atomic.fetchSub, Atomic.fetchAdd, MemoryOrder.releases] using this

theorem step_pending : s'.shared.pendingNodes.view.Consistent s' := by
  have e := h.extend c
  have hp := i.pending.extend e
  cases h
  case complete =>
    rw [ExecuteState.apply, ExecuteState.pendingNodes_completeThunk]
    exact hp
  case task sh t ts rest history h =>
    have hm : t ∈ t ::ₘ rest := Multiset.mem_cons_self _ _
    cases a
    case drop k v =>
      obtain rfl := (h.done_of_drop (i.task t hm).2).1
      exact hp.union ((i.task t hm).1.extend e)
    case complete => cases h
    all_goals exact hp

theorem step_visit (j : Nat) (u : View) (hj : .start j u ∈ s'.history ∨ .skip j u ∈ s'.history) :
    j ∈ s'.shared.visited g ∧ (s'.shared.node j).view ⊆ u := by
  rw [h.history_eq, List.mem_cons, List.mem_cons, or_or_or_comm] at hj
  obtain ha | hj := hj
  case inl =>
    have hv : TaskStep.visitedBy a = {j} := by obtain rfl | rfl := ha <;> rfl
    have hz : (s.shared.node j).value = 0 := by
      have hr := h.ready
      rw [hv] at hr
      have hm : j ∈ (s.countdown g).ready := by
        obtain rfl | rfl := ha <;>
          exact (zero_add (s.countdown g).ready).subst hr ▸ Multiset.mem_add.mpr (.inl (Multiset.mem_singleton_self _))
      exact (c.countdown.of_mem_ready hm).2.2
    rw [h.node_eq c hz]
    obtain ⟨hn, -⟩ | ⟨m, hm, he⟩ := h.visited_eq c
    case inl => exact absurd (hn.symm.trans hv) (by simp)
    case inr =>
      obtain rfl : m = j := Multiset.singleton_inj.mp (hm.symm.trans hv)
      refine ⟨he ▸ Finset.mem_insert_self _ _, ?_⟩
      cases h
      case complete => simp at ha
      case task sh t ts rest history h =>
        have hk := (i.task t (Multiset.mem_cons_self _ _)).2
        obtain rfl | rfl := ha <;> cases h <;> exact Set.Subset.trans hk Set.subset_union_left
  case inr =>
    have hv := i.visit j u hj
    rw [h.node_eq c (c.counter_of_visited hv.1)]
    exact ⟨step_visited c h hv.1, hv.2⟩

theorem step_running (j : Nat) (u : View) (hj : s'.shared.thunk j = .running u) : u.Consistent s' ∧ .visited j ∈ u := by
  have e := h.extend c
  obtain rfl | hj := ExecuteState.running_apply <| h.shared_eq ▸ hj
  case inl =>
    have ht := i.step_task c h
    cases h
    case task sh t ts rest history h =>
      cases h
      case run q v hm ha => exact ⟨(ht _ (Multiset.mem_add.mpr (.inl (Multiset.mem_singleton_self _)))).1, .inr rfl⟩
  case inr => exact (i.running j u hj).imp_left (·.extend e)

theorem step_finished (j : Nat) (status : Option ε) (u : View) (hj : s'.shared.thunk j = .finished status u) :
    u.Consistent s' ∧ .visited j ∈ u ∧ .completed j ∈ u := by
  have e := h.extend c
  obtain hs | ⟨v, rfl, hv, rfl⟩ := ExecuteState.finished_apply <| h.shared_eq ▸ hj
  case inl => exact (i.finished j status u hs).imp_left (·.extend e)
  case inr =>
    obtain ⟨hc, hm⟩ := i.running j v hv
    have hc := hc.extend e
    refine ⟨⟨?visited, ?started, ?aborted⟩, .inl hm, .inr rfl⟩
    case visited =>
      rintro k (hk | hk)
      case inl =>
        obtain ⟨x, hx, hk⟩ := hc.visited k hk
        exact ⟨x, hx.trans Set.subset_union_left, hk⟩
      case inr => cases hk
    case started =>
      rintro k (hk | hk)
      case inl => exact hc.completed k hk
      case inr =>
        cases hk
        exact ⟨status, _, hj⟩
    case aborted =>
      rintro (ha | ha)
      case inl => exact hc.aborted ha
      case inr => cases ha

omit i in
-- The effects of a step that visits a node.
theorem step_of_visitedBy {m : Nat} (hm : TaskStep.visitedBy a = {m}) :
    (s'.countdown g).due = Task.edges m (g.outEdges m) + (s.countdown g).due ∧
    (s'.countdown g).drops = (if isSink g m then {m} else 0) + (s.countdown g).drops := by
  have hd := h.due
  have hp := h.drops c.valid
  cases a
  case start =>
    obtain rfl := Multiset.singleton_inj.mp hm
    exact ⟨(zero_add _).symm.trans hd, (zero_add _).symm.trans hp⟩
  case skip =>
    obtain rfl := Multiset.singleton_inj.mp hm
    exact ⟨(zero_add _).symm.trans hd, (zero_add _).symm.trans hp⟩
  all_goals exact absurd hm.symm (Multiset.singleton_ne_zero _)

theorem step_of_decrement {m j : Nat} {v : View} (ha : a = .decrement m j v) :
    v ⊆ (s'.shared.node j).view ∧ (∀ k, g.Edge k m j → v.Knows s' k m) ∧ (m ∈ (s'.countdown g).drops ∨ v.Done s' m) := by
  subst ha
  have e := h.extend c
  cases h
  case task sh t ts rest history h =>
    have hm : t ∈ t ::ₘ rest := Multiset.mem_cons_self _ _
    obtain ⟨-, hk, hd⟩ := h.knows_of_decrement w (c.valid t hm) (i.task t hm).2
    refine ⟨?release, fun k he => (hk k he).extend e, hd.imp ?completed (·.extend e)⟩
    case release => simp [ExecuteState.apply, Atomic.fetchSub, Atomic.fetchAdd, MemoryOrder.releases]
    case completed =>
      intro hd
      simp only [State.countdown, Multiset.map_add, Multiset.sum_add]
      exact Multiset.mem_add.mpr (.inl hd)

theorem step_edge (k : Kind) (m j : Nat) (he : g.Edge k m j) (hm : m ∈ s'.shared.visited g) :
    (m, j) ∈ (s'.countdown g).due ∨ (s'.shared.node j).view.Knows s' k m := by
  have e := h.extend c
  by_cases hv : m ∈ s.shared.visited g
  case pos =>
    obtain hd | hk := i.edge k m j he hv
    case inl =>
      have hd : (m, j) ∈ TaskStep.processedBy a + (s'.countdown g).due :=
        h.due ▸ Multiset.mem_add.mpr (.inr hd)
      rcases Multiset.mem_add.mp hd with hd | hd
      case inr => exact .inl hd
      case inl =>
        cases a
        case decrement m' j' v =>
          obtain ⟨rfl, rfl⟩ := Prod.mk.inj (Multiset.mem_singleton.mp hd)
          obtain ⟨hs, hk, -⟩ := i.step_of_decrement c h rfl
          exact .inr ((hk k he).mono hs)
        all_goals exact absurd hd (Multiset.notMem_zero _)
    case inr => exact .inr ((hk.extend e).mono (view_subset h j))
  case neg =>
    obtain ⟨-, hs⟩ | ⟨m', hm', hs⟩ := h.visited_eq c
    case inl => exact absurd (hs ▸ hm) hv
    case inr =>
      obtain rfl : m = m' := by
        rw [hs, Finset.mem_insert] at hm
        exact hm.resolve_right hv
      left
      rw [(step_of_visitedBy c h hm').1]
      exact Multiset.mem_add.mpr (.inl (Multiset.mem_coe.mpr (List.mem_map.mpr ⟨_, he, rfl⟩)))

theorem step_delivered (m : Nat) (hm : m ∈ s'.shared.visited g) :
    m ∈ (s'.countdown g).drops ∨ (∃ j, (m, j) ∈ (s'.countdown g).due) ∨
      s'.shared.pendingNodes.view.Done s' m ∨ ∃ k j, g.Edge k m j ∧ (s'.shared.node j).view.Done s' m := by
  have e := h.extend c
  by_cases hv : m ∈ s.shared.visited g
  case pos =>
    obtain hd | ⟨j, hd⟩ | hd | ⟨k, j, he, hd⟩ := i.delivered m hv
    case inl =>
      have hd : m ∈ TaskStep.droppedBy a + (s'.countdown g).drops :=
        h.drops c.valid ▸ Multiset.mem_add.mpr (.inr hd)
      rcases Multiset.mem_add.mp hd with hd | hd
      case inr => exact .inl hd
      case inl =>
        cases a
        case drop m' v =>
          obtain rfl := Multiset.mem_singleton.mp hd
          cases h
          case task sh t ts rest history h =>
            have hd := (h.done_of_drop (i.task t (Multiset.mem_cons_self _ _)).2).2
            exact .inr (.inr (.inl ((hd.extend e).mono Set.subset_union_right)))
        all_goals exact absurd hd (Multiset.notMem_zero _)
    case inr.inl =>
      obtain ⟨k, he⟩ := mem_successors.mp (c.countdown.due _ hd).2
      have hd : (m, j) ∈ TaskStep.processedBy a + (s'.countdown g).due :=
        h.due ▸ Multiset.mem_add.mpr (.inr hd)
      rcases Multiset.mem_add.mp hd with hd | hd
      case inr => exact .inr (.inl ⟨j, hd⟩)
      case inl =>
        cases a
        case decrement m' j' v =>
          obtain ⟨rfl, rfl⟩ := Prod.mk.inj (Multiset.mem_singleton.mp hd)
          obtain ⟨hs, -, hd⟩ := i.step_of_decrement c h rfl
          exact hd.imp_right fun hd => .inr (.inr ⟨k, j, he, hd.mono hs⟩)
        all_goals exact absurd hd (Multiset.notMem_zero _)
    case inr.inr.inl => exact .inr (.inr (.inl ((hd.extend e).mono (pending_subset h))))
    case inr.inr.inr => exact .inr (.inr (.inr ⟨k, j, he, (hd.extend e).mono (view_subset h j)⟩))
  case neg =>
    obtain ⟨-, hs⟩ | ⟨m', hm', hs⟩ := h.visited_eq c
    case inl => exact absurd (hs ▸ hm) hv
    case inr =>
      obtain rfl : m = m' := by
        rw [hs, Finset.mem_insert] at hm
        exact hm.resolve_right hv
      obtain ⟨hd, hp⟩ := step_of_visitedBy c h hm'
      by_cases hsink : isSink g m
      case pos =>
        left
        rw [hp, if_pos hsink]
        exact Multiset.mem_add.mpr (.inl (Multiset.mem_singleton_self m))
      case neg =>
        rw [isSink, List.isEmpty_iff] at hsink
        obtain ⟨edge, hedge⟩ := List.exists_mem_of_ne_nil _ hsink
        refine .inr (.inl ⟨edge.id, hd ▸ Multiset.mem_add.mpr (.inl ?_)⟩)
        exact Multiset.mem_coe.mpr (List.mem_map.mpr ⟨edge, hedge, rfl⟩)

theorem step : ViewInv g s' where
  node      := i.step_node c h
  pending   := i.step_pending c h
  running   := i.step_running c h
  finished  := i.step_finished c h
  task      := i.step_task c h
  visit     := i.step_visit c h
  edge      := i.step_edge c h
  delivered := i.step_delivered c h

end ViewInv

theorem ViewInv.init {type : ReadyQueueType} : ViewInv g (State.init ε g type) where
  node _          := .empty
  pending         := .empty
  running _ _ h   := by cases h
  finished _ _ _ h := by cases h
  task t h        := by
    obtain rfl := Multiset.mem_singleton.mp h
    exact ⟨.empty, trivial⟩
  visit _ _ h     := by simp [State.init] at h
  edge _ i _ _ h  := by simp [State.init, ExecuteState.visited, ExecuteState.create, ThunkState.isIdle] at h
  delivered i h   := by simp [State.init, ExecuteState.visited, ExecuteState.create, ThunkState.isIdle] at h

structure Inv (w : g.WellFormed) (s : State ε) : Prop where
  countdown : CountdownInv w s
  view      : ViewInv g s

theorem invariant {type : ReadyQueueType} (w : g.WellFormed) (hn : 0 < g.nodesDefs.length) :
    (system ε g params type).Invariant (Inv w) where
  init h   := ⟨(countdown_invariant w hn).init h, h ▸ ViewInv.init⟩
  step i h := ⟨(countdown_invariant w hn).step i.countdown h, i.view.step i.countdown h⟩

end Runtime.ThunkExecutor
