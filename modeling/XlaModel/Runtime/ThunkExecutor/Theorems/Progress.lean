import XlaModel.Runtime.ThunkExecutor.Theorems.Execute

namespace Runtime.ThunkExecutor

open ExecutionGraph

variable {ε : Type} {g : ExecutionGraph} {params : ExecuteParams} {s s' : State ε} {a : Action ε}

namespace ReadyQueue

variable {q : ReadyQueue}

theorem size_pos (h : ¬q.isEmpty) : 0 < q.size := by
  rw [← card_content, Multiset.card_pos]
  exact fun he => h (isEmpty_iff.mpr he)

theorem size_popHalf {popped kept : ReadyQueue} (h : q.popHalf = some (popped, kept)) (hq : 0 < q.size) :
    0 < popped.size ∧ popped.size + kept.size = q.size := by
  obtain ⟨popped', kept', hp, hc, hk⟩ := popHalf_spec hq
  obtain ⟨rfl, rfl⟩ := Prod.mk.inj (Option.some.inj (hp.symm.trans h))
  refine ⟨popHalf_size hc hk hq, ?_⟩
  rw [← card_content, ← card_content, ← Multiset.card_add, hc, card_content]

theorem exists_pop (h : ¬q.isEmpty) : ∃ i q', q.pop = some (i, q') := by
  have hs := size_pos h
  cases q
  case fifo q =>
    have hlt : q.head < q.queue.length := Nat.lt_of_sub_pos hs
    exact ⟨_, _, by rw [pop, FifoReadyQueue.pop, dif_pos hlt]; rfl⟩
  case lifo q =>
    have hn : q.queue ≠ [] := List.ne_nil_of_length_pos hs
    exact ⟨_, _, by rw [pop, LifoReadyQueue.pop, List.getLast?_eq_some_getLast hn]; rfl⟩
  case priority q =>
    obtain ⟨i, hi⟩ := PriorityReadyQueue.exists_top hs
    exact ⟨_, _, by rw [pop, PriorityReadyQueue.pop, hi]; rfl⟩

end ReadyQueue

-- The thunk of a task is executed, not skipped, while the task waits for its event.
def Task.Started (s : ExecuteState ε) (t : Task ε) : Prop :=
  match t.stage with
  | .checkEvent i | .processScheduledOutEdges i _ _ | .continuation i _ => s.thunk i ≠ .idle ∧ s.thunk i ≠ .skipped
  | _                                                                   => True

theorem Step.started {w : g.WellFormed} {t : Task ε} (c : CountdownInv w s) (h : Step g params s a s')
    (ht : t.Started s.shared) : t.Started s'.shared := by
  obtain ⟨stage, q, v⟩ := t
  have hs {i : Nat} (hi : s.shared.thunk i ≠ .idle ∧ s.shared.thunk i ≠ .skipped) :
      s'.shared.thunk i ≠ .idle ∧ s'.shared.thunk i ≠ .skipped := by
    rw [h.shared_eq]
    refine ExecuteState.started_apply hi ?_
    rintro v rfl
    exact hi.1 (h.idle_of_visit c rfl).2
  cases stage
  case checkEvent               => exact hs ht
  case processScheduledOutEdges => exact hs ht
  case continuation             => exact hs ht
  all_goals trivial

theorem TaskStep.started {sh : ExecuteState ε} {t : Task ε} {ts : Multiset (Task ε)} (h : TaskStep g params sh t a ts)
    (ht : t.Started sh) : ∀ t' ∈ ts, t'.Started (sh.apply a) := by
  cases h
  case pop =>
    simp only [Multiset.mem_singleton, forall_eq, Task.Started, popStage]
    split_ifs <;> trivial
  case drop =>
    simp only [Multiset.mem_singleton, forall_eq, Task.Started]
    split_ifs <;> trivial
  case run => simp [Task.Started, ExecuteState.apply, ExecuteState.setThunk]
  all_goals first | simp [Task.Started]; done | simpa [Task.Started, ExecuteState.apply] using ht

theorem started_invariant {type : ReadyQueueType} (w : g.WellFormed) (hn : 0 < g.nodesDefs.length) :
    (system ε g params type).Invariant fun s => CountdownInv w s ∧ ∀ t ∈ s.tasks, t.Started s.shared where
  init h := ⟨(countdown_invariant w hn).init h, by obtain rfl := h; simp [State.init, Task.Started]⟩
  step := by
    intro s a s' hi h
    obtain ⟨c, i⟩ := hi
    refine ⟨(countdown_invariant w hn).step c h, ?_⟩
    replace h : Step g params s a s' := h
    have hs := fun t ht => h.started (t := t) c (i t ht)
    cases h
    case complete => exact hs
    case task h =>
      intro t ht
      rcases Multiset.mem_add.mp ht with ht | ht
      case inl => exact h.started (i _ (Multiset.mem_cons_self _ _)) t ht
      case inr => exact hs t (Multiset.mem_cons_of_mem ht)

-- A task can make a step unless it waits for the event of a thunk.
theorem TaskStep.exists_step (g : ExecutionGraph) (params : ExecuteParams) {sh : ExecuteState ε} {t : Task ε} (ha : .aborted ∈ t.view → sh.abort) :
    (∃ i drop, t.stage = .continuation i drop) ∨ ∃ a ts, TaskStep g params sh t a ts := by
  obtain ⟨stage, q, v⟩ := t
  cases stage
  case continuation i drop => exact .inl ⟨i, drop, rfl⟩
  all_goals right
  case execute =>
    by_cases he : q.isEmpty
    case pos => exact ⟨_, _, .finish he⟩
    case neg =>
      obtain ⟨i, q', hp⟩ := q.exists_pop he
      exact ⟨_, _, .pop hp⟩
  case splitReadyQueue => exact ⟨_, _, .stopSplit⟩
  case runThunk i =>
    by_cases hm : mayOffload params i q
    case pos => exact ⟨_, _, .offload hm⟩
    case neg =>
      by_cases hab : .aborted ∈ v
      case pos => exact ⟨_, _, .skip hm (ha hab)⟩
      case neg => exact ⟨_, _, .run hm hab⟩
  case checkEvent => exact ⟨_, _, .unavailable⟩
  case processScheduledOutEdges i es inc =>
    cases es
    case nil => exact ⟨_, _, .attach⟩
    case cons e es =>
      cases hk : e.kind
      case execution => exact ⟨_, _, .passExecutionEdge hk⟩
      case scheduling =>
        cases inc
        case false => exact ⟨_, _, .increment hk⟩
        case true  => exact ⟨_, _, .schedule hk⟩
  case processCompletedOutEdges i status all d =>
    cases status
    case none => exact ⟨_, _, .succeed⟩
    case some => exact ⟨_, _, .fail⟩
  case processOutEdges i es all d =>
    cases es
    case nil =>
      cases d
      case false => exact ⟨_, _, .keep⟩
      case true  => exact ⟨_, _, .drop⟩
    case cons e es =>
      by_cases hk : all = true ∨ e.kind ≠ .scheduling
      case pos => exact ⟨_, _, .process hk⟩
      case neg =>
        simp only [not_or, Bool.not_eq_true, not_not] at hk
        obtain ⟨rfl, hk⟩ := hk
        exact ⟨_, _, .passSchedulingEdge hk⟩
  case complete =>
    by_cases hab : .aborted ∈ v
    case pos => exact ⟨_, _, .resolveError (ha hab)⟩
    case neg => exact ⟨_, _, .resolve hab⟩

-- The executor does not get stuck before it resolves the event.
theorem exists_step {w : g.WellFormed} (i : ExecuteInv w s) (hs : ∀ t ∈ s.tasks, t.Started s.shared)
    (hr : s.shared.executeEvent = none) : ∃ a s', Step g params s a s' := by
  obtain ⟨sh, tasks, history⟩ := s
  by_cases ht : tasks = 0
  case neg =>
    obtain ⟨t, ht⟩ := Multiset.exists_mem_of_ne_zero ht
    obtain ⟨rest, rfl⟩ := Multiset.exists_cons_of_mem ht
    obtain ⟨j, drop, hstage⟩ | ⟨a, ts, h⟩ :=
      TaskStep.exists_step g params (i.view.task t ht).1.aborted
    case inr => exact ⟨_, _, .task h⟩
    case inl =>
      obtain ⟨stage, q, v⟩ := t
      obtain rfl : stage = .continuation j drop := hstage
      have hj := hs _ ht
      cases hth : sh.thunk j
      case idle     => exact absurd hth hj.1
      case skipped  => exact absurd hth hj.2
      case running  => exact ⟨_, _, .complete hth none⟩
      case finished => exact ⟨_, _, .task (.resume hth)⟩
  case pos =>
    -- Without any tasks, all nodes have been visited and no nodes are pending.
    subst ht
    exfalso
    have c := i.countdown.countdown
    have hv : (State.countdown g ⟨sh, 0, history⟩).visited = w.dag.nodes := by
      by_contra hv
      obtain ⟨j, hj⟩ := c.exists_ready rfl hv
      exact Multiset.notMem_zero j hj
    have hp : (State.countdown g ⟨sh, 0, history⟩).pending = 0 := by
      have hsinks : w.dag.sinks \ w.dag.nodes = ∅ := Finset.sdiff_eq_empty_iff_subset.mpr (Finset.filter_subset _ _)
      rw [c.pending, hv, hsinks]
      rfl
    have hf := c.finished
    rw [if_pos hp] at hf
    have hr : sh.executeEvent = none := hr
    simp [State.countdown, hr] at hf

section Measure

namespace Stage

def weight (g : ExecutionGraph) : Stage ε → Nat
  | checkEvent i                       => 7 + 2 * (g.outEdges i).length
  | processScheduledOutEdges i es inc  => 5 + (g.outEdges i).length + es.length + if inc then 0 else 1
  | continuation i _                   => 4 + (g.outEdges i).length
  | processCompletedOutEdges i _ _ _   => 3 + (g.outEdges i).length
  | processOutEdges _ es _ _           => 2 + es.length
  | complete                           => 1
  | _                                  => 0

-- The steps that are left before the next node of the queue is visited.
def queueWeight (q : ReadyQueue) : Stage ε → Nat
  | execute           => if q.size = 0 then 1 else 6 * q.size - 3
  | splitReadyQueue _ => 6 * q.size + 2
  | runThunk _        => 6 * q.size + 1
  | _                 => 0

end Stage

def ThunkState.isRunning : ThunkState ε → Bool
  | running _ => true
  | _         => false

namespace State

def unvisited (g : ExecutionGraph) (s : State ε) : Nat :=
  (Finset.range g.nodesDefs.length \ s.shared.visited g).card

def weight (g : ExecutionGraph) (s : State ε) : Nat :=
  ((Finset.range g.nodesDefs.length).filter fun i => (s.shared.thunk i).isRunning).card + (s.tasks.map (·.stage.weight g)).sum

def queueWeight (s : State ε) : Nat :=
  (s.tasks.map fun t => t.stage.queueWeight t.readyQueue).sum

-- The number of nodes that have not been visited, followed by the work for the other nodes.
def measure (g : ExecutionGraph) (s : State ε) : Nat ×ₗ Nat ×ₗ Nat :=
  toLex (s.unvisited g, toLex (s.weight g, s.queueWeight))

end State

-- A step that does not visit a node either finishes a part of the work for a visited node, or it moves nodes between
-- queues.
theorem TaskStep.weight {sh : ExecuteState ε} {t : Task ε} {ts : Multiset (Task ε)} (h : TaskStep g params sh t a ts)
    (hv : visitedBy a = 0) : (ts.map (·.stage.weight g)).sum < t.stage.weight g ∨
      (ts.map (·.stage.weight g)).sum = t.stage.weight g ∧
        (ts.map fun t => t.stage.queueWeight t.readyQueue).sum < t.stage.queueWeight t.readyQueue := by
  cases h
  case finish q v h =>
    have hq : q.size = 0 := by rw [← ReadyQueue.card_content, ReadyQueue.isEmpty_iff.mp h, Multiset.card_zero]
    simp [Stage.weight, Stage.queueWeight, hq]
  case pop i q' q v h =>
    have hq : q.size = q'.size + 1 := by
      rw [← ReadyQueue.card_content, ReadyQueue.content_pop h, Multiset.card_cons, ReadyQueue.card_content]
    right
    simp only [Multiset.map_singleton, Multiset.sum_singleton, popStage]
    split_ifs <;> simp [Stage.weight, Stage.queueWeight, hq] <;> omega
  case split popped kept i q v hlt hp =>
    obtain ⟨h₀, hs⟩ := ReadyQueue.size_popHalf hp (Nat.zero_lt_of_lt hlt)
    simp [Stage.weight, Stage.queueWeight, h₀.ne']
    omega
  case stopSplit => simp [Stage.weight, Stage.queueWeight]
  case offload i q v h =>
    have hq := ReadyQueue.size_pos h.2.1
    have he : (q.createEmptyReadyQueue.push i).size = 1 := by
      rw [← ReadyQueue.card_content, ReadyQueue.content_push, ReadyQueue.content_createEmptyReadyQueue]
      rfl
    simp [Stage.weight, Stage.queueWeight, he, hq.ne']
    omega
  case run  => exact absurd hv (Multiset.singleton_ne_zero _)
  case skip => exact absurd hv (Multiset.singleton_ne_zero _)
  case available =>
    simp [Stage.weight]
    omega
  case unavailable =>
    simp [Stage.weight]
    omega
  case attach =>
    simp [Stage.weight]
    omega
  case drop =>
    simp only [Multiset.map_singleton, Multiset.sum_singleton]
    split_ifs <;> simp [Stage.weight]
  all_goals simp [Stage.weight]

theorem TaskStep.thunk_eq {sh : ExecuteState ε} {t : Task ε} {ts : Multiset (Task ε)} (h : TaskStep g params sh t a ts)
    (hv : visitedBy a = 0) : (sh.apply a).thunk = sh.thunk := by
  cases a
  case start    => exact absurd hv (Multiset.singleton_ne_zero _)
  case skip     => exact absurd hv (Multiset.singleton_ne_zero _)
  case complete => cases h
  all_goals rfl

-- Every step decreases the measure.
theorem State.measure_lt {w : g.WellFormed} (inv : ExecuteInv w s) (h : Step g params s a s') :
    s'.measure g < s.measure g := by
  have c := inv.countdown
  simp only [State.measure, Prod.Lex.toLex_lt_toLex]
  obtain ⟨hv, he⟩ | ⟨i, hv, he⟩ := h.visited_eq c
  case inl =>
    refine .inr ⟨by rw [unvisited, unvisited, he], ?_⟩
    cases h
    case complete sh tasks history i v hr status =>
      left
      refine Nat.add_lt_add_right (Finset.card_lt_card ?_) _
      have hsub : ∀ j, ((sh.apply (.complete i status)).thunk j).isRunning → j ≠ i ∧ (sh.thunk j).isRunning := by
        intro j
        simp only [ExecuteState.apply, ExecuteState.completeThunk, hr, ExecuteState.setThunk, Function.update_apply]
        by_cases hj : j = i <;> simp [hj, ThunkState.isRunning]
      refine Finset.ssubset_iff_of_subset ?subset |>.mpr ⟨i, ?mem, ?notMem⟩
      case subset => exact Finset.monotone_filter_right _ fun j _ hj => (hsub j hj).2
      case mem =>
        have hi := (inv.view.visit i v (.inl (inv.running i v hr))).1
        exact Finset.mem_filter.mpr ⟨(Finset.mem_filter.mp hi).1, by simp [hr, ThunkState.isRunning]⟩
      case notMem => exact fun hi => (hsub i (Finset.mem_filter.mp hi).2).1 rfl
    case task sh t ts rest history h =>
      simp only [weight, queueWeight, h.thunk_eq hv, Multiset.map_add, Multiset.sum_add, Multiset.map_cons,
        Multiset.sum_cons]
      obtain hlt | ⟨heq, hlt⟩ := h.weight hv
      case inl => omega
      case inr => omega
  case inr =>
    left
    obtain ⟨hn, hi⟩ := h.idle_of_visit c hv
    rw [unvisited, unvisited, he]
    have hsub := Finset.sdiff_subset_sdiff (Finset.Subset.refl (Finset.range g.nodesDefs.length))
      (Finset.subset_insert i (s.shared.visited g))
    refine Finset.card_lt_card <| (Finset.ssubset_iff_of_subset hsub).mpr ⟨i, ?notMem, ?mem⟩
    case notMem =>
      have : i ∉ s.shared.visited g := by simp [ExecuteState.visited, hi, ThunkState.isIdle]
      exact Finset.mem_sdiff.mpr ⟨Finset.mem_range.mpr hn, this⟩
    case mem => simp

end Measure

-- Every run ends, and it does not end before the event is resolved.
theorem execute_terminates {ops : List Operation} {type : ReadyQueueType} (h : create ops = .ok g) (hn : 0 < ops.length) :
    (∀ f : Nat → State ε, f 0 = .init ε g type → ¬∀ n, ∃ a, Step g params (f n) a (f (n + 1))) ∧
    ∀ s : State ε, (system ε g params type).Reachable s →
      (∃ a s', Step g params s a s') ∨ ∃ status v, .resolve status v ∈ s.history := by
  have w := create_wellFormed h
  have hn := create_length h ▸ hn
  constructor
  case left =>
    intro f hf hs
    have hr (n : Nat) : (system ε g params type).Reachable (f n) := by
      induction n
      case zero      => exact .init hf
      case succ n hi => exact .step hi (hs n).choose_spec
    have hlt (n : Nat) : (f (n + 1)).measure g < (f n).measure g := by
      obtain ⟨_, h⟩ := hs n
      exact State.measure_lt ((hr n).invariant (execute_invariant w hn)) h
    exact (RelEmbedding.natGT (fun n => (f n).measure g) hlt).not_wellFounded wellFounded_lt
  case right =>
    intro s hr
    have i := hr.invariant (execute_invariant w hn)
    cases he : s.shared.executeEvent
    case none        => exact .inl <| exists_step i (hr.invariant (started_invariant w hn)).2 he
    case some status => exact .inr ⟨status, i.event status he⟩

theorem execute_terminates_writeRead : ∃ g, create writeRead = .ok g ∧
    (∀ f : Nat → State Unit, f 0 = .init Unit g .lifo → ¬∀ n, ∃ a, Step g inlineParams (f n) a (f (n + 1))) ∧
    ∀ s : State Unit, (system Unit g inlineParams .lifo).Reachable s →
      (∃ a s', Step g inlineParams s a s') ∨ ∃ status v, .resolve status v ∈ s.history := by
  obtain ⟨g, h, -⟩ := create_writeRead
  exact ⟨g, h, execute_terminates h (by decide)⟩

end Runtime.ThunkExecutor
