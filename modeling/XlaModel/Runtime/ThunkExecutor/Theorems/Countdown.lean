import XlaModel.Runtime.ExecutionGraph.Theorems.WellFormed
import XlaModel.Runtime.ThunkExecutor.Execute
import XlaModel.Runtime.ThunkExecutor.Theorems.ReadyQueue

namespace Runtime.ThunkExecutor

open ExecutionGraph

variable {ε : Type} {g : ExecutionGraph} {params : ExecuteParams}

namespace ReadyQueue

variable {q : ReadyQueue}

theorem isEmpty_iff : q.isEmpty ↔ q.content = 0 := by
  rw [← Multiset.card_eq_zero, card_content]
  cases q
  case fifo q =>
    have := q.head_le
    simp only [isEmpty, FifoReadyQueue.isEmpty, size, FifoReadyQueue.size, decide_eq_true_eq]
    omega
  case lifo     => simp [isEmpty, LifoReadyQueue.isEmpty, size, LifoReadyQueue.size]
  case priority => simp [isEmpty, PriorityReadyQueue.isEmpty, size, PriorityReadyQueue.size, Heap.PriorityQueue.isEmpty]

@[simp] theorem content_createEmptyReadyQueue : q.createEmptyReadyQueue.content = 0 := by
  cases q
  case fifo     => rfl
  case lifo     => rfl
  case priority => exact Heap.PriorityQueue.content_ofList []

theorem content_create {type : ReadyQueueType} {ids : List Nat} : (create g ids type).content = ids := by
  cases type
  case fifo     => rfl
  case lifo     => rfl
  case priority => exact Heap.PriorityQueue.content_ofList ids

theorem content_popHalf {popped kept : ReadyQueue} (h : q.popHalf = some (popped, kept)) :
    popped.content + kept.content = q.content := by
  by_cases hs : 0 < q.size
  case pos =>
    obtain ⟨popped', kept', hp, hc, -⟩ := popHalf_spec hs
    obtain ⟨rfl, rfl⟩ := Prod.mk.inj (Option.some.inj (hp.symm.trans h))
    exact hc
  case neg =>
    have he : q.isEmpty := by rw [isEmpty_iff, ← Multiset.card_eq_zero, card_content]; omega
    cases q <;> simp_all [isEmpty, popHalf, FifoReadyQueue.popHalf, LifoReadyQueue.popHalf, PriorityReadyQueue.popHalf]

end ReadyQueue

-- What a task is going to do to the counters.
namespace Task

def edges (i : Nat) (es : List NodeEdge) : Multiset (Nat × Nat) :=
  es.map fun e => (i, e.id)

def executionEdges (es : List NodeEdge) : List NodeEdge :=
  es.filter (·.kind = .execution)

def schedulingEdges (es : List NodeEdge) : List NodeEdge :=
  es.filter (·.kind = .scheduling)

@[simp] theorem edges_nil (i : Nat) : edges i [] = 0 :=
  rfl

@[simp] theorem edges_cons (i : Nat) (e : NodeEdge) (es : List NodeEdge) : edges i (e :: es) = {(i, e.id)} + edges i es := by
  rw [Multiset.singleton_add]
  rfl

@[simp] theorem executionEdges_nil : executionEdges [] = [] :=
  rfl

@[simp] theorem executionEdges_cons (e : NodeEdge) (es : List NodeEdge) :
    executionEdges (e :: es) = if e.kind = .execution then e :: executionEdges es else executionEdges es := by
  simp [executionEdges, List.filter_cons]

@[simp] theorem schedulingEdges_nil : schedulingEdges [] = [] :=
  rfl

@[simp] theorem schedulingEdges_cons (e : NodeEdge) (es : List NodeEdge) :
    schedulingEdges (e :: es) = if e.kind = .scheduling then e :: schedulingEdges es else schedulingEdges es := by
  simp [schedulingEdges, List.filter_cons]

variable (g : ExecutionGraph) (t : Task ε)

-- The nodes that the task is going to visit.
def ready : Multiset Nat :=
  t.readyQueue.content + match t.stage with
    | .splitReadyQueue i | .runThunk i => {i}
    | _                                => 0

-- The edges that the task is going to process.
def due : Multiset (Nat × Nat) :=
  match t.stage with
  | .checkEvent i                       => edges i (g.outEdges i)
  | .processScheduledOutEdges i es _    => edges i (schedulingEdges es) + edges i (executionEdges (g.outEdges i))
  | .continuation i _                   => edges i (executionEdges (g.outEdges i))
  | .processCompletedOutEdges i _ all _ => edges i (if all then g.outEdges i else executionEdges (g.outEdges i))
  | .processOutEdges i es all _         => edges i (if all then es else executionEdges es)
  | _                                   => 0

-- The node for which the task is going to drop the number of pending nodes.
def drops : Multiset Nat :=
  match t.stage with
  | .checkEvent i                     => if isSink g i then {i} else 0
  | .processScheduledOutEdges i _ inc => if isSink g i || inc then {i} else 0
  | .continuation i drop              => if drop then {i} else 0
  | .processCompletedOutEdges i _ _ d => if d then {i} else 0
  | .processOutEdges i _ _ d          => if d then {i} else 0
  | _                                 => 0

def finishes : Nat :=
  match t.stage with
  | .complete => 1
  | _         => 0

-- Only scheduling edges are processed before the event of the thunk is available. The number of pending nodes is
-- incremented before the first one.
def Valid : Prop :=
  match t.stage with
  | .processScheduledOutEdges i es inc =>
    (∀ e ∈ es, e ∈ g.outEdges i) ∧ (inc = false → ∀ e ∈ g.outEdges i, e.kind = .scheduling → e ∈ es)
  | .continuation i drop               => drop = false → g.outEdges i ≠ [] ∧ ∀ e ∈ g.outEdges i, e.kind = .execution
  | _                                  => True

theorem edges_kinds (i : Nat) (es : List NodeEdge) :
    edges i (schedulingEdges es) + edges i (executionEdges es) = edges i es := by
  have h : executionEdges es = es.filter fun e => !decide (e.kind = .scheduling) := by
    refine List.filter_congr fun e _ => ?_
    cases e.kind <;> rfl
  rw [h, edges, edges, edges, Multiset.coe_add, ← List.map_append]
  exact Multiset.coe_eq_coe.mpr <| (List.filter_append_perm _ _).map _

end Task

theorem isSink_iff : isSink g i ↔ g.successors i = 0 := by
  simp [isSink, successors]

namespace TaskStep

variable {s : ExecuteState ε} {t : Task ε} {a : Action ε} {ts : Multiset (Task ε)}

theorem valid (h : TaskStep g params s t a ts) (hv : t.Valid g) : ∀ t' ∈ ts, t'.Valid g := by
  cases h
  case unavailable => simp +contextual [Task.Valid]
  case pop =>
    simp only [Multiset.mem_singleton, forall_eq, popStage]
    split <;> trivial
  case drop =>
    simp only [Multiset.mem_singleton, forall_eq]
    split <;> trivial
  case passExecutionEdge e es inc i q v hk =>
    obtain ⟨hs, hi⟩ := hv
    simp only [Multiset.mem_singleton, forall_eq, Task.Valid]
    refine ⟨fun e he => hs e (.tail _ he), fun hf e' he hk' => ?_⟩
    cases hi hf e' he hk'
    case head    => rw [hk] at hk'; cases hk'
    case tail he => exact he
  case increment => simpa [Task.Valid] using hv.1
  case schedule =>
    simp only [Multiset.mem_singleton, forall_eq, Task.Valid]
    exact ⟨fun e he => hv.1 e (.tail _ he), by simp⟩
  case attach inc i q v =>
    obtain ⟨-, hi⟩ := hv
    simp only [Multiset.insert_eq_cons, Multiset.mem_cons, Multiset.mem_singleton, forall_eq_or_imp, forall_eq]
    refine ⟨trivial, fun hd => ?_⟩
    simp only [Bool.or_eq_false_iff, isSink, List.isEmpty_eq_false_iff] at hd
    refine ⟨hd.1, fun e he => ?_⟩
    cases hk : e.kind
    case execution  => rfl
    case scheduling => cases hi hd.2 e he hk
  all_goals simp [Task.Valid]

theorem content_push {i : Nat} {q : ReadyQueue} :
    (s.push i q).content = (if (s.node i).value = 1 then {i} else 0) + q.content := by
  rw [ExecuteState.push]
  split
  case isTrue  => rw [ReadyQueue.content_push, Multiset.singleton_add]
  case isFalse => rw [zero_add]

-- What an action adds to the tasks, and what it takes away from them.
def readyOf (s : ExecuteState ε) : Action ε → Multiset Nat
  | .decrement _ j _ => if (s.node j).value = 1 then {j} else 0
  | _                => 0

def visitedBy : Action ε → Multiset Nat
  | .start i _ | .skip i _ => {i}
  | _                      => 0

theorem ready (h : TaskStep g params s t a ts) :
    visitedBy a + (ts.map Task.ready).sum = readyOf s a + t.ready := by
  cases h
  case finish h => simp [Task.ready, visitedBy, readyOf, ReadyQueue.isEmpty_iff.mp h]
  case pop i q' q v h =>
    have hc := ReadyQueue.content_pop h
    by_cases hs : params.splitThreshold < q'.size ∧ params.hasRunner <;>
      simp [Task.ready, visitedBy, readyOf, popStage, hs, hc, ← Multiset.singleton_add, add_comm]
  case split hp =>
    have := ReadyQueue.content_popHalf hp
    simp [Task.ready, visitedBy, readyOf, ← this]
    abel
  case offload =>
    simp [Task.ready, visitedBy, readyOf, ReadyQueue.content_push]
  case drop =>
    by_cases hp : s.pendingNodes.value = 1 <;> simp [Task.ready, visitedBy, readyOf, hp]
  case run =>
    simp [Task.ready, visitedBy, readyOf, add_comm]
  case skip =>
    simp [Task.ready, visitedBy, readyOf, add_comm]
  all_goals simp [Task.ready, visitedBy, readyOf, content_push]

def processedBy : Action ε → Multiset (Nat × Nat)
  | .decrement i j _ => {(i, j)}
  | _                => 0

def dueOf (g : ExecutionGraph) : Action ε → Multiset (Nat × Nat)
  | .start i _ | .skip i _ => Task.edges i (g.outEdges i)
  | _                      => 0

theorem due (h : TaskStep g params s t a ts) :
    processedBy a + (ts.map (Task.due g)).sum = dueOf g a + t.due g := by
  cases h
  case pop i q' q v h =>
    by_cases hs : params.splitThreshold < q'.size ∧ params.hasRunner <;> simp [Task.due, processedBy, dueOf, popStage, hs]
  case drop =>
    by_cases hp : s.pendingNodes.value = 1 <;> simp [Task.due, processedBy, dueOf, hp]
  case unavailable          => simp [Task.due, processedBy, dueOf, Task.edges_kinds]
  case passExecutionEdge h  => simp [Task.due, processedBy, dueOf, h]
  case schedule h           => simp [Task.due, processedBy, dueOf, h]
  case passSchedulingEdge h => simp [Task.due, processedBy, dueOf, h]
  case process all i e es d q v h =>
    obtain rfl | hk := h
    case inl => simp [Task.due, processedBy, dueOf]
    case inr =>
      have hk : e.kind = .execution := by
        cases he : e.kind
        case execution  => rfl
        case scheduling => exact absurd he hk
      cases all <;> simp [Task.due, processedBy, dueOf, hk]
  all_goals simp [Task.due, processedBy, dueOf]

def droppedBy : Action ε → Multiset Nat
  | .drop i _ => {i}
  | _         => 0

def dropsOf (g : ExecutionGraph) : Action ε → Multiset Nat
  | .start i _ | .skip i _ => if isSink g i then {i} else 0
  | .increment i           => {i}
  | _                      => 0

theorem drops (h : TaskStep g params s t a ts) (hv : t.Valid g) :
    droppedBy a + (ts.map (Task.drops g)).sum = dropsOf g a + t.drops g := by
  cases h
  case pop i q' q v h =>
    by_cases hs : params.splitThreshold < q'.size ∧ params.hasRunner <;>
      simp [Task.drops, droppedBy, dropsOf, popStage, hs]
  case drop =>
    by_cases hp : s.pendingNodes.value = 1 <;> simp [Task.drops, droppedBy, dropsOf, hp]
  case increment i e es q v h =>
    have hs : isSink g i = false := by
      rw [isSink, List.isEmpty_eq_false_iff]
      exact List.ne_nil_of_mem (hv.1 e (.head _))
    simp [Task.drops, droppedBy, dropsOf, hs]
  all_goals simp [Task.drops, droppedBy, dropsOf]

def finishesOf (s : ExecuteState ε) : Action ε → Nat
  | .drop _ _ => if s.pendingNodes.value = 1 then 1 else 0
  | _         => 0

def finishedBy : Action ε → Nat
  | .resolve _ _ => 1
  | _            => 0

theorem finishes (h : TaskStep g params s t a ts) :
    finishedBy a + (ts.map Task.finishes).sum = finishesOf s a + t.finishes := by
  cases h
  case pop i q' q v h =>
    by_cases hs : params.splitThreshold < q'.size ∧ params.hasRunner <;>
      simp [Task.finishes, finishedBy, finishesOf, popStage, hs]
  case drop =>
    by_cases hp : s.pendingNodes.value = 1 <;> simp [Task.finishes, finishedBy, finishesOf, hp]
  all_goals simp [Task.finishes, finishedBy, finishesOf]

end TaskStep

def ThunkState.isIdle : ThunkState ε → Bool
  | idle => true
  | _    => false

namespace ExecuteState

variable {s : ExecuteState ε}

-- A node is visited as soon as its thunk is not idle.
def visited (g : ExecutionGraph) (s : ExecuteState ε) : Finset Nat :=
  (Finset.range g.nodesDefs.length).filter fun i => ¬(s.thunk i).isIdle

theorem visited_setThunk {i : Nat} {thunk : ThunkState ε} (hi : i < g.nodesDefs.length) (ht : ¬thunk.isIdle) :
    (s.setThunk i thunk).visited g = insert i (s.visited g) := by
  ext j
  simp only [visited, setThunk, Finset.mem_insert, Finset.mem_filter, Finset.mem_range, Function.update_apply]
  by_cases hj : j = i
  case pos => simp [hj, hi, ht]
  case neg => simp [hj]

theorem visited_completeThunk {i : Nat} {status : Option ε} : (s.completeThunk i status).visited g = s.visited g := by
  rw [completeThunk]
  split
  case h_2 => rfl
  case h_1 v h =>
    ext j
    simp only [visited, setThunk, Finset.mem_filter, Function.update_apply]
    by_cases hj : j = i
    case pos => simp [hj, h, ThunkState.isIdle]
    case neg => simp [hj]

end ExecuteState

namespace State

def countdown (g : ExecutionGraph) (s : State ε) : Countdown.State Nat where
  counter j := (s.shared.node j).value
  visited   := s.shared.visited g
  ready     := (s.tasks.map Task.ready).sum
  due       := (s.tasks.map (Task.due g)).sum
  pending   := s.shared.pendingNodes.value
  drops     := (s.tasks.map (Task.drops g)).sum
  finished  := (s.tasks.map Task.finishes).sum + if s.shared.executeEvent.isSome then 1 else 0

end State

theorem Task.sum_step {M : Type} [AddCommMonoid M] {f : Task ε → M} {x y : M} {t : Task ε} {ts : Multiset (Task ε)}
    (rest : Multiset (Task ε)) (h : x + (ts.map f).sum = y + f t) : x + ((ts + rest).map f).sum = y + ((t ::ₘ rest).map f).sum := by
  rw [Multiset.map_add, Multiset.sum_add, ← add_assoc, h, add_assoc, Multiset.map_cons, Multiset.sum_cons]

-- The node of a thunk is visited, whether the thunk is executed or not.
theorem State.visit_countdown {s s' : State ε} {i : Nat} (w : g.WellFormed) (hi : Countdown.Inv w.dag (s.countdown g))
    (thunk : ThunkState ε) (ht : ¬thunk.isIdle) (hs : s'.shared = s.shared.setThunk i thunk)
    (hready : i ::ₘ (s'.countdown g).ready = (s.countdown g).ready)
    (hdue : (s'.countdown g).due = Task.edges i (g.outEdges i) + (s.countdown g).due)
    (hdrops : (s'.countdown g).drops = (if isSink g i then {i} else 0) + (s.countdown g).drops)
    (hfinished : (s'.countdown g).finished = (s.countdown g).finished) :
    Countdown.Step w.dag (s.countdown g) (s'.countdown g) := by
  have hn : i < g.nodesDefs.length :=
    Finset.mem_range.mp (hi.of_mem_ready (hready ▸ Multiset.mem_cons_self _ _)).1
  convert Countdown.Step.visit (G := w.dag) { s.countdown g with ready := (s'.countdown g).ready } i using 1
  case e'_4 => exact Countdown.State.ext rfl rfl hready.symm rfl rfl rfl rfl
  case e'_5 =>
    refine Countdown.State.ext ?_ ?_ rfl ?_ ?_ ?_ hfinished
    · simp [State.countdown, hs, ExecuteState.setThunk]
    · exact (congrArg (·.visited g) hs).trans <| ExecuteState.visited_setThunk hn ht
    · have he : Task.edges i (g.outEdges i) = (w.dag.succ i).map (i, ·) := by
        simp [Task.edges, WellFormed.dag, successors, Function.comp_def]
      rw [hdue, he]
    · simp [State.countdown, hs, ExecuteState.setThunk]
    · rw [hdrops, if_congr isSink_iff rfl rfl]
      rfl

-- The counters of the executor implement the countdown of the execution graph.
theorem Step.countdown {s s' : State ε} {a : Action ε} (w : g.WellFormed) (hi : Countdown.Inv w.dag (s.countdown g))
    (hv : ∀ t ∈ s.tasks, t.Valid g) (hs : Step g params s a s') :
    s'.countdown g = s.countdown g ∨ Countdown.Step w.dag (s.countdown g) (s'.countdown g) := by
  cases hs
  case complete i sh v tasks history h status =>
    refine .inl <| Countdown.State.ext ?_ ?_ rfl rfl ?_ rfl ?_
    · simp [State.countdown, ExecuteState.apply, ExecuteState.completeThunk, h, ExecuteState.setThunk]
    · exact ExecuteState.visited_completeThunk
    · simp [State.countdown, ExecuteState.apply, ExecuteState.completeThunk, h, ExecuteState.setThunk]
    · simp [State.countdown, ExecuteState.apply, ExecuteState.completeThunk, h, ExecuteState.setThunk]
  case task sh t ts rest history h =>
    have hready := Task.sum_step rest h.ready
    have hdue := Task.sum_step rest h.due
    have hdrops := Task.sum_step rest <| h.drops (hv t (Multiset.mem_cons_self _ _))
    have hfinishes := Task.sum_step rest h.finishes
    cases a
    all_goals simp only [TaskStep.visitedBy, TaskStep.readyOf, TaskStep.processedBy, TaskStep.dueOf, TaskStep.droppedBy,
      TaskStep.dropsOf, TaskStep.finishedBy, TaskStep.finishesOf, zero_add, Multiset.singleton_add]
      at hready hdue hdrops hfinishes
    case complete => cases h
    case start i v =>
      refine .inr <| State.visit_countdown w hi (.running v) ?_ rfl hready hdue hdrops (congrArg (· + _) hfinishes)
      simp [ThunkState.isIdle]
    case skip i v =>
      refine .inr <| State.visit_countdown w hi .skipped ?_ rfl hready hdue hdrops (congrArg (· + _) hfinishes)
      simp [ThunkState.isIdle]
    case internal => exact .inl <| Countdown.State.ext rfl rfl hready hdue rfl hdrops (congrArg (· + _) hfinishes)
    case abort    => exact .inl <| Countdown.State.ext rfl rfl hready hdue rfl hdrops (congrArg (· + _) hfinishes)
    case increment i =>
      obtain ⟨j, hj⟩ : ∃ j, (i, j) ∈ ((t ::ₘ rest).map (Task.due g)).sum := by
        cases h
        case increment e es q v hk => exact ⟨_, by simp [Task.due, hk]; exact .inl rfl⟩
      right
      convert Countdown.Step.increment (G := w.dag) ((⟨sh, t ::ₘ rest, history⟩ : State ε).countdown g) i hj using 1
      exact Countdown.State.ext rfl rfl hready hdue rfl hdrops (congrArg (· + _) hfinishes)
    case decrement i j v =>
      right
      convert Countdown.Step.decrement (G := w.dag) { (⟨sh, t ::ₘ rest, history⟩ : State ε).countdown g with
        due := ((ts + rest).map (Task.due g)).sum } i j using 1
      case e'_4 => exact Countdown.State.ext rfl rfl rfl hdue.symm rfl rfl rfl
      case e'_5 =>
        refine Countdown.State.ext ?_ rfl hready rfl rfl hdrops (congrArg (· + _) hfinishes)
        funext k
        by_cases hk : k = j
        case pos => simp [State.countdown, ExecuteState.apply, Atomic.fetchSub, Atomic.fetchAdd, hk, Int.sub_eq_add_neg]
        case neg => simp [State.countdown, ExecuteState.apply, hk]
    case drop i v =>
      right
      convert Countdown.Step.drop (G := w.dag) { (⟨sh, t ::ₘ rest, history⟩ : State ε).countdown g with
        drops := ((ts + rest).map (Task.drops g)).sum } i using 1
      case e'_4 => exact Countdown.State.ext rfl rfl rfl rfl rfl hdrops.symm rfl
      case e'_5 =>
        refine Countdown.State.ext rfl rfl hready hdue rfl rfl ?_
        change ((ts + rest).map Task.finishes).sum + (if sh.executeEvent.isSome then 1 else 0) =
          ((t ::ₘ rest).map Task.finishes).sum + (if sh.executeEvent.isSome then 1 else 0) +
            (if sh.pendingNodes.value = 1 then 1 else 0)
        rw [hfinishes]
        ring
    case resolve status v =>
      -- The event has not been resolved, as there is a task that is going to do it.
      have hn : sh.executeEvent = none := by
        have hf := hi.finished
        have ht : 1 + ((ts + rest).map Task.finishes).sum + (if sh.executeEvent.isSome then 1 else 0) ≤ 1 := by
          rw [hfinishes]
          refine hf.trans_le ?_
          split <;> simp
        cases he : sh.executeEvent
        case none   => rfl
        case some r => simp [he] at ht
      refine .inl <| Countdown.State.ext rfl rfl hready hdue rfl hdrops ?_
      simp only [State.countdown, ← hfinishes, ExecuteState.apply, hn]
      exact Nat.add_comm _ _

theorem State.init_countdown {type : ReadyQueueType} (w : g.WellFormed) :
    Countdown.Init w.dag ((State.init ε g type).countdown g) where
  counter j := congrArg Nat.cast (w.length_inEdges j)
  visited   := by simp [State.countdown, State.init, ExecuteState.create, ExecuteState.visited, ThunkState.isIdle]
  ready j   := by
    have hr : ((State.init ε g type).countdown g).ready = g.source := by
      simp [State.countdown, State.init, Task.ready, ReadyQueue.content_create]
    have hc : ((State.init ε g type).countdown g).counter j = 0 ↔ (w.dag.targets ∅).count j = 0 := by
      simp [State.countdown, State.init, ExecuteState.create, w.length_inEdges]
    rw [hr, w.count_source, if_congr (and_congr_right' hc) rfl rfl]
  due       := by simp [State.countdown, State.init, Task.due]
  pending   := congrArg Nat.cast w.length_sink
  drops     := by simp [State.countdown, State.init, Task.drops]
  finished  := by simp [State.countdown, State.init, Task.finishes, ExecuteState.create]

structure CountdownInv (w : g.WellFormed) (s : State ε) : Prop where
  countdown : Countdown.Inv w.dag (s.countdown g)
  valid     : ∀ t ∈ s.tasks, t.Valid g

theorem countdown_invariant {type : ReadyQueueType} (w : g.WellFormed) (hn : 0 < g.nodesDefs.length) :
    (system ε g params type).Invariant (CountdownInv w) where
  init h := by
    obtain rfl := h
    have hn : w.dag.nodes.Nonempty := Finset.nonempty_range_iff.mpr hn.ne'
    exact ⟨.of_init (State.init_countdown w) hn, by simp [State.init, Task.Valid]⟩
  step i h := by
    constructor
    case countdown =>
      obtain he | hs := Step.countdown w i.countdown i.valid h
      case inl => exact he ▸ i.countdown
      case inr => exact i.countdown.step hs
    case valid =>
      cases h
      case complete => exact i.valid
      case task h =>
        intro t ht
        rcases Multiset.mem_add.mp ht with ht | ht
        case inl => exact h.valid (i.valid _ (Multiset.mem_cons_self _ _)) t ht
        case inr => exact i.valid t (Multiset.mem_cons_of_mem ht)

end Runtime.ThunkExecutor
