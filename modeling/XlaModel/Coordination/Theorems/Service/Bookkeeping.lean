import XlaModel.Coordination.Theorems.Service.Barriers

-- The barriers that the service and the tasks list as ongoing.
namespace Coordination.CoordinationService

variable {c : CoordinationService} {e : Env} {A : Allowed} {s s' : State} {x y : Point} {id id' : String} {t task : TaskId} {l l' : List (TaskId × List String)}

-- A barrier is listed while it is initialized and has not passed, and the tasks that list it are its
-- participants.
structure Kept (s : State) (id : String) : Prop where
  named   : (s.barriers id).id = id ∨ (s.barriers id).id = ""
  ongoing : id ∈ s.ongoingBarriers ↔ id ≠ "" ∧ (s.barriers id).id = id ∧ (s.barriers id).passed = false
  tasks   : ∀ t, id ∈ (s.cluster t).ongoingBarriers ↔ id ∈ s.ongoingBarriers ∧ t ∈ (s.barriers id).participants

-- A task that has got an error is leaving the barriers that it lists.
def Errors (c : CoordinationService) (l : List (TaskId × List String)) (s : State) : Prop :=
  ¬c.recoverable → ∀ t, (s.cluster t).state = .error → ∀ id ∈ (s.cluster t).ongoingBarriers, ∃ f ∈ l, f.1 = t ∧ id ∈ f.2

structure Books (c : CoordinationService) (l : List (TaskId × List String)) (s : State) : Prop where
  kept   : ∀ id, Kept s id
  errors : Errors c l s

theorem Kept.congr (h : Kept s id) (hi : (s'.barriers id).id = (s.barriers id).id)
    (hp : (s'.barriers id).passed = (s.barriers id).passed) (ho : id ∈ s'.ongoingBarriers ↔ id ∈ s.ongoingBarriers)
    (ht : ∀ t, id ∈ (s'.cluster t).ongoingBarriers ↔ id ∈ (s.cluster t).ongoingBarriers)
    (hm : ∀ t, t ∈ (s'.barriers id).participants ↔ t ∈ (s.barriers id).participants) : Kept s' id where
  named   := by rw [hi]; exact h.named
  ongoing := by rw [hi, hp, ho, h.ongoing]
  tasks t := by rw [ht, ho, hm, h.tasks]

-- A barrier that is marked as passed is not listed anymore.
theorem kept_marked {result : Status} (hk : ∀ id', id' ≠ id → Kept s id')
    (hn : (s.barriers id).id = id ∨ ((s.barriers id).id = "" ∧ id ∉ s.ongoingBarriers ∧
      ∀ t, id ∉ (s.cluster t).ongoingBarriers))
    (ht : ∀ t, id ∈ (s.cluster t).ongoingBarriers → t ∈ (s.barriers id).participants) (id' : String) :
    Kept (marked id result s) id' := by
  by_cases he : id' = id
  case pos =>
    subst he
    have ho : id' ∉ (marked id' result s).ongoingBarriers := by
      intro hm
      obtain ⟨hm, hi⟩ : id' ∈ s.ongoingBarriers ∧ id' ≠ (s.barriers id').id := by simpa using hm
      exact hn.elim (fun h => hi h.symm) fun h => h.2.1 hm
    have hj (t : TaskId) : id' ∉ ((marked id' result s).cluster t).ongoingBarriers := by
      intro hm
      obtain ⟨hm, hi⟩ := mem_ongoing_marked hm
      exact hn.elim (fun h => hi (ht t hm) h.symm) fun h => h.2.2 t hm
    refine ⟨?_, iff_of_false ho (by simp), fun t => iff_of_false (hj t) fun h => ho h.1⟩
    rw [marked_barriers, Function.update_self]
    exact hn.imp_right (·.1)
  case neg =>
    have hk := hk id' he
    have hi : id' ∈ s.ongoingBarriers → id' ≠ (s.barriers id).id := by
      rintro hm rfl
      exact hn.elim (fun h => he h) fun h => (hk.ongoing.mp hm).1 h.1
    have hb : (marked id result s).barriers id' = s.barriers id' := Function.update_of_ne he ..
    refine hk.congr (by rw [hb]) (by rw [hb]) ?ongoing
      (fun t => ⟨fun hm => (mem_ongoing_marked hm).1, fun hm => ?task⟩) fun t => by rw [hb]
    case ongoing => simpa using hi
    case task =>
      rw [marked_cluster]
      split_ifs with hp
      · exact mem_exitBarrier.mpr ⟨hm, hi ((hk.tasks t).mp hm).1⟩
      · exact hm

theorem errors_marked {result : Status} (h : Errors c l s) (hk : ∀ id, Kept s id)
    (hl : ∀ f ∈ l, ∀ id' ∈ f.2, id' ≠ id → ∃ f' ∈ l', f'.1 = f.1 ∧ id' ∈ f'.2) : Errors c l' (marked id result s) := by
  intro hr t ht id' hm
  obtain ⟨ho, hi⟩ := mem_ongoing_marked hm
  have hs : (s.cluster t).state = .error := by
    rw [marked_cluster] at ht
    split_ifs at ht <;> exact ht
  obtain ⟨f, hf, rfl, hf'⟩ := h hr t hs id' ho
  refine hl f hf id' hf' ?_
  rintro rfl
  have ho := ((hk id').tasks f.1).mp ho
  exact hi ho.2 ((hk id').ongoing.mp ho.1).2.1.symm

theorem Errors.congr (h : Errors c l s) (hc : s'.cluster = s.cluster)
    (hl : ∀ f ∈ l, ∀ id ∈ f.2, ∃ f' ∈ l', f'.1 = f.1 ∧ id ∈ f'.2) : Errors c l' s' := by
  intro hr t ht id hi
  rw [hc] at ht hi
  obtain ⟨f, hf, rfl, hm⟩ := h hr t ht id hi
  exact hl f hf id hm

theorem errors_setTask {f : TaskState → TaskState} (h : Errors c l s)
    (ho : (f (s.cluster task)).ongoingBarriers = (s.cluster task).ongoingBarriers) (hl : l ⊆ l')
    (hf : (f (s.cluster task)).state = .error → ¬c.recoverable →
      (s.cluster task).state = .error ∨ ∀ id ∈ (s.cluster task).ongoingBarriers, ∃ f ∈ l', f.1 = task ∧ id ∈ f.2) :
    Errors c l' (s.setTask task f) := by
  intro hr t ht id hi
  rw [State.cluster_setTask] at ht hi
  have hm (hs : (s.cluster t).state = .error) (hi : id ∈ (s.cluster t).ongoingBarriers) : ∃ f ∈ l', f.1 = t ∧ id ∈ f.2 := by
    obtain ⟨f, hf, h⟩ := h hr t hs id hi
    exact ⟨f, hl hf, h⟩
  split_ifs at ht hi with he
  case neg => exact hm ht hi
  case pos =>
    subst he
    rw [ho] at hi
    exact (hf ht hr).elim (fun hs => hm hs hi) fun h => h id hi

namespace Books

theorem marked {result : Status} (h : Books c l s)
    (hl : ∀ f ∈ l, ∀ id' ∈ f.2, id' ≠ id → ∃ f' ∈ l', f'.1 = f.1 ∧ id' ∈ f'.2) : Books c l' (marked id result s) where
  kept   := by
    have hk := h.kept id
    refine kept_marked (fun id' _ => h.kept id') ?_ fun t ht => ((hk.tasks t).mp ht).2
    refine or_iff_not_imp_left.mpr fun hn => ⟨hk.named.resolve_left hn, ?_, fun t ht => ?_⟩
    · exact fun ho => hn (hk.ongoing.mp ho).2.1
    · exact hn (hk.ongoing.mp ((hk.tasks t).mp ht).1).2.1
  errors := errors_marked h.errors h.kept hl

theorem congr (h : Books c l s) (hb : s'.barriers = s.barriers) (ho : s'.ongoingBarriers = s.ongoingBarriers)
    (ht : ∀ t, (s'.cluster t).ongoingBarriers = (s.cluster t).ongoingBarriers) (he : Errors c l' s') : Books c l' s' where
  kept id := (h.kept id).congr (by rw [hb]) (by rw [hb]) (by rw [ho]) (fun t => by rw [ht]) (fun t => by rw [hb])
  errors  := he

-- Steps that do not concern the books.
theorem same (h : Books c l s) (hb : s'.barriers = s.barriers) (ho : s'.ongoingBarriers = s.ongoingBarriers)
    (ht : s'.cluster = s.cluster) : Books c l s' :=
  h.congr hb ho (fun t => by rw [ht]) (h.errors.congr ht fun f hf id hi => ⟨f, hf, rfl, hi⟩)

theorem emit {event : Event} (h : Books c l s) : Books c l (s.emit event) :=
  h.same rfl rfl rfl

theorem updated (h : Books c l s) : Books c l (c.clusterStateUpdated e s) :=
  h.same clusterStateUpdated_barriers clusterStateUpdated_ongoingBarriers clusterStateUpdated_cluster

theorem setBarrier {f : BarrierState → BarrierState} (h : Books c l s) (hi : (f (s.barriers id)).id = (s.barriers id).id)
    (hp : (f (s.barriers id)).passed = (s.barriers id).passed)
    (hm : ∀ t, t ∈ (f (s.barriers id)).participants ↔ t ∈ (s.barriers id).participants) :
    Books c l (s.setBarrier id f) where
  kept id' := by
    by_cases he : id' = id
    case pos =>
      subst he
      exact (h.kept id').congr (by simp [hi]) (by simp [hp]) .rfl (fun _ => .rfl) (by simp [hm])
    case neg =>
      have hb : (s.setBarrier id f).barriers id' = s.barriers id' := by simp [State.barriers_setBarrier, he]
      exact (h.kept id').congr (by rw [hb]) (by rw [hb]) .rfl (fun _ => .rfl) fun t => by rw [hb]
  errors   := h.errors

theorem setTask {f : TaskState → TaskState} (h : Books c l s)
    (ho : (f (s.cluster task)).ongoingBarriers = (s.cluster task).ongoingBarriers) (hl : l ⊆ l')
    (hf : (f (s.cluster task)).state = .error → ¬c.recoverable →
      (s.cluster task).state = .error ∨ ∀ id ∈ (s.cluster task).ongoingBarriers, ∃ f ∈ l', f.1 = task ∧ id ∈ f.2) :
    Books c l' (s.setTask task f) := by
  refine h.congr rfl rfl (fun t => ?_) (errors_setTask h.errors ho hl hf)
  rw [State.cluster_setTask]
  split_ifs with he
  · exact he ▸ ho
  · rfl

theorem not_mem_of_next {counter : Int} (h : Books c l s) (hn : Next (s.barriers id) counter) : id ∉ s.ongoingBarriers := by
  intro hm
  obtain ⟨hi, hb, hp⟩ := (h.kept id).ongoing.mp hm
  obtain ⟨hu, -⟩ | ⟨hp', -⟩ := hn
  · exact hi (hb.symm.trans (by simpa using (of_decide_eq_true hu).1))
  · exact Bool.false_ne_true (hp.symm.trans hp')

-- A new instance of a barrier is listed by all of its tasks.
theorem start {b : BarrierState} {tasks : List TaskId} (h : Books c l s) (hi : b.id ≠ "") (hp : b.passed = false)
    (hn : Next (s.barriers b.id) b.counter) (ht : ∀ t, t ∈ b.participants ↔ t ∈ tasks)
    (hr : ¬c.recoverable → ∀ t ∈ tasks, (s.cluster t).state ≠ .error) :
    Books c l (opened b tasks s) where
  kept id := by
    have ho : id ∈ (opened b tasks s).ongoingBarriers ↔ id = b.id ∨ id ∈ s.ongoingBarriers := List.mem_insert_iff
    by_cases he : id = b.id
    case pos =>
      subst he
      have hb : (opened b tasks s).barriers b.id = b := by rw [barriers_opened, if_pos rfl]
      refine ⟨.inl (by rw [hb]), iff_of_true (ho.mpr (.inl rfl)) ⟨hi, by rw [hb], by rw [hb, hp]⟩, fun t => ?_⟩
      rw [mem_ongoing_opened, hb, ht]
      have hm : b.id ∉ (s.cluster t).ongoingBarriers := fun hm => h.not_mem_of_next hn (((h.kept _).tasks t).mp hm).1
      simp [hm]
    case neg =>
      have hb : (opened b tasks s).barriers id = s.barriers id := by rw [barriers_opened, if_neg he]
      exact (h.kept id).congr (by rw [hb]) (by rw [hb]) (ho.trans (or_iff_right he))
        (fun t => mem_ongoing_opened.trans (or_iff_right fun h => he h.2)) fun t => by rw [hb]
  errors hc t hs id hm := by
    by_cases ht : t ∈ tasks
    case pos => exact absurd (by simpa [opened, ht, TaskState.joinBarrier] using hs) (hr hc t ht)
    case neg =>
      refine h.errors hc t (by simpa [opened, ht] using hs) id ?_
      exact (mem_ongoing_opened.mp hm).resolve_left fun h => ht h.1

theorem startFailed {b : BarrierState} {result : Status} (h : Books c l s) (hn : Next (s.barriers b.id) b.counter) :
    Books c l (CoordinationService.marked b.id result (s.setBarrier b.id fun _ => b)) where
  kept   := by
    have ho := h.not_mem_of_next hn
    refine kept_marked (fun id' he => ?_) (.inl (by simp)) fun t ht => absurd (((h.kept _).tasks t).mp ht).1 ho
    have hb : (s.setBarrier b.id fun _ => b).barriers id' = s.barriers id' := by simp [State.barriers_setBarrier, he]
    exact (h.kept id').congr (by rw [hb]) (by rw [hb]) .rfl (fun _ => .rfl) fun t => by rw [hb]
  errors := by
    intro hr t hs id hm
    refine h.errors hr t ?_ id (mem_ongoing_marked hm).1
    rw [marked_cluster] at hs
    split_ifs at hs <;> exact hs

end Books

theorem Inner.books (h : Inner c e x y) (hx : Books c x.leaving x.state) : Books c y.leaving y.state := by
  have hj (t : TaskId) (id : String) : id ∈ (x.state.cluster t).ongoingBarriers → t ∈ (x.state.barriers id).participants :=
    fun h => ((hx.kept id).tasks t).mp h |>.2
  cases h <;> dsimp only at hx hj ⊢
  case respond    => exact hx.same rfl rfl rfl
  case removePoll => exact hx.same rfl rfl rfl
  case failPolls  => exact hx.same rfl rfl rfl
  case connect    =>
    exact Books.updated (Books.emit (hx.setTask rfl (List.Subset.refl _) fun h => by cases h))
  case invoke     => exact hx.emit
  case clear      => exact hx.setBarrier rfl rfl fun _ => .rfl
  case fail       =>
    refine hx.marked fun f hf id' hi hn => ?_
    obtain rfl | hf := List.mem_cons.mp hf
    · exact ⟨_, List.mem_cons_self, rfl, (List.mem_cons.mp hi).resolve_left hn⟩
    · exact ⟨f, .tail _ hf, rfl, hi⟩
  case leave hi _ =>
    exact hx.emit.setBarrier rfl rfl fun t => mem_leave.trans (or_iff_right_of_imp fun h => h.symm ▸ hj _ _ hi)
  case drop hi _  =>
    exact hx.emit.emit.setBarrier rfl rfl fun t => mem_leave.trans (or_iff_right_of_imp fun h => h.symm ▸ hj _ _ hi)
  case error      =>
    refine hx.setTask rfl (List.subset_cons_self ..) fun _ hr => .inr fun id hi => ?_
    exact ⟨_, List.mem_cons_self, rfl, by simpa [toLeave, hr, (e.perm _).mem_iff] using hi⟩
  case disconnect => exact hx.setTask rfl (List.subset_cons_self ..) fun h => by cases h
  case finish     => exact hx.same rfl rfl rfl
  case resume     =>
    refine hx.congr clusterStateUpdated_barriers clusterStateUpdated_ongoingBarriers
      (fun t => by rw [clusterStateUpdated_cluster]) (hx.errors.congr clusterStateUpdated_cluster fun f hf id hi => ?_)
    obtain rfl | hf := List.mem_cons.mp hf
    · cases hi
    · exact ⟨f, hf, rfl, hi⟩

theorem Outer.books (h : Outer c e A x y) (hs : ¬A.stranger) (hi : ∀ id k, A.instances id k → id ≠ "")
    (hp : ∀ id, Shape c id (x.state.barriers id)) (hx : Books c x.leaving x.state) : Books c y.leaving y.state := by
  cases h <;> dsimp only at hx hp ⊢
  case call          => exact hx.emit
  case «return»      => exact hx.same rfl rfl rfl
  case heartbeat     => exact hx.setTask rfl (List.Subset.refl _) fun h _ => .inl h
  case shutdownTasks => exact hx.same rfl rfl rfl
  case updating      => exact hx
  case update        => exact hx.updated
  case register      => exact (hx.setTask rfl (List.Subset.refl _) fun h _ => .inl h).emit
  case connect       => exact hx.setTask rfl (List.Subset.refl _) fun h => by cases h
  case hand          => exact hx.emit
  case start hk _ _ hn _ _ hr hb _ _ ht =>
    exact (hx.start (hi _ _ hk) hb hn (fun t => by rw [participants_eq ht]) hr).emit
  case startFailed hn _ _ _ _ => exact hx.startFailed hn
  case add           => exact hx.setBarrier rfl rfl fun _ => .rfl
  case supersede     => exact hx.emit.setBarrier rfl rfl fun _ => .rfl
  case fail          => exact hx.marked fun f hf id' hi _ => ⟨f, hf, rfl, hi⟩
  case accept        => exact hx.emit
  case reach ha _ _ _ =>
    exact hx.emit.setBarrier rfl rfl fun t => mem_reach.trans (or_iff_right_of_imp fun h => h.symm ▸ (hp _).mem_of_accepts ha hs)
  case complete ha _ _ _ _ =>
    refine Books.marked (hx.emit.setBarrier rfl rfl fun t => mem_reach.trans (or_iff_right_of_imp fun h => ?_)) fun f hf id' hi _ => ⟨f, hf, rfl, hi⟩
    exact h.symm ▸ (hp _).mem_of_accepts ha hs
  case take          => exact hx.setBarrier rfl rfl fun _ => .rfl
  case answer        => exact hx.emit
  case watch h       =>
    obtain ⟨_, rfl⟩ | ⟨_, rfl⟩ := watchTasks_cases h
    · exact hx.same rfl rfl rfl
    · exact hx.emit
  case alive h       =>
    obtain ⟨_, rfl⟩ | ⟨_, _, _, _, _, ⟨_, rfl⟩ | ⟨_, rfl⟩⟩ := getAliveTasks_cases h
    · exact hx.emit
    · exact hx.same rfl rfl rfl
    · exact hx.same rfl rfl rfl
  case poll h        =>
    obtain ⟨_, rfl⟩ | ⟨_, _, rfl⟩ := pollForError_cases h
    · exact hx.same rfl rfl rfl
    · exact hx.same rfl rfl rfl

theorem Steps.shape (h : Steps c A x y) (hs : ¬A.stranger) (hj : Joined x.state) (hp : Shape c id (x.state.barriers id)) :
    Shape c id (y.state.barriers id) := by
  have h := h.single hj id
  generalize hv : x.single id = v, hw : y.single id = w at h
  have hp : Shape c id v.barrier := hv ▸ hp
  have hb : w.barrier = y.state.barriers id := hw ▸ rfl
  rw [← hb]
  clear hv hw hb
  induction h
  case refl      => exact hp
  case tail h hi => exact h.shape hs hi

theorem Steps.books (h : Steps c A x y) (hs : ¬A.stranger) (hi : ∀ id k, A.instances id k → id ≠ "") (hj : Joined x.state)
    (hp : ∀ id, Shape c id (x.state.barriers id)) (hx : Books c x.leaving x.state) : Books c y.leaving y.state := by
  induction h
  case refl => exact hx
  case tail hxy hyz ih =>
    cases hyz
    case inner h => exact h.books ih
    case outer h => exact h.books hs hi (fun id => Steps.shape hxy hs hj (hp id)) ih

section Run

variable {ops : List (Env × Op)} {op : Op}

-- The operations of tasks of the cluster on barriers that have a name.
def Op.Named (c : CoordinationService) : Op → Prop
  | barrierAsync id _ _ task _ => c.contains task ∧ id ≠ ""
  | shutdownTask task          => c.contains task
  | _                          => True

@[simps]
def named : Allowed where
  stranger       := False
  instances id _ := id ≠ ""

theorem permits_named (ho : op.Named c) : Permits c named e s op where
  enters id counter task participants h := by
    have hu (hc : c.contains task) : ¬c.contains task → named.stranger := fun hn => hn hc
    have hr : clusterRegisterBarrierId ≠ "" := by decide
    have hd : c.shutdownBarrierId ≠ "" := by simp [shutdownBarrierId]
    cases h
    case barrier     => exact ⟨trivial, ho.2, hu ho.1, fun _ => trivial⟩
    case register hc => exact ⟨trivial, hr, hu hc, fun _ => trivial⟩
    case shutdown    => exact ⟨trivial, hd, hu ho, fun _ => trivial⟩
  cancel _ _ _ _ := trivial
  stale _ _ _    := trivial
  restart        := trivial

theorem books_initial : Books c [] {} where
  kept id := ⟨.inr rfl, by simp [eq_comm], by simp⟩
  errors  := by simp [Errors]

-- The service lists the barriers that are initialized and have not passed, and a task lists those of them
-- that it participates in. These are none if the task has got an error.
theorem ongoingBarriers_listed (ho : ∀ op ∈ ops, op.2.Named c) (h : c.run ops = some s) :
    (∀ id, id ∈ s.ongoingBarriers ↔ id ≠ "" ∧ (s.barriers id).id = id ∧ (s.barriers id).passed = false) ∧
    (∀ t id, id ∈ (s.cluster t).ongoingBarriers ↔ id ∈ s.ongoingBarriers ∧ t ∈ (s.barriers id).participants) ∧
    (¬c.recoverable → ∀ t, (s.cluster t).state = .error → (s.cluster t).ongoingBarriers = []) := by
  have hs := steps_of_permits joined_initial (A := named) (fun op hm s => permits_named (s := s) (ho op hm)) h
  have hb : Books c [] s := hs.books (fun h => h) (fun _ _ h => h) joined_initial (fun _ => .initial) books_initial
  refine ⟨fun id => (hb.kept id).ongoing, fun t id => (hb.kept id).tasks t, fun hr t ht => ?_⟩
  refine List.eq_nil_iff_forall_not_mem.mpr fun id hi => ?_
  obtain ⟨_, hf, _⟩ := hb.errors hr t ht id hi
  cases hf

def oneCalls : List (Env × Op) :=
  [(.fixed, .registerTask 0 5), (.fixed, .barrierAsync "b" 0 10 0 [])]

theorem ongoingBarriers_listed_pair : ∃ s, pair.run oneCalls = some s ∧ s.ongoingBarriers = ["b"] ∧
    ∀ t id, id ∈ (s.cluster t).ongoingBarriers ↔ id ∈ s.ongoingBarriers ∧ t ∈ (s.barriers id).participants := by
  have h : pair.run oneCalls = some _ := rfl
  have ho : ∀ op ∈ oneCalls, op.2.Named pair := by
    simp only [oneCalls, List.forall_mem_cons, Op.Named]
    exact ⟨trivial, ⟨rfl, by decide⟩, by simp⟩
  exact ⟨_, h, rfl, (ongoingBarriers_listed ho h).2.1⟩

end Run
end Coordination.CoordinationService
