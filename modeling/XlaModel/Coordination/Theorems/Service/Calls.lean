import XlaModel.Coordination.Theorems.Service.Front

-- The calls of the clients, and that each of them is answered once.
namespace Coordination.CoordinationService

variable {c : CoordinationService} {f g : Front} {n : Nat} {op : Op} {event : Event}

section Emits

-- The events that a step adds to the history. They happen when the step has changed the tasks.
def Front.Emits (f g : Front) (events : List Event) : Prop :=
  g.history = (events.map (·, g.info)).reverse ++ f.history

def Front.select (f : Front) (p : Event → Option α) : List α :=
  f.history.filterMap (p ·.1)

theorem Front.mem_select {p : Event → Option α} {a : α} :
    a ∈ f.select p ↔ ∃ event, f.Logged event ∧ p event = some a := by
  simp only [select, List.mem_filterMap, Logged]
  refine ⟨?mp, ?mpr⟩
  case mp =>
    rintro ⟨entry, he, ha⟩
    exact ⟨entry.1, ⟨entry, he, rfl⟩, ha⟩
  case mpr =>
    rintro ⟨_, ⟨entry, he, rfl⟩, ha⟩
    exact ⟨entry, he, ha⟩

namespace Front.Emits

variable {events : List Event}

theorem select (h : Emits f g events) (p : Event → Option α) :
    g.select p = (events.filterMap p).reverse ++ f.select p := by
  simp only [Front.select, show g.history = _ from h, List.filterMap_append, List.filterMap_reverse,
    List.filterMap_map, Function.comp_def]

theorem mem (h : Emits f g events) {entry : Event × (TaskId → TaskInfo)} :
    entry ∈ g.history ↔ (entry.1 ∈ events ∧ entry.2 = g.info) ∨ entry ∈ f.history := by
  rw [show g.history = _ from h]
  exact mem_emit (f := { f with info := g.info })

theorem logged (h : Emits f g events) : g.Logged event ↔ event ∈ events ∨ f.Logged event := by
  simp [Front.Logged, h.mem, or_and_right, exists_or]

end Front.Emits

end Emits

section Calls

variable {events : List Event}

def Event.call? : Event → Option Nat
  | called n _ => some n
  | _          => none

-- What is known of the calls of the clients.
structure Front.Calls (f : Front) : Prop where
  called : ∀ n op, f.Logged (.called n op) → n < f.time ∨ (n = f.time ∧ f.op = some op)
  op     : ∀ op, f.op = some op → f.Logged (.called f.time op)
  nodup  : (f.select Event.call?).Nodup

namespace Front

theorem emits_updated {tasks : List TaskId} (he : Emits f g events) :
    Emits f (g.updated tasks) (events ++ g.watching.map fun call => .watch call (tasks.map g.info) (g.version + 1)) := by
  simp [Emits, updated, show g.history = _ from he, Function.comp_def]

theorem emits_self : Emits f f [] :=
  rfl

-- What a step does to the calls of the clients.
inductive CallStep (f g : Front) : List Event → Prop
  | call {op : Op} : f.op = none → g = { f with op := some op, calling := true }.emit [.called f.time op] →
    CallStep f g [.called f.time op]
  | return {op : Op} : f.op = some op → (f.calling → op.waits = false) →
    g = { f with op := none, calling := false, time := f.time + 1 } → CallStep f g []
  | silent {events : List Event} : g.op = f.op → g.time = f.time → (∀ event ∈ events, event.call? = none) → CallStep f g events

theorem Step.callStep (h : Step c f g) : ∃ events, Emits f g events ∧ CallStep f g events := by
  have hq {events : List Event} (h : ∀ event ∈ events, event.isQuiet) : ∀ event ∈ events, event.call? = none := by
    intro event he
    specialize h event he
    cases event <;> first | rfl | cases h
  have hm {α : Type} {l : List α} {p : α → Event} (h : ∀ a, (p a).call? = none) : ∀ event ∈ l.map p, event.call? = none :=
    List.forall_mem_map.mpr fun a _ => h a
  cases h
  case call h            => exact ⟨_, rfl, .call h rfl⟩
  case «return» h _ _ hw => exact ⟨_, emits_self, .return h hw rfl⟩
  case updating          => exact ⟨_, emits_self, .silent rfl rfl (by simp)⟩
  case update            => exact ⟨_, emits_updated emits_self, .silent rfl rfl (by simp [Event.call?])⟩
  case quiet he          => exact ⟨_, rfl, .silent rfl rfl (hq he)⟩
  case change he _ _     => exact ⟨_, rfl, .silent rfl rfl (hq he)⟩
  case connect           => exact ⟨_, emits_updated rfl, .silent rfl rfl (by simp [Event.call?])⟩
  case leave             => exact ⟨[], rfl, .silent rfl rfl (by simp)⟩
  case resume            => exact ⟨_, emits_updated emits_self, .silent rfl rfl (by simp [Event.call?])⟩
  case respond           => exact ⟨_, rfl, .silent rfl rfl (hm fun _ => rfl)⟩
  case hand              => exact ⟨_, rfl, .silent rfl rfl (by simp [Event.call?])⟩
  case watch             => exact ⟨[], rfl, .silent rfl rfl (by simp)⟩
  case watchNow          => exact ⟨_, rfl, .silent rfl rfl (by simp [Event.call?])⟩
  case finish            => exact ⟨_, rfl, .silent rfl rfl (hm fun _ => rfl)⟩
  case alive             => exact ⟨[], rfl, .silent rfl rfl (by simp)⟩
  case aliveNow          => exact ⟨_, rfl, .silent rfl rfl (hm fun _ => rfl)⟩
  case aliveError        => exact ⟨_, rfl, .silent rfl rfl (by simp [Event.call?])⟩
  case poll              => exact ⟨_, rfl, .silent rfl rfl (hm fun _ => rfl)⟩
  case pollNow           => exact ⟨_, rfl, .silent rfl rfl (by simp [Event.call?])⟩
  case removePoll        => exact ⟨_, rfl, .silent rfl rfl (hm fun _ => rfl)⟩
  case failPolls         => exact ⟨_, rfl, .silent rfl rfl (hm fun _ => rfl)⟩

theorem CallStep.calls (h : CallStep f g events) (he : Emits f g events) (hf : f.Calls) : g.Calls := by
  have hs := he.select Event.call?
  cases h
  case call op hn hg =>
    have hl {event : Event} : g.Logged event ↔ event = .called f.time op ∨ f.Logged event := by
      simp [he.logged]
    have hc : f.time ∉ f.select Event.call? := by
      intro hm
      obtain ⟨event, hm, hc⟩ := mem_select.mp hm
      cases event <;> cases hc
      obtain hm | ⟨_, hm⟩ := hf.called _ _ hm
      · omega
      · exact Option.some_ne_none _ (hm.symm.trans hn)
    subst hg
    refine ⟨?recorded, ?op, ?nodup⟩
    case recorded =>
      intro n op' hm
      obtain hm | hm := hl.mp hm
      case inl =>
        cases hm
        exact .inr ⟨rfl, rfl⟩
      case inr =>
        obtain hm | ⟨_, hm⟩ := hf.called _ _ hm
        · exact .inl hm
        · exact absurd (hm.symm.trans hn) (Option.some_ne_none _)
    case op => exact fun op' ho => hl.mpr (.inl (by cases ho; rfl))
    case nodup =>
      rw [hs]
      exact List.nodup_cons.mpr ⟨hc, hf.nodup⟩
  case «return» hg =>
    subst hg
    refine ⟨fun n op hm => .inl ?_, fun _ h => absurd h.symm (Option.some_ne_none _), hf.nodup⟩
    obtain hm | ⟨rfl, _⟩ := hf.called n op hm
    · exact Nat.lt_succ_of_lt hm
    · exact Nat.lt_succ_self _
  case silent ho ht hn =>
    have hs : g.select Event.call? = f.select Event.call? := by
      rw [hs, List.filterMap_eq_nil_iff.mpr hn, List.reverse_nil, List.nil_append]
    have hl {n : Nat} {op : Op} : g.Logged (.called n op) ↔ f.Logged (.called n op) := by
      rw [he.logged, or_iff_right]
      exact fun hm => Option.some_ne_none n (hn _ hm)
    refine ⟨fun n op hm => ?_, fun op h => ?_, hs ▸ hf.nodup⟩
    · rw [ho, ht]
      exact hf.called n op (hl.mp hm)
    · rw [ht]
      exact hl.mpr (hf.op op (ho ▸ h))

theorem Step.calls (h : Step c f g) (hf : f.Calls) : g.Calls := by
  obtain ⟨events, he, h⟩ := h.callStep
  exact h.calls he hf

end Front
end Calls

section Balance

def BarrierCallback.user? : BarrierCallback → Option Nat
  | user n => some n
  | _      => none

-- The kinds of calls that wait in a list of their own, or that are handed over to a barrier.
inductive Kind where
  | watch
  | alive
  | barrier (id : String)

namespace Kind

def asked? : Kind → Event → Option Nat
  | watch, .called n (.watchTasks _)     => some n
  | alive, .called n (.getAliveTasks ..) => some n
  | barrier id, .called n (.barrierAsync id' ..) => if id' = id then some n else none
  | _, _                                 => none

def answered? : Kind → Event → Option Nat
  | watch, .watch n _ _     => some n
  | alive, .alive _ n _ _ _ => some n
  | barrier id, .handed id' callback => if id' = id then callback.user? else none
  | _, _                    => none

variable {kind : Kind} {events : List Event}

theorem asked?_quiet (h : ∀ event ∈ events, event.isQuiet) : events.filterMap kind.asked? = [] := by
  refine List.filterMap_eq_nil_iff.mpr fun event he => ?_
  specialize h event he
  cases kind <;> cases event <;> first | rfl | cases h

theorem answered?_quiet (h : ∀ event ∈ events, event.isQuiet) : events.filterMap kind.answered? = [] := by
  refine List.filterMap_eq_nil_iff.mpr fun event he => ?_
  specialize h event he
  cases kind <;> cases event <;> first | rfl | cases h

theorem asked?_of_waits (h : op.waits = false) : kind.asked? (.called n op) = none := by
  cases kind <;> cases op <;> first | rfl | cases h

end Kind

namespace Front

variable {kind : Kind}

def waiting (f : Front) : Kind → List Nat
  | .watch => f.watching
  | .alive => f.pending.flatMap (·.dones)
  | .barrier _ => []

-- The call that is being made.
def current (f : Front) (kind : Kind) : List Nat :=
  match f.op with
  | some op => if f.calling then (kind.asked? (.called f.time op)).toList else []
  | none    => []

-- Every call is answered once or is waiting once.
def Balanced (kind : Kind) (f : Front) : Prop :=
  (f.select kind.asked?).Perm (f.select kind.answered? ++ f.waiting kind ++ f.current kind)

theorem Balanced.move (hf : Balanced kind f) (he : Emits f g events) (ha : events.filterMap kind.asked? = [])
    (hp : (events.filterMap kind.answered? ++ (g.waiting kind ++ g.current kind)).Perm (f.waiting kind ++ f.current kind)) :
    Balanced kind g := by
  simp only [Balanced, he.select, ha, List.reverse_nil, List.nil_append, List.append_assoc] at hf ⊢
  calc
    f.select kind.asked?
    _ |>.Perm (f.select kind.answered? ++ (f.waiting kind ++ f.current kind)) := hf
    _ |>.Perm (f.select kind.answered? ++ (events.filterMap kind.answered? ++ (g.waiting kind ++ g.current kind))) :=
      hp.symm.append_left _
    _ |>.Perm (events.filterMap kind.answered? ++ (f.select kind.answered? ++ (g.waiting kind ++ g.current kind))) :=
      List.perm_append_comm_assoc ..
    _ |>.Perm _ := (List.reverse_perm _).symm.append_right _

theorem Balanced.same (hf : Balanced kind f) (he : Emits f g events) (ha : events.filterMap kind.asked? = [])
    (hr : events.filterMap kind.answered? = []) (hw : g.waiting kind = f.waiting kind)
    (hc : g.current kind = f.current kind) : Balanced kind g :=
  hf.move he ha (by rw [hr, hw, hc, List.nil_append])

theorem current_eq (h : f.op = some op) (hc : f.calling) : f.current kind = (kind.asked? (.called f.time op)).toList := by
  simp [current, h, hc]

theorem current_nil (h : f.calling = false) : f.current kind = [] := by
  rw [current]
  split <;> simp [h]

theorem Balanced.updated {tasks : List TaskId} {updating : Bool} {depth : Nat} (hf : Balanced kind f) :
    Balanced kind { f.updated tasks with updating, depth } := by
  refine hf.move (emits_updated emits_self) ?asked ?answered <;> cases kind
  case asked.watch => simp [Kind.asked?]
  case asked.alive => simp [Kind.asked?]
  case answered.watch => simp [Kind.answered?, waiting, Front.updated, Function.comp_def]; rfl
  case answered.alive => simp [Kind.answered?, waiting, Front.updated, Function.comp_def]; rfl
  case asked.barrier => simp [Kind.asked?]
  case answered.barrier => simp [Kind.answered?, waiting, Front.updated, Function.comp_def]; rfl

theorem Balanced.respond {dones : List (Nat × Status)} (hf : Balanced kind f) : Balanced kind (f.respond dones) :=
  hf.same rfl (by simp [Kind.asked?]) (by simp [Kind.answered?]) rfl rfl

-- A call that does not wait in such a list is neither waiting nor answered.
theorem Balanced.pass (hf : Balanced kind f) (h : f.op = some op) (hc : f.calling) (hk : kind.asked? (.called f.time op) = none) :
    Balanced kind { f with calling := false } :=
  hf.same emits_self rfl rfl rfl (by rw [current_nil rfl, current_eq h hc, hk, Option.toList_none])

-- A call that is answered, or handed over, at once.
theorem Balanced.answer (hf : Balanced kind f) (h : f.op = some op) (hc : f.calling) (ha : kind.asked? event = none)
    (hk : kind.answered? event = kind.asked? (.called f.time op)) :
    Balanced kind ({ f with calling := false }.emit [event]) := by
  have he : [event].filterMap kind.answered? = (kind.asked? (.called f.time op)).toList := by
    rw [← hk]
    cases h : kind.answered? event <;> simp [h]
  refine hf.move rfl (by simp [ha]) ?_
  rw [current_nil rfl, current_eq h hc, List.append_nil, he]
  exact List.perm_append_comm

def dones (states : List AlivenessState) : List Nat :=
  states.flatMap (·.dones)

theorem dones_split {a : AlivenessState} {before after : List AlivenessState} :
    (dones (before ++ a :: after)).Perm (a.dones ++ dones (before ++ after)) := by
  simp only [dones, List.flatMap_append, List.flatMap_cons]
  exact List.perm_append_comm_assoc ..

theorem dones_request {states before after : List AlivenessState} {a : AlivenessState} {tasks : List TaskId}
    (h : Request states tasks before a after) : (dones states).Perm (a.dones ++ dones (before ++ after)) := by
  cases h
  case old _ h => exact h ▸ dones_split
  case new     => simp

theorem Balanced.finish {before after : List AlivenessState} {a : AlivenessState} {v : List TaskId} (hf : Balanced kind f)
    (ha : f.pending = before ++ a :: after) : Balanced kind ({ f with pending := before ++ after }.finished v a.dones) := by
  cases kind
  case watch   => exact hf.same rfl (by simp [Kind.asked?]) (by simp [Kind.answered?]) rfl rfl
  case barrier => exact hf.same rfl (by simp [Kind.asked?]) (by simp [Kind.answered?]) rfl rfl
  case alive   =>
    refine hf.move rfl (by simp [Kind.asked?]) ?_
    simp only [List.filterMap_map, Function.comp_def, Kind.answered?, List.filterMap_some]
    rw [← List.append_assoc]
    exact (ha ▸ dones_split.symm : (a.dones ++ dones (before ++ after)).Perm (dones f.pending)).append_right _

theorem Balanced.enter {before after : List AlivenessState} {a : AlivenessState} {task : TaskId} {tasks : List TaskId}
    (hf : Balanced kind f) (h : f.op = some (.getAliveTasks task tasks)) (hc : f.calling)
    (hr : Request f.pending tasks.dedup before a after) :
    Balanced kind { f with calling := false, pending := before ++ a.enter task f.time :: after } := by
  cases kind
  case watch   => exact (hf.pass h hc rfl).same emits_self rfl rfl rfl rfl
  case barrier => exact (hf.pass h hc rfl).same emits_self rfl rfl rfl rfl
  case alive   =>
    refine hf.move emits_self rfl ?_
    rw [current_nil rfl, current_eq h hc, List.filterMap_nil, List.nil_append, List.append_nil]
    calc
      dones (before ++ a.enter task f.time :: after)
      _ |>.Perm (a.dones ++ [f.time] ++ dones (before ++ after)) := dones_split
      _ |>.Perm (a.dones ++ dones (before ++ after) ++ [f.time]) := by
        simp only [List.append_assoc]
        exact List.perm_append_comm.append_left _
      _ |>.Perm (dones f.pending ++ [f.time])                    := (dones_request hr).symm.append_right _

theorem Step.balanced (h : Step c f g) (hf : Balanced kind f) : Balanced kind g := by
  cases h
  case call op ho =>
    have hc : f.current kind = [] := by simp [current, ho]
    have ha : kind.answered? (.called f.time op) = none := by cases kind <;> rfl
    simp only [Balanced, hc, List.append_nil] at hf
    generalize hg : { f with op := some op, calling := true }.emit [.called f.time op] = g
    have he : Emits f g [.called f.time op]                                := hg ▸ rfl
    have hw : g.waiting kind = f.waiting kind                              := hg ▸ rfl
    have hn : g.current kind = (kind.asked? (.called f.time op)).toList := hg ▸ current_eq rfl rfl
    rw [Balanced, he.select, he.select, hw, hn]
    cases hk : kind.asked? (.called f.time op)
    case none => simpa [ha, hk] using hf
    case some => simpa [ha, hk] using List.perm_append_comm.trans (hf.append_right [_])
  case «return» ho _ _ hw =>
    refine hf.same emits_self rfl rfl rfl ?_
    by_cases hc : f.calling
    case neg => rw [current_nil rfl, current_nil (Bool.eq_false_of_not_eq_true hc)]
    case pos => rw [current_nil rfl, current_eq ho hc, Kind.asked?_of_waits (hw hc), Option.toList_none]
  case updating          => exact hf
  case update            => exact hf.updated
  case quiet he          => exact hf.same rfl (Kind.asked?_quiet he) (Kind.answered?_quiet he) rfl rfl
  case change he _ _     => exact hf.same rfl (Kind.asked?_quiet he) (Kind.answered?_quiet he) rfl rfl
  case connect           =>
    exact Balanced.updated (f := (f.set _ _).emit _) <| hf.same rfl (by simp [Kind.asked?]) (by simp [Kind.answered?]) rfl rfl
  case leave             => exact hf
  case resume            => exact hf.updated
  case respond           => exact hf.respond
  case hand hc ho hh     =>
    exact hf.answer ho hc (by cases kind <;> rfl) <| by
      cases hh <;> cases kind <;> simp [Kind.answered?, Kind.asked?, BarrierCallback.user?]
  case watch hc ho _     =>
    cases kind
    case watch =>
      refine hf.move emits_self rfl ?_
      rw [current_nil rfl, current_eq ho hc]
      simp [waiting, Kind.asked?]
    case alive   => exact hf.pass ho hc rfl
    case barrier => exact hf.pass ho hc rfl
  case watchNow _ hc ho _ => exact hf.answer ho hc (by cases kind <;> rfl) (by cases kind <;> rfl)
  case finish ha _ _     => exact hf.finish ha
  case alive hc ho hr _  => exact hf.enter ho hc hr
  case aliveNow hc ho hr _ _ => exact (hf.enter ho hc hr).finish rfl
  case aliveError hc ho  => exact hf.answer ho hc (by cases kind <;> rfl) (by cases kind <;> rfl)
  case poll hc ho        => exact (hf.pass ho hc (by cases kind <;> rfl)).respond
  case pollNow hc ho     => exact (hf.pass ho hc (by cases kind <;> rfl)).respond
  case removePoll        => exact hf.respond
  case failPolls         => exact hf.respond

theorem select_asked : (f.select kind.asked?).Sublist (f.select Event.call?) := by
  have hc {event : Event} {n : Nat} (h : kind.asked? event = some n) : event.call? = some n := by
    cases kind <;> cases event
    case watch.called op => cases op <;> first | exact h | cases h
    case alive.called op => cases op <;> first | exact h | cases h
    case barrier.called op =>
      cases op <;> try cases h
      simp only [Kind.asked?] at h
      split_ifs at h
      exact h
    all_goals cases h
  simp only [select]
  induction f.history
  case nil => simp
  case cons entry history hi =>
    cases hk : kind.asked? entry.1
    case none =>
      simp only [List.filterMap_cons, hk]
      split
      · exact hi
      · exact hi.cons _
    case some n =>
      simp only [List.filterMap_cons, hk, hc hk]
      exact hi.cons_cons _

end Front
end Balance

section Steps

variable {x y : Point} {kind : Kind} {s : State} {A : Allowed} {ops : List (Env × Op)}

theorem Steps.invariant {P : Front → Prop} (hs : ∀ f g, Front.Step c f g → P f → P g) (h : Steps c A x y)
    (hx : P x.front) : P y.front := by
  have h := h.front
  generalize y.front = g at h ⊢
  induction h
  case refl      => exact hx
  case tail h hi => exact hs _ _ h hi

theorem Front.calls_initial : (Point.front ⟨none, {}, [], {}⟩).Calls where
  called := by simp [Logged]
  op     := by simp
  nodup  := by simp [select]

theorem Front.balanced_initial : (Point.front ⟨none, {}, [], {}⟩).Balanced kind := by
  cases kind <;> simp [Balanced, select, waiting, current]

-- The calls of a kind, and the calls that are answered.
def State.asked (s : State) (kind : Kind) : List Nat :=
  s.log.filterMap fun entry => kind.asked? entry.event

def State.answered (s : State) (kind : Kind) : List Nat :=
  s.log.filterMap fun entry => kind.answered? entry.event

theorem select_front (p : Event → Option α) :
    (Point.front ⟨none, {}, [], s⟩).select p = s.log.filterMap fun entry => p entry.event := by
  simp [Front.select, Entry.front, List.filterMap_map, Function.comp_def]

theorem asked_perm (kind : Kind) (h : c.run ops = some s) :
    (s.asked kind).Perm (s.answered kind ++ (Point.front ⟨none, {}, [], s⟩).waiting kind) ∧ (s.asked kind).Nodup := by
  have hc := Steps.invariant (fun _ _ h => h.calls) (of_run h) Front.calls_initial
  have hb : Front.Balanced kind (Point.front ⟨none, {}, [], s⟩) :=
    Steps.invariant (fun _ _ h => h.balanced) (of_run h) Front.balanced_initial
  have hn : ((Point.front ⟨none, {}, [], s⟩).select kind.asked?).Nodup := hc.nodup.sublist Front.select_asked
  rw [Front.Balanced, Front.current_nil rfl, List.append_nil, select_front, select_front] at hb
  rw [select_front] at hn
  exact ⟨hb, hn⟩

end Steps

section Pair

-- A cluster of two tasks in which no time passes.
def pair : CoordinationService where
  numTasks    := 2
  incarnation := 7
  toString _  := ""

def Env.fixed : Env where
  now     := 0
  order l := l
  perm _  := .refl _

end Pair
end Coordination.CoordinationService
