import XlaModel.Coordination.Theorems.Service.Calls

-- What the steps do to the clients that watch the tasks.
namespace Coordination.CoordinationService

variable {c : CoordinationService} {f g : Front} {event : Event}

section Watch

variable {events : List Event}

namespace Front

-- The tasks have changed, but the clients that watch them have not been notified yet.
def Unsettled (f : Front) : Prop :=
  f.updating ∨ 0 < f.depth

-- What a step does to the clients that watch the tasks.
structure WatchStep (c : CoordinationService) (f g : Front) (events : List Event) : Prop where
  version  : f.version ≤ g.version
  settled  : g.version = f.version → (f.Unsettled → g.Unsettled) ∧ (g.info = f.info ∨ g.Unsettled)
  watching : ∀ n ∈ g.watching, (g.version = f.version ∧ n ∈ f.watching) ∨
    ∃ v, f.op = some (.watchTasks v) ∧ n = f.time ∧ v.getD (-1) = g.version
  reports  : ∀ n infos version, .watch n infos version ∈ events →
    version = g.version ∧ infos.Perm (c.tasks.map g.info) ∧
    ((g.version = f.version + 1 ∧ n ∈ f.watching) ∨
      ∃ v, f.op = some (.watchTasks v) ∧ n = f.time ∧ v.getD (-1) < g.version)

theorem WatchStep.same (hv : g.version = f.version) (hs : f.Unsettled → g.Unsettled) (hi : g.info = f.info ∨ g.Unsettled)
    (hw : g.watching = f.watching) (he : ∀ n infos version, .watch n infos version ∉ events) : WatchStep c f g events where
  version     := hv.ge
  settled _   := ⟨hs, hi⟩
  watching _ h := .inl ⟨hv, hw ▸ h⟩
  reports n infos version h := absurd h (he n infos version)

theorem WatchStep.updated {tasks : List TaskId} {updating : Bool} {depth : Nat} (hv : f.version = g.version) (hw : f.watching = g.watching)
    (ht : tasks.Perm c.tasks) (he : ∀ n infos version, .watch n infos version ∉ events) :
    WatchStep c f { g.updated tasks with updating, depth }
      (events ++ g.watching.map fun call => .watch call (tasks.map g.info) (g.version + 1)) where
  version  := by simp [hv, Front.updated]
  settled  := by simp [hv, Front.updated]
  watching := by simp [Front.updated]
  reports  := by
    intro n infos version hm
    obtain hm | hm := List.mem_append.mp hm
    · exact absurd hm (he n infos version)
    · obtain ⟨call, hc, hm⟩ := List.mem_map.mp hm
      cases hm
      exact ⟨rfl, ht.map _, .inl ⟨hv ▸ rfl, hw ▸ hc⟩⟩

theorem Step.watchStep (h : Step c f g) : ∃ events, Emits f g events ∧ WatchStep c f g events := by
  have hq {events : List Event} (h : ∀ event ∈ events, event.isQuiet) (n : Nat) (infos : List TaskInfo) (version : Int) :
      .watch n infos version ∉ events :=
    fun hm => Bool.false_ne_true (h _ hm)
  have hs {events : List Event} (hv : g.version = f.version) (hd : g.depth = f.depth) (hu : g.updating = f.updating)
      (hi : g.info = f.info) (hw : g.watching = f.watching) (he : ∀ n infos version, .watch n infos version ∉ events) :
      WatchStep c f g events :=
    .same hv (by simp [Unsettled, hd, hu]) (.inl hi) hw he
  cases h
  case call              => exact ⟨_, rfl, hs rfl rfl rfl rfl rfl (by simp)⟩
  case «return»          => exact ⟨_, emits_self, hs rfl rfl rfl rfl rfl (by simp)⟩
  case updating          => exact ⟨_, emits_self, .same rfl (fun _ => .inl rfl) (.inl rfl) rfl (by simp)⟩
  case update ht         => exact ⟨_, emits_updated emits_self, .updated rfl rfl ht fun _ _ _ => List.not_mem_nil⟩
  case quiet he          => exact ⟨_, rfl, hs rfl rfl rfl rfl rfl (hq he)⟩
  case change he hu _    => exact ⟨_, rfl, .same rfl (fun h => h) (.inr (.inl hu)) rfl (hq he)⟩
  case connect ht _ _    =>
    refine ⟨_, emits_updated rfl, .updated (g := (f.set _ _).emit _) rfl rfl ht ?_⟩
    simp
  case leave             =>
    exact ⟨[], rfl, .same rfl (fun _ => .inr (Nat.succ_pos _)) (.inr (.inr (Nat.succ_pos _))) rfl (by simp)⟩
  case resume ht _ _     => exact ⟨_, emits_updated emits_self, .updated rfl rfl ht fun _ _ _ => List.not_mem_nil⟩
  case watch v _ ho hv   =>
    refine ⟨[], rfl, le_rfl, fun _ => ⟨fun h => h, .inl rfl⟩, fun n hm => ?_, by simp⟩
    obtain hm | hm := List.mem_append.mp hm
    · exact .inl ⟨rfl, hm⟩
    · exact .inr ⟨v, ho, List.mem_singleton.mp hm, hv⟩
  case watchNow v tasks ht _ ho hv =>
    refine ⟨_, rfl, le_rfl, fun _ => ⟨fun h => h, .inl rfl⟩, fun n hm => .inl ⟨rfl, hm⟩, fun n infos version hm => ?_⟩
    cases List.mem_singleton.mp hm
    exact ⟨rfl, ht.map _, .inr ⟨v, ho, rfl, hv⟩⟩
  case alive             => exact ⟨[], rfl, hs rfl rfl rfl rfl rfl (by simp)⟩
  all_goals exact ⟨_, rfl, hs rfl rfl rfl rfl rfl (by simp)⟩

-- The tasks are what they have been at a version, unless the version has changed.
def Fresh (version : Int) (info : TaskId → TaskInfo) (f : Front) : Prop :=
  version ≤ f.version ∧ (f.version = version → f.Unsettled ∨ f.info = info)

theorem WatchStep.fresh {version : Int} {info : TaskId → TaskInfo} (h : WatchStep c f g events)
    (hf : Fresh version info f) : Fresh version info g := by
  refine ⟨hf.1.trans h.version, fun hv => ?_⟩
  have hv' : f.version = version := le_antisymm (hv ▸ h.version) hf.1
  obtain ⟨hu, hi⟩ := h.settled (hv.trans hv'.symm)
  cases hf.2 hv'
  case inl hn => exact .inl (hu hn)
  case inr he => exact hi.symm.imp_right (·.trans he)

theorem Step.fresh {version : Int} {info : TaskId → TaskInfo} (h : Step c f g) (hf : Fresh version info f) :
    Fresh version info g := by
  obtain ⟨_, _, h⟩ := h.watchStep
  exact h.fresh hf

-- What is known of the clients that watch the tasks: a call waits while the version is the one that it has
-- been called with, and is told a later version with the tasks at that version.
structure Watched (c : CoordinationService) (f : Front) : Prop where
  waiting : ∀ n ∈ f.watching, ∃ v, f.Logged (.called n (.watchTasks v)) ∧ v.getD (-1) = f.version
  reports : ∀ n infos version info, (.watch n infos version, info) ∈ f.history →
    (∃ v, f.Logged (.called n (.watchTasks v)) ∧ v.getD (-1) < version) ∧ infos.Perm (c.tasks.map info) ∧
    Fresh version info f

theorem WatchStep.watched (h : WatchStep c f g events) (he : Emits f g events) (hc : f.Calls) (hf : Watched c f) :
    Watched c g := by
  have hl {event : Event} (h : f.Logged event) : g.Logged event := he.logged.mpr (.inr h)
  refine ⟨fun n hn => ?watching, fun n infos version info hm => ?delivered⟩
  case watching =>
    obtain ⟨hv, hn⟩ | ⟨v, ho, rfl, hv⟩ := h.watching n hn
    · obtain ⟨v, hm, hw⟩ := hf.waiting n hn
      exact ⟨v, hl hm, hw.trans hv.symm⟩
    · exact ⟨v, hl (hc.op _ ho), hv⟩
  case delivered =>
    obtain ⟨hm, rfl⟩ | hm := he.mem.mp hm
    · obtain ⟨rfl, hp, hn⟩ := h.reports n infos version hm
      refine ⟨?_, hp, le_rfl, fun _ => .inr rfl⟩
      obtain ⟨hv, hn⟩ | ⟨v, ho, rfl, hv⟩ := hn
      · obtain ⟨v, hm, hw⟩ := hf.waiting n hn
        exact ⟨v, hl hm, by omega⟩
      · exact ⟨v, hl (hc.op _ ho), hv⟩
    · obtain ⟨⟨v, hm, hw⟩, hp, hr⟩ := hf.reports n infos version info hm
      exact ⟨⟨v, hl hm, hw⟩, hp, h.fresh hr⟩

end Front
end Watch
end Coordination.CoordinationService
