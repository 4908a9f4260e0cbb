import XlaModel.Lib.DivisorInterval
import XlaModel.Sharding.MeshAndAxis
import XlaModel.Lib.Fallible
import XlaModel.Sharding.NamedSharding

namespace Sharding

open DivisorInterval

namespace SubAxis

variable (s : SubAxis)

theorem nextPreSize_pos : 0 < s.nextPreSize :=
  Nat.mul_pos s.preSize_pos (Nat.zero_lt_of_lt s.one_lt_size)

theorem preSize_lt_nextPreSize : s.preSize < s.nextPreSize :=
  lt_mul_of_one_lt_right s.preSize_pos s.one_lt_size

def interval : DivisorInterval where
  lo     := s.preSize
  hi     := s.nextPreSize
  lo_pos := s.preSize_pos
  hi_pos := s.nextPreSize_pos
  dvd    := Nat.dvd_mul_right ..

end SubAxis

namespace AxisRef

variable {mesh : Mesh} {a b o front s : AxisRef} {sub other : SubAxis}

def Valid (mesh : Mesh) (a : AxisRef) : Prop :=
  a.validate mesh = .ok ()

theorem valid_iff : a.Valid mesh ↔ a.meshAxisIndex < mesh.numAxes ∧ ∀ sub, a.subAxisInfo = some sub →
    sub.nextPreSize ∣ mesh.axisSize a.meshAxisIndex ∧ sub.size < mesh.axisSize a.meshAxisIndex := by
  unfold Valid validate
  split
  case isTrue h  => simp [not_lt.mpr h]
  case isFalse h =>
    rw [not_le] at h
    cases a.subAxisInfo
    case none     => simp [h]
    case some sub =>
      simp only [h, true_and, Option.some.injEq, forall_eq']
      split
      case isTrue hd  => simp [Nat.dvd_iff_mod_eq_zero, hd]
      case isFalse hd =>
        rw [not_not] at hd
        split
        case isTrue hs  => simp [not_lt.mpr hs]
        case isFalse hs => simp [Nat.dvd_of_mod_eq_zero hd, not_le.mp hs]

theorem Valid.nextPreSize_dvd (h : a.Valid mesh) (hs : a.subAxisInfo = some sub) :
    sub.nextPreSize ∣ mesh.axisSize a.meshAxisIndex :=
  (valid_iff.mp h).2 sub hs |>.1

theorem Valid.size_lt (h : a.Valid mesh) (hs : a.subAxisInfo = some sub) :
    sub.size < mesh.axisSize a.meshAxisIndex :=
  (valid_iff.mp h).2 sub hs |>.2

-- The factors of a mesh axis of size `n` that are used by the axis.
def interval (a : AxisRef) {n : Nat} (hn : 1 < n) : DivisorInterval :=
  match a.subAxisInfo with
  | some sub => sub.interval
  | none     => ⟨1, n, Nat.one_pos, Nat.zero_lt_of_lt hn, Nat.one_dvd n⟩

section Sub

-- A sub-axis and an axis that refer to the same mesh axis.
variable (ha : a.Valid mesh) (ho : o.Valid mesh) (hi : a.meshAxisIndex = o.meshAxisIndex)
  (hs : o.subAxisInfo = some other) {n : Nat} (hn : 1 < n) (hsize : mesh.axisSize o.meshAxisIndex = n)

include ho hs hsize

theorem interval_dvd : other.interval.hi ∣ n :=
  hsize ▸ ho.nextPreSize_dvd hs

include hi

theorem canCoexist_iff : a.canCoexist o = true ↔ Compatible (a.interval hn) other.interval := by
  unfold canCoexist interval
  rw [if_neg (not_not.mpr hi), hs]
  cases a.subAxisInfo
  case none     => exact ⟨fun _ => compatible_of_dvd (Nat.one_dvd _) (interval_dvd ho hs hsize), fun _ => rfl⟩
  case some sub =>
    rw [compatible_iff sub.preSize_lt_nextPreSize other.preSize_lt_nextPreSize]
    simp only [canSubAxesCoexist, SubAxis.interval, gt_iff_lt, Nat.dvd_iff_mod_eq_zero]
    split <;> simp

theorem overlaps_eq_false_iff : a.overlaps o = false ↔ Separated (a.interval hn) other.interval := by
  unfold overlaps interval
  rw [if_neg (not_not.mpr hi), hs]
  have hlt := other.preSize_lt_nextPreSize
  have hpos := other.preSize_pos
  cases a.subAxisInfo
  case none     =>
    have := Nat.le_of_dvd (Nat.zero_lt_of_lt hn) (interval_dvd ho hs hsize)
    simp only [Separated, SubAxis.interval] at this ⊢
    grind
  case some sub =>
    simp only [Separated, SubAxis.interval]
    grind

end Sub

end AxisRef
end Sharding

namespace Sharding

open AxisRef

variable {mesh : Mesh} {a b : AxisRef} {axes seen : List AxisRef}

theorem AxisRef.canCoexistWithoutOverlap_comm : a.canCoexistWithoutOverlap b = b.canCoexistWithoutOverlap a := by
  unfold canCoexistWithoutOverlap
  by_cases hi : a.meshAxisIndex = b.meshAxisIndex
  case neg => rw [if_pos hi, if_pos (Ne.symm hi)]
  case pos =>
    rw [if_neg (not_not.mpr hi), if_neg (not_not.mpr hi.symm)]
    cases a.subAxisInfo <;> cases b.subAxisInfo <;> simp only [max_comm, min_comm, and_comm]

-- The axes can be used together.
structure UsableAxes (mesh : Mesh) (axes : List AxisRef) : Prop where
  valid   : ∀ a ∈ axes, a.Valid mesh
  coexist : axes.Pairwise fun a b => a.canCoexistWithoutOverlap b = true

theorem UsableAxes.perm {axes' : List AxisRef} (h : UsableAxes mesh axes) (hp : axes.Perm axes') : UsableAxes mesh axes' where
  valid a ha := h.valid a (hp.mem_iff.mpr ha)
  coexist    := hp.pairwise h.coexist fun h => canCoexistWithoutOverlap_comm.trans h

namespace VerifyNamedSharding

structure Tracked (mesh : Mesh) (seenAxes : SeenAxes) (seen : List AxisRef) : Prop extends UsableAxes mesh seen where
  seen_eq : ∀ i, seenAxes i = seen.filter (·.meshAxisIndex = i)

theorem tracked_nil : Tracked mesh (fun _ => []) [] where
  valid   := by simp
  coexist := .nil
  seen_eq := by simp

theorem verifyAndTrack_tracked {seenAxes seenAxes' : SeenAxes} (h : Tracked mesh seenAxes seen)
    (hv : verifyAndTrack a mesh seenAxes = .ok seenAxes') : Tracked mesh seenAxes' (seen ++ [a]) := by
  unfold verifyAndTrack at hv
  obtain ⟨_, ha, hv⟩ := Fallible.bind_eq_ok.mp hv
  split at hv
  case isTrue     => contradiction
  case isFalse hc =>
    obtain rfl := Except.ok.inj hv
    have hc : ∀ b ∈ seen, b.canCoexistWithoutOverlap a = true := by
      intro b hb
      by_cases hi : b.meshAxisIndex = a.meshAxisIndex
      case neg => simp [canCoexistWithoutOverlap, hi]
      case pos =>
        rw [h.seen_eq] at hc
        simp only [List.any_filter, List.any_eq_true, not_exists, not_and] at hc
        have := hc b hb
        rw [canCoexistWithoutOverlap_comm]
        simpa [hi] using this
    refine ⟨⟨?valid, ?coexist⟩, fun i => ?axes⟩
    case valid => exact List.forall_mem_append.mpr ⟨h.valid, List.forall_mem_singleton.mpr ha⟩
    case coexist => exact List.pairwise_append.mpr ⟨h.coexist, by simp, fun b hb => by simpa using hc b hb⟩
    case axes =>
      rw [Function.update_apply, List.filter_append]
      split
      case isTrue hi  => simp [hi, h.seen_eq]
      case isFalse hi => simp [Ne.symm hi, h.seen_eq]

theorem verifyAxes_tracked {seenAxes seenAxes' : SeenAxes} {prev : Option AxisRef} (h : Tracked mesh seenAxes seen)
    (hv : verifyAxes name mesh prev axes seenAxes = .ok seenAxes') : Tracked mesh seenAxes' (seen ++ axes) := by
  induction axes generalizing seen seenAxes prev
  case nil =>
    obtain rfl := Except.ok.inj hv
    simpa using h
  case cons a axes ih =>
    rw [verifyAxes] at hv
    obtain ⟨seenAxes, ha, hv⟩ := Fallible.bind_eq_ok.mp hv
    have h := verifyAndTrack_tracked h ha
    rw [List.append_cons]
    cases prev
    case none => exact ih h hv
    case some prev =>
      simp only at hv
      split at hv
      case isTrue  => contradiction
      case isFalse => exact ih h hv

theorem verifySortedAxes_tracked {seenAxes seenAxes' : SeenAxes} (h : Tracked mesh seenAxes seen)
    (hv : verifySortedAxes axes name mesh seenAxes = .ok seenAxes') : Tracked mesh seenAxes' (seen ++ axes) := by
  unfold verifySortedAxes at hv
  split at hv
  case isTrue  => contradiction
  case isFalse => exact verifyAxes_tracked h hv

theorem verifyDimShardings_tracked {ds : List DimensionSharding} {seenAxes seenAxes' : SeenAxes}
    (h : Tracked mesh seenAxes seen) (hv : verifyDimShardings mesh ds seenAxes = .ok seenAxes') :
    Tracked mesh seenAxes' (seen ++ ds.flatMap (·.axes)) := by
  induction ds generalizing seen seenAxes
  case nil =>
    obtain rfl := Except.ok.inj hv
    simpa using h
  case cons d ds ih =>
    obtain ⟨seenAxes, hd, hv⟩ := Fallible.bind_eq_ok.mp hv
    rw [List.flatMap_cons, ←List.append_assoc]
    exact ih (verifyAxes_tracked h hd) hv

end VerifyNamedSharding

namespace NamedSharding

variable {n : NamedSharding}

-- A sharding is valid, if the verification accepts it and all of its axes belong to the mesh. The verification itself
-- only rejects the indices that are too large.
structure Valid (n : NamedSharding) : Prop where
  verify       : verifyNamedSharding n = .ok ()
  axisSize_pos : ∀ i : Nat, i < n.mesh.numAxes → 0 < n.mesh.axisSize i
  index_nonneg : ∀ a ∈ n.usedAxes, 0 ≤ a.meshAxisIndex

open VerifyNamedSharding in
theorem Valid.usableAxes (h : n.Valid) : UsableAxes n.mesh n.usedAxes := by
  obtain ⟨_, hd, hv⟩ := Fallible.bind_eq_ok.mp h.verify
  obtain ⟨_, hr, hv⟩ := Fallible.bind_eq_ok.mp hv
  obtain ⟨_, hu, hv⟩ := Fallible.bind_eq_ok.mp hv
  obtain ⟨_, hm, _⟩ := Fallible.bind_eq_ok.mp hv
  have hd := verifyDimShardings_tracked tracked_nil hd
  have hm := verifySortedAxes_tracked (verifySortedAxes_tracked (verifySortedAxes_tracked hd hr) hu) hm
  refine hm.perm ?_
  rw [List.nil_append, usedAxes, List.perm_iff_count]
  intro a
  simp only [List.count_append]
  omega

end NamedSharding

end Sharding
