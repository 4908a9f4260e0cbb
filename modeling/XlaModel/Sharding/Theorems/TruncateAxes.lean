import XlaModel.Sharding.Theorems.MeshAndAxis

namespace Sharding

open DivisorInterval

namespace AxisRef

variable {mesh : Mesh} {a b o front s : AxisRef} {sub other : SubAxis} {others : List AxisRef}

-- The axis is the given one or a part of it that consists of its first factors.
structure Leading (mesh : Mesh) (s a : AxisRef) : Prop where
  index_eq   : s.meshAxisIndex = a.meshAxisIndex
  preSize_eq : s.preSize = a.preSize
  size_dvd   : s.size mesh ∣ a.size mesh

structure Safe (a o : AxisRef) : Prop where
  canCoexist : a.canCoexist o = true
  overlaps   : a.overlaps o = false

theorem Leading.refl (a : AxisRef) : Leading mesh a a where
  index_eq   := rfl
  preSize_eq := rfl
  size_dvd   := dvd_rfl

theorem Leading.trans (h₁ : Leading mesh s b) (h₂ : Leading mesh b a) : Leading mesh s a where
  index_eq   := h₁.index_eq.trans h₂.index_eq
  preSize_eq := h₁.preSize_eq.trans h₂.preSize_eq
  size_dvd   := h₁.size_dvd.trans h₂.size_dvd

theorem interval_lo {hn : 1 < n} : (a.interval hn).lo = a.preSize := by
  unfold interval preSize
  cases a.subAxisInfo <;> rfl

theorem interval_hi {hn : 1 < n} (hsize : mesh.axisSize a.meshAxisIndex = n) :
    (a.interval hn).hi = a.preSize * a.size mesh := by
  unfold interval preSize size
  cases a.subAxisInfo
  case none     => simp [hsize]
  case some sub => rfl

theorem preSize_pos : 0 < a.preSize := by
  unfold preSize
  cases a.subAxisInfo
  case none     => exact Nat.one_pos
  case some sub => exact sub.preSize_pos

theorem ofSubAxis_natCast {preSize size : Nat} (hp : 0 < preSize) (hs : 1 < size) :
    ofSubAxis i preSize size = some ⟨i, some ⟨preSize, size, hp, hs⟩⟩ := by
  have h : (0 : Int) < preSize ∧ (1 : Int) < size := by omega
  rw [ofSubAxis, dif_pos h]
  rfl

theorem leading_iff (hn : 1 < n) (hsize : mesh.axisSize a.meshAxisIndex = n) (hi : s.meshAxisIndex = a.meshAxisIndex) :
    Leading mesh s a ↔ (s.interval hn).Leading (a.interval hn) := by
  constructor
  case mp =>
    intro h
    refine ⟨by rw [interval_lo, interval_lo, h.preSize_eq], ?_⟩
    rw [interval_hi hsize, interval_hi (hi ▸ hsize), h.preSize_eq]
    exact Nat.mul_dvd_mul_left _ h.size_dvd
  case mpr =>
    intro h
    have hp := h.lo_eq
    rw [interval_lo, interval_lo] at hp
    have hd := h.dvd
    rw [interval_hi hsize, interval_hi (hi ▸ hsize), hp] at hd
    exact ⟨hi, hp, Nat.dvd_of_mul_dvd_mul_left preSize_pos hd⟩

theorem safe_of_index_ne (h : a.meshAxisIndex ≠ o.meshAxisIndex) : Safe a o where
  canCoexist := by simp [AxisRef.canCoexist, h]
  overlaps   := by simp [AxisRef.overlaps, h]

theorem overlaps_of_full (h : a.meshAxisIndex = o.meshAxisIndex) (ho : o.subAxisInfo = none) : a.overlaps o = true := by
  unfold AxisRef.overlaps
  rw [if_neg (not_not.mpr h), ho]
  cases a.subAxisInfo <;> rfl

theorem Valid.one_lt_axisSize (ho : o.Valid mesh) (hs : o.subAxisInfo = some other) : 1 < mesh.axisSize o.meshAxisIndex :=
  other.one_lt_size.trans (ho.size_lt hs)

section Sub

variable (ho : o.Valid mesh) (hs : o.subAxisInfo = some other) {n : Nat} (hn : 1 < n)
  (hsize : mesh.axisSize o.meshAxisIndex = n)

theorem interval_lt (a : AxisRef) (hn : 1 < n) : (a.interval hn).lo < (a.interval hn).hi := by
  unfold interval
  cases a.subAxisInfo
  case none     => exact hn
  case some sub => exact sub.preSize_lt_nextPreSize

include ho hs hsize

theorem safe_iff (hi : a.meshAxisIndex = o.meshAxisIndex) : Safe a o ↔
    Compatible (a.interval hn) other.interval ∧
    Separated (a.interval hn) other.interval := by
  rw [←canCoexist_iff ho hi hs hn hsize, ←overlaps_eq_false_iff ho hi hs hn hsize]
  exact ⟨fun h => ⟨h.1, h.2⟩, fun h => ⟨h.1, h.2⟩⟩

end Sub

-- The leading parts of an axis do not interfere with more axes than the axis.
theorem Leading.safe (h : Leading mesh s a) (ho : o.Valid mesh) (ha : Safe a o) : Safe s o := by
  by_cases hi : a.meshAxisIndex = o.meshAxisIndex
  case neg => exact safe_of_index_ne (h.index_eq ▸ hi)
  case pos =>
    rcases hs : o.subAxisInfo with _ | other
    case none => exact absurd (ha.overlaps.symm.trans (overlaps_of_full hi hs)) (by decide)
    case some =>
      have hn := ho.one_lt_axisSize hs
      have hl := (leading_iff hn (congrArg mesh.axisSize hi) h.index_eq).mp h
      have ⟨hc, hd⟩ := (safe_iff ho hs hn rfl hi).mp ha
      exact (safe_iff ho hs hn rfl (h.index_eq.trans hi)).mpr ⟨hl.compatible hc hd, hl.separated hd⟩

-- Where the axis ends, once it is cut in front of the other axes that start behind its start.
def reach (mesh : Mesh) (a : AxisRef) (others : List AxisRef) : Nat :=
  others.foldl
    (fun m o => if o.meshAxisIndex = a.meshAxisIndex ∧ a.preSize < o.preSize then min m o.preSize else m)
    (a.preSize * a.size mesh)

-- The part of the axis that ends at `m` coexists with the other axis.
def CoexistsUpTo (a : AxisRef) (m : Nat) (o : AxisRef) : Prop :=
  o.meshAxisIndex = a.meshAxisIndex → ∀ sub, o.subAxisInfo = some sub →
    canSubAxesCoexist (min a.preSize sub.preSize) (max a.preSize sub.preSize)
      (min m sub.nextPreSize) (max m sub.nextPreSize) = true

theorem coexistsUpTo_iff (ho : o.Valid mesh) : CoexistsUpTo a (a.reach mesh []) o ↔ a.canCoexist o = true := by
  rw [CoexistsUpTo, canCoexist, reach, List.foldl_nil]
  by_cases hi : a.meshAxisIndex = o.meshAxisIndex
  case neg => simp [hi, Ne.symm hi]
  case pos =>
    rw [if_neg (not_not.mpr hi)]
    rcases hs : o.subAxisInfo with _ | other
    case none => simp
    case some =>
      rcases has : a.subAxisInfo with _ | sub
      case some => simp [hi, preSize, size, has, SubAxis.nextPreSize]
      case none =>
        have hd := ho.nextPreSize_dvd hs
        have hlt := other.preSize_lt_nextPreSize
        have hle : other.nextPreSize ≤ mesh.axisSize o.meshAxisIndex :=
          Nat.le_of_dvd (Nat.zero_lt_of_lt (ho.one_lt_axisSize hs)) hd
        have hm : other.nextPreSize % other.preSize = 0 := by simp [SubAxis.nextPreSize]
        have hcs : canSubAxesCoexist (min 1 other.preSize) (max 1 other.preSize)
            (min (mesh.axisSize o.meshAxisIndex) other.nextPreSize)
            (max (mesh.axisSize o.meshAxisIndex) other.nextPreSize) = true := by
          have hp : 1 ≤ other.preSize := other.preSize_pos
          rw [min_eq_left hp, max_eq_right hp, min_eq_right hle, max_eq_left hle, canSubAxesCoexist, if_pos hlt]
          simp [hm, Nat.mod_one, Nat.mod_eq_zero_of_dvd hd]
        simpa [hi, preSize, size, has] using hcs

theorem reach_of_safe (h : Safe a o) : a.reach mesh [o] = a.reach mesh [] := by
  rw [reach, reach, List.foldl_cons, List.foldl_nil, List.foldl_nil]
  split_ifs with hc
  case neg => rfl
  case pos =>
    obtain ⟨hi, hlt⟩ := hc
    have ho := h.overlaps
    rw [overlaps, if_neg (not_not.mpr hi.symm)] at ho
    refine min_eq_left ?_
    rcases has : a.subAxisInfo with _ | sub
    case none => simp [has] at ho
    case some =>
      rcases hs : o.subAxisInfo with _ | other
      case none => simp [has, hs] at ho
      case some =>
        have := other.preSize_lt_nextPreSize
        simp only [has, hs, decide_eq_false_iff_not, not_and, not_lt] at ho
        simp only [preSize, size, has, hs, ←SubAxis.nextPreSize.eq_def] at hlt ⊢
        exact ho (hlt.trans this)

-- `front` is the longest leading part of `a` that does not interfere with the other axes.
structure Front (mesh : Mesh) (others : List AxisRef) (a front : AxisRef) : Prop where
  valid   : front.Valid mesh
  leading : Leading mesh front a
  safe    : ∀ o ∈ others, Safe front o
  longest : ∀ s, s.Valid mesh → Leading mesh s a → (∀ o ∈ others, Safe s o) → Leading mesh s front

namespace Front

theorem nil (ha : a.Valid mesh) : Front mesh [] a a where
  valid            := ha
  leading          := .refl a
  safe             := by simp
  longest _ _ hl _ := hl

theorem single_self (ha : a.Valid mesh) (h : Safe a o) : Front mesh [o] a a where
  valid            := ha
  leading          := .refl a
  safe             := by simpa using h
  longest _ _ hl _ := hl

theorem cons (ho : o.Valid mesh) (h₁ : Front mesh [o] a b) (h₂ : Front mesh others b front) :
    Front mesh (o :: others) a front where
  valid              := h₂.valid
  leading            := h₂.leading.trans h₁.leading
  safe               := by
    refine List.forall_mem_cons.mpr ⟨?_, h₂.safe⟩
    exact h₂.leading.safe ho (h₁.safe o (List.mem_singleton.mpr rfl))
  longest s hv hl hs := by
    have ⟨hs, hs'⟩ := List.forall_mem_cons.mp hs
    exact h₂.longest s hv (h₁.longest s hv hl (by simpa using hs)) hs'

end Front

section Cut

variable (ho : o.Valid mesh) (hi : a.meshAxisIndex = o.meshAxisIndex) (hs : o.subAxisInfo = some other)
  (hn : 1 < mesh.axisSize o.meshAxisIndex) (hc : Compatible (a.interval hn) other.interval)
  (hlt : (a.interval hn).lo < other.interval.lo)

include ho hi hs

-- The `CHECK` of the constructor does not fail.
theorem ofSubAxis_cut (ha : a.Valid mesh) : ∃ front,
    ofSubAxis a.meshAxisIndex a.preSize (other.preSize / a.preSize) = some front ∧
    front.meshAxisIndex = a.meshAxisIndex ∧ front.interval hn = cut hc hlt ∧ front.Valid mesh := by
  have hd : a.preSize ∣ other.preSize := interval_lo (a := a) ▸ (cut hc hlt).dvd
  have hlt' : a.preSize < other.preSize := interval_lo (a := a) ▸ hlt
  have hq : 1 < other.preSize / a.preSize := by
    refine Nat.lt_of_mul_lt_mul_left (a := a.preSize) ?_
    rwa [Nat.mul_div_cancel' hd, Nat.mul_one]
  refine ⟨⟨a.meshAxisIndex, some ⟨a.preSize, other.preSize / a.preSize, preSize_pos, hq⟩⟩,
      ?create, rfl, ?interval, ?valid⟩
  case create => rw [←Int.natCast_div, ofSubAxis_natCast preSize_pos hq]
  case interval => exact DivisorInterval.ext interval_lo.symm (Nat.mul_div_cancel' hd)
  case valid =>
    have hdvd : other.preSize ∣ mesh.axisSize a.meshAxisIndex :=
      hi ▸ (Dvd.intro _ rfl).trans (ho.nextPreSize_dvd hs)
    refine valid_iff.mpr ⟨(valid_iff.mp ha).1, fun sub hsub => ?_⟩
    obtain rfl := Option.some.inj hsub
    refine ⟨by rwa [SubAxis.nextPreSize, Nat.mul_div_cancel' hd], ?_⟩
    calc other.preSize / a.preSize
      _ ≤ other.preSize                  := Nat.div_le_self ..
      _ < other.nextPreSize              := other.preSize_lt_nextPreSize
      _ ≤ mesh.axisSize a.meshAxisIndex  := Nat.le_of_dvd (hi ▸ Nat.zero_lt_of_lt hn) (hi ▸ ho.nextPreSize_dvd hs)

theorem front_of_cut (hf : front.Valid mesh) (hfi : front.meshAxisIndex = a.meshAxisIndex)
    (hcut : front.interval hn = cut hc hlt) (hhi : other.preSize < (a.interval hn).hi) : Front mesh [o] a front where
  valid            := hf
  leading          := by
    rw [leading_iff hn (congrArg mesh.axisSize hi) hfi, hcut]
    exact cut_leading hc hlt hhi
  safe             := by
    rw [List.forall_mem_singleton, safe_iff ho hs hn rfl (hfi.trans hi), hcut]
    exact ⟨cut_compatible_self hc hlt, cut_separated hc hlt⟩
  longest s _ hl h := by
    have ⟨hcs, hds⟩ := (safe_iff ho hs hn rfl (hl.index_eq.trans hi)).mp (h o (List.mem_singleton.mpr rfl))
    have hl' := (leading_iff hn (congrArg mesh.axisSize hi) hl.index_eq).mp hl
    have hsize := congrArg mesh.axisSize (hfi.trans hi)
    rw [leading_iff hn hsize (hl.index_eq.trans hfi.symm), hcut]
    exact hl'.of_separated hc hlt hcs hds

end Cut

-- All possible results of `getPrefixWithoutOverlap`.
theorem getPrefixWithoutOverlap_cases (ha : a.Valid mesh) (ho : o.Valid mesh) :
    (∃ front, a.getPrefixWithoutOverlap o = some (some front) ∧ Front mesh [o] a front ∧
      a.canCoexist o = true ∧ front.reach mesh [] = a.reach mesh [o]) ∨
    a.getPrefixWithoutOverlap o = some none ∧ (a.canCoexist o → ∀ s, Leading mesh s a → ¬Safe s o) := by
  unfold getPrefixWithoutOverlap
  by_cases hc : a.canCoexist o = true
  case neg => exact .inr (by simp [hc])
  case pos =>
    by_cases hv : a.overlaps o = true
    case neg =>
      have hv := eq_false_of_ne_true hv
      exact .inl ⟨a, by simp [hc, hv], .single_self ha ⟨hc, hv⟩, hc, (reach_of_safe ⟨hc, hv⟩).symm⟩
    case pos =>
      have hi : a.meshAxisIndex = o.meshAxisIndex := by
        by_contra h
        simp [overlaps, h] at hv
      rcases hs : o.subAxisInfo with _ | other
      case none =>
        have hp : o.preSize ≤ a.preSize := by
          rw [preSize.eq_def o, hs]
          exact preSize_pos
        refine .inr ⟨by simp [hc, hv, hp], fun _ s hl h => ?_⟩
        have hov := overlaps_of_full (hl.index_eq.trans hi) hs
        exact absurd (h.overlaps.symm.trans hov) (by decide)
      case some =>
        have hn := ho.one_lt_axisSize hs
        have hp : other.interval.lo = o.preSize := by rw [preSize, hs]; rfl
        have hsep : ¬Separated (a.interval hn) other.interval := by
          rw [←overlaps_eq_false_iff ho hi hs hn rfl, hv]
          decide
        have ⟨h₁, h₂⟩ := not_or.mp hsep
        by_cases hlt : a.preSize < o.preSize
        case pos =>
          have hlt' : (a.interval hn).lo < other.interval.lo := by rwa [interval_lo, hp]
          have hc' := (canCoexist_iff ho hi hs hn rfl).mp hc
          have ⟨front, hf, hfi, hcut, hfv⟩ := ofSubAxis_cut ho hi hs hn hc' hlt' ha
          have hr : front.reach mesh [] = a.reach mesh [o] := by
            have hsize := congrArg mesh.axisSize hi
            have hend := h₁
            rw [interval_hi hsize, hp] at hend
            calc front.reach mesh []
              _ = (front.interval hn).hi := (interval_hi (congrArg mesh.axisSize (hfi.trans hi))).symm
              _ = o.preSize              := by rw [hcut, ←hp]; rfl
              _ = a.reach mesh [o]       := by simp [reach, hi, hlt, (not_le.mp hend).le]
          refine .inl ⟨front, ?_, front_of_cut ho hi hs hn hc' hlt' hfv hfi hcut (not_le.mp h₁), hc, hr⟩
          have hf : ofSubAxis a.meshAxisIndex a.preSize (o.preSize / a.preSize) = some front := hp ▸ hf
          simp [hc, hv, hlt, hf]
        case neg =>
          refine .inr ⟨by simp [hc, hv, not_lt.mp hlt], fun _ s hl h => ?_⟩
          have hl' := (leading_iff hn (congrArg mesh.axisSize hi) hl.index_eq).mp hl
          have hd := (safe_iff ho hs hn rfl (hl.index_eq.trans hi)).mp h |>.2
          refine not_separated_of_le (interval_lt s hn) ?_ ?_ hd
          · rw [interval_lo, hl.preSize_eq, hp]
            exact not_lt.mp hlt
          · exact hl'.lo_eq ▸ not_le.mp h₂

theorem getPrefixWithoutOverlaps_cases (ha : a.Valid mesh) (ho : ∀ o ∈ others, o.Valid mesh) :
    (∃ front, getPrefixWithoutOverlaps others a = some (some front) ∧ Front mesh others a front) ∨
    getPrefixWithoutOverlaps others a = some none := by
  induction others generalizing a
  case nil => exact .inl ⟨a, rfl, .nil ha⟩
  case cons o others hi =>
    have ⟨ho, hos⟩ := List.forall_mem_cons.mp ho
    simp only [getPrefixWithoutOverlaps]
    cases getPrefixWithoutOverlap_cases ha ho
    case inr h => exact .inr (by simp [h.1])
    case inl h =>
      obtain ⟨b, h, hb, -⟩ := h
      simp only [h]
      refine (hi hb.valid hos).imp_left ?_
      rintro ⟨front, hf, hfront⟩
      exact ⟨front, hf, hb.cons ho hfront⟩

theorem reach_cons (hi : b.meshAxisIndex = a.meshAxisIndex) (hp : b.preSize = a.preSize)
    (hr : b.reach mesh [] = a.reach mesh [o]) : b.reach mesh others = a.reach mesh (o :: others) := by
  simp only [reach, List.foldl_cons, List.foldl_nil] at hr ⊢
  rw [hr, hi, hp]

-- Some leading part of the axis does not interfere with the other axes.
def HasSafePart (mesh : Mesh) (others : List AxisRef) (a : AxisRef) : Prop :=
  ∃ s, s.Valid mesh ∧ Leading mesh s a ∧ ∀ o ∈ others, Safe s o

-- Each of the other axes coexists with the part of the axis that the preceding ones leave.
def CoexistsCut (mesh : Mesh) (others : List AxisRef) (a : AxisRef) : Prop :=
  ∀ earlier o later, others = earlier ++ o :: later → CoexistsUpTo a (a.reach mesh earlier) o

theorem coexistsCut_cons : CoexistsCut mesh (o :: others) a ↔
    CoexistsUpTo a (a.reach mesh []) o ∧
      ∀ earlier o' later, others = earlier ++ o' :: later → CoexistsUpTo a (a.reach mesh (o :: earlier)) o' := by
  constructor
  case mp =>
    intro h
    refine ⟨h [] o others rfl, fun earlier o' later he => h (o :: earlier) o' later ?_⟩
    rw [he, List.cons_append]
  case mpr =>
    rintro ⟨h, hs⟩ earlier o' later he
    cases earlier
    case nil =>
      obtain ⟨rfl, -⟩ := List.cons.inj he
      exact h
    case cons e earlier =>
      obtain ⟨rfl, ht⟩ := List.cons.inj he
      exact hs earlier o' later ht

-- A safe part of the axis is only lost, if the axis does not coexist with one of the others.
theorem getPrefixWithoutOverlaps_isSome_iff (ha : a.Valid mesh) (ho : ∀ o ∈ others, o.Valid mesh)
    (hs : HasSafePart mesh others a) :
    (∃ front, getPrefixWithoutOverlaps others a = some (some front)) ↔ CoexistsCut mesh others a := by
  induction others generalizing a
  case nil => exact ⟨fun _ earlier o later he => by simp at he, fun _ => ⟨a, rfl⟩⟩
  case cons o others hi =>
    have ⟨ho, hos⟩ := List.forall_mem_cons.mp ho
    obtain ⟨s, hv, hl, hsafe⟩ := hs
    have ⟨hso, hss⟩ := List.forall_mem_cons.mp hsafe
    rw [coexistsCut_cons, coexistsUpTo_iff ho]
    simp only [getPrefixWithoutOverlaps]
    cases getPrefixWithoutOverlap_cases ha ho
    case inr h =>
      refine ⟨by simp [h.1], fun hc => ?_⟩
      exact absurd hso (h.2 hc.1 s hl)
    case inl h =>
      obtain ⟨b, h, hb, hc, hr⟩ := h
      have hlb := hb.leading
      have hsb : HasSafePart mesh others b := ⟨s, hv, hb.longest s hv hl (by simpa using hso), hss⟩
      simp only [h]
      refine (hi hb.valid hos hsb).trans ?_
      rw [CoexistsCut, and_iff_right hc]
      refine forall₄_congr fun earlier o' later _ => ?_
      rw [CoexistsUpTo, CoexistsUpTo, reach_cons hlb.index_eq hlb.preSize_eq hr, hlb.index_eq, hlb.preSize_eq]

theorem Leading.antisymm (h₁ : Leading mesh a b) (h₂ : Leading mesh b a) (ha : a.Valid mesh) (hb : b.Valid mesh) :
    a = b := by
  have hsize := Nat.dvd_antisymm h₁.size_dvd h₂.size_dvd
  have hp := h₁.preSize_eq
  have hi := h₁.index_eq
  rw [AxisRef.mk.injEq]
  refine ⟨hi, ?_⟩
  unfold size at hsize
  unfold preSize at hp
  rcases has : a.subAxisInfo with _ | sub <;> rcases hbs : b.subAxisInfo with _ | other <;>
    simp only [has, hbs, hi] at hsize hp
  case none.none => rfl
  case none.some =>
    have := hb.size_lt hbs
    omega
  case some.none =>
    have := hi ▸ ha.size_lt has
    omega
  case some.some =>
    cases sub
    cases other
    simp_all

theorem Front.eq_of_safe (h : Front mesh others a b) (ha : a.Valid mesh) (hs : ∀ o ∈ others, Safe a o) : a = b :=
  (h.longest a ha (.refl a) hs).antisymm h.leading ha h.valid

end AxisRef

open AxisRef

-- Whole leading axes, possibly followed by a leading part of the next axis.
inductive AxesPrefix (mesh : Mesh) : List AxisRef → List AxisRef → Prop
  | nil  : AxesPrefix mesh [] axes
  | part : Leading mesh s a → AxesPrefix mesh [s] (a :: axes)
  | cons : AxesPrefix mesh front axes → AxesPrefix mesh (a :: front) (a :: axes)

variable {mesh : Mesh} {axes others : List AxisRef}

-- The longest prefix of the axes that does not interfere with the other axes.
structure LongestSafePrefix (mesh : Mesh) (others axes result : List AxisRef) : Prop where
  isPrefix : AxesPrefix mesh result axes
  safe     : ∀ a ∈ result, a.Valid mesh ∧ ∀ o ∈ others, Safe a o
  longest  : ∀ front, AxesPrefix mesh front axes → (∀ a ∈ front, a.Valid mesh ∧ ∀ o ∈ others, Safe a o) →
    AxesPrefix mesh front result

namespace LongestSafePrefix

theorem cons_iff (ha : a.Valid mesh) (hs : ∀ o ∈ others, Safe a o) {result : List AxisRef} :
    LongestSafePrefix mesh others (a :: axes) (a :: result) ↔ LongestSafePrefix mesh others axes result := by
  constructor
  case mp =>
    rintro ⟨hp, hsafe, hl⟩
    refine ⟨?isPrefix, (List.forall_mem_cons.mp hsafe).2, fun front hf hsf => ?longest⟩
    case isPrefix =>
      cases hp
      case part => exact .nil
      case cons hp => exact hp
    case longest =>
      have := hl (a :: front) (.cons hf) (List.forall_mem_cons.mpr ⟨⟨ha, hs⟩, hsf⟩)
      cases this
      case part => exact .nil
      case cons h => exact h
  case mpr =>
    rintro ⟨hp, hsafe, hl⟩
    refine ⟨.cons hp, List.forall_mem_cons.mpr ⟨⟨ha, hs⟩, hsafe⟩, fun front hf hsf => ?_⟩
    cases hf
    case nil          => exact .nil
    case part hl      => exact .part hl
    case cons front h => exact .cons (hl front h (List.forall_mem_cons.mp hsf).2)

-- Nothing is left, exactly if the first axis has no safe part.
theorem nil_iff : LongestSafePrefix mesh others (a :: axes) [] ↔ ¬HasSafePart mesh others a := by
  constructor
  case mp =>
    rintro ⟨-, -, hl⟩ ⟨s, hv, hs, hsafe⟩
    nomatch hl [s] (.part hs) (by simpa using ⟨hv, hsafe⟩)
  case mpr =>
    intro hn
    refine ⟨.nil, by simp, fun front hf hsf => ?_⟩
    cases hf
    case nil => exact .nil
    case part s hl =>
      have ⟨hv, hs⟩ := hsf s List.mem_cons_self
      exact absurd ⟨s, hv, hl, hs⟩ hn
    case cons front _ =>
      have ⟨hv, hs⟩ := hsf a List.mem_cons_self
      exact absurd ⟨a, hv, .refl a, hs⟩ hn

-- The part of the first axis is the last one, if the rest of the axis interferes with another axis.
theorem part (hb : Front mesh others a b) (hab : a ≠ b) : LongestSafePrefix mesh others (a :: axes) [b] := by
  refine ⟨.part hb.leading, by simpa using ⟨hb.valid, hb.safe⟩, fun front hf hsf => ?_⟩
  cases hf
  case nil => exact .nil
  case part s hl =>
    have ⟨hv, hs⟩ := hsf s List.mem_cons_self
    exact .part (hb.longest s hv hl hs)
  case cons front _ =>
    have ⟨hv, hs⟩ := hsf a List.mem_cons_self
    exact absurd (hb.eq_of_safe hv hs) hab

end LongestSafePrefix

-- The axes are cut to a prefix that does not interfere with the other axes.
theorem truncateAxesByRemovingOverlaps_spec (ha : ∀ a ∈ axes, a.Valid mesh) (ho : ∀ o ∈ others, o.Valid mesh) :
    ∃ result changed, truncateAxesByRemovingOverlaps others axes = some (result, changed) ∧
      AxesPrefix mesh result axes ∧ (∀ a ∈ result, a.Valid mesh ∧ ∀ o ∈ others, Safe a o) ∧
      (changed = true ↔ result ≠ axes) := by
  induction axes
  case nil => exact ⟨[], false, rfl, .nil, by simp, by simp⟩
  case cons a axes hi =>
    have ⟨ha, has⟩ := List.forall_mem_cons.mp ha
    simp only [truncateAxesByRemovingOverlaps]
    cases getPrefixWithoutOverlaps_cases ha ho
    case inr h => exact ⟨[], true, by simp [h], .nil, by simp, by simp⟩
    case inl h =>
      obtain ⟨b, h, hb⟩ := h
      by_cases hab : a = b
      case neg =>
        have hl : LongestSafePrefix mesh others (a :: axes) [b] := .part hb hab
        exact ⟨[b], true, by simp [h, hab], hl.isPrefix, hl.safe, by simp [Ne.symm hab]⟩
      case pos =>
        subst hab
        obtain ⟨result, changed, hr, hp, hs, hch⟩ := hi has
        refine ⟨a :: result, changed, by simp [h, hr], .cons hp, ?_, by simpa using hch⟩
        exact List.forall_mem_cons.mpr ⟨⟨ha, hb.safe⟩, hs⟩

-- The first axis that interferes with another one either has no safe part, or is cut to axes that coexist.
def Truncatable (mesh : Mesh) (others axes : List AxisRef) : Prop :=
  ∀ front a back, axes = front ++ a :: back → (∀ b ∈ front, ∀ o ∈ others, Safe b o) →
    HasSafePart mesh others a → CoexistsCut mesh others a

theorem truncatable_cons : Truncatable mesh others (a :: axes) ↔
    (HasSafePart mesh others a → CoexistsCut mesh others a) ∧
      ((∀ o ∈ others, Safe a o) → Truncatable mesh others axes) := by
  constructor
  case mp =>
    intro h
    refine ⟨h [] a axes rfl (by simp), fun ha front b back he hf => ?_⟩
    exact h (a :: front) b back (by rw [he]; rfl) (List.forall_mem_cons.mpr ⟨ha, hf⟩)
  case mpr =>
    rintro ⟨ha, hs⟩ front b back he hf
    cases front
    case nil =>
      obtain ⟨rfl, -⟩ := List.cons.inj he
      exact ha
    case cons c front =>
      obtain ⟨rfl, ht⟩ := List.cons.inj he
      have ⟨hc, hf⟩ := List.forall_mem_cons.mp hf
      exact hs hc front b back ht hf

-- The result is the longest safe prefix, exactly if no safe part is lost as the axes do not coexist.
theorem truncateAxesByRemovingOverlaps_longest_iff (ha : ∀ a ∈ axes, a.Valid mesh) (ho : ∀ o ∈ others, o.Valid mesh) :
    (∃ result changed, truncateAxesByRemovingOverlaps others axes = some (result, changed) ∧
      LongestSafePrefix mesh others axes result ∧ (changed = true ↔ result ≠ axes)) ↔ Truncatable mesh others axes := by
  induction axes
  case nil =>
    refine ⟨fun _ front a back he => by simp at he, fun _ => ⟨[], false, rfl, ⟨.nil, by simp, fun _ hf _ => hf⟩, by simp⟩⟩
  case cons a axes hi =>
    have ⟨ha, has⟩ := List.forall_mem_cons.mp ha
    rw [truncatable_cons]
    cases getPrefixWithoutOverlaps_cases ha ho
    case inr h =>
      have hr : truncateAxesByRemovingOverlaps others (a :: axes) = some ([], true) := by
        simp [truncateAxesByRemovingOverlaps, h]
      have hlost (hs : HasSafePart mesh others a) : ¬CoexistsCut mesh others a := by
        rw [←getPrefixWithoutOverlaps_isSome_iff ha ho hs]
        simp [h]
      simp only [hr, Option.some.injEq, Prod.mk.injEq]
      constructor
      case mp =>
        rintro ⟨_, _, ⟨rfl, rfl⟩, hl, -⟩
        have hn := LongestSafePrefix.nil_iff.mp hl
        exact ⟨fun hs => absurd hs hn, fun hs => absurd ⟨a, ha, .refl a, hs⟩ hn⟩
      case mpr =>
        rintro ⟨hc, -⟩
        exact ⟨_, _, ⟨rfl, rfl⟩, LongestSafePrefix.nil_iff.mpr fun hs => hlost hs (hc hs), by simp⟩
    case inl h =>
      obtain ⟨b, h, hb⟩ := h
      have hkept (hs : HasSafePart mesh others a) : CoexistsCut mesh others a :=
        (getPrefixWithoutOverlaps_isSome_iff ha ho hs).mp ⟨b, h⟩
      rw [and_iff_right hkept]
      by_cases hab : a = b
      case neg =>
        refine ⟨fun _ hs => absurd (hb.eq_of_safe ha hs) hab, fun _ => ?_⟩
        exact ⟨[b], true, by simp [truncateAxesByRemovingOverlaps, h, hab], .part hb hab, by simp [Ne.symm hab]⟩
      case pos =>
        subst hab
        obtain ⟨result, changed, hr, -⟩ := truncateAxesByRemovingOverlaps_spec has ho
        have hr' : truncateAxesByRemovingOverlaps others (a :: axes) = some (a :: result, changed) := by
          simp [truncateAxesByRemovingOverlaps, h, hr]
        rw [forall_prop_of_true hb.safe, ←hi has]
        simp only [hr, hr', Option.some.injEq, Prod.mk.injEq]
        constructor
        case mp =>
          rintro ⟨_, _, ⟨rfl, rfl⟩, hl, hch⟩
          exact ⟨_, _, ⟨rfl, rfl⟩, (LongestSafePrefix.cons_iff ha hb.safe).mp hl, by simpa using hch⟩
        case mpr =>
          rintro ⟨_, _, ⟨rfl, rfl⟩, hl, hch⟩
          exact ⟨_, _, ⟨rfl, rfl⟩, (LongestSafePrefix.cons_iff ha hb.safe).mpr hl, by simpa using hch⟩

-- A mesh with a single axis.
def singleAxisMesh (size : Nat) : Mesh where
  deviceAssignment := .ofIota (.createTrivial [size])
  axesNames        := ["x"]

def subAxis (preSize size : Nat) (hp : 0 < preSize := by decide) (hs : 1 < size := by decide) : AxisRef where
  meshAxisIndex := 0
  subAxisInfo   := some ⟨preSize, size, hp, hs⟩

theorem truncateAxesByRemovingOverlaps_longest_iff_full :
    (∃ result changed, truncateAxesByRemovingOverlaps [subAxis 2 2] [⟨0, none⟩] = some (result, changed) ∧
      LongestSafePrefix (singleAxisMesh 8) [subAxis 2 2] [⟨0, none⟩] result ∧
      (changed = true ↔ result ≠ [⟨0, none⟩])) ∧
    truncateAxesByRemovingOverlaps [subAxis 2 2] [⟨0, none⟩] = some ([subAxis 1 2], true) := by
  have ha : ∀ a ∈ [⟨0, none⟩], Valid (singleAxisMesh 8) a := List.forall_mem_singleton.mpr rfl
  have ho : ∀ o ∈ [subAxis 2 2], Valid (singleAxisMesh 8) o := List.forall_mem_singleton.mpr rfl
  refine ⟨(truncateAxesByRemovingOverlaps_longest_iff ha ho).mpr ?_, by rfl⟩
  have hc : CoexistsUpTo ⟨0, none⟩ (reach (singleAxisMesh 8) ⟨0, none⟩ []) (subAxis 2 2) :=
    (coexistsUpTo_iff (ho _ List.mem_cons_self)).mpr rfl
  refine truncatable_cons.mpr ⟨fun _ => coexistsCut_cons.mpr ⟨hc, ?others⟩, fun _ => ?axes⟩
  case others =>
    intro earlier o later he
    simp at he
  case axes =>
    intro front a back he
    simp at he

-- The first factor of the axis precedes the other axis, but the axes do not coexist.
theorem truncateAxesByRemovingOverlaps_not_longest :
    Valid (singleAxisMesh 12) (subAxis 1 4) ∧ Valid (singleAxisMesh 12) (subAxis 2 3) ∧
    truncateAxesByRemovingOverlaps [subAxis 2 3] [subAxis 1 4] = some ([], true) ∧
    ¬∃ result changed, truncateAxesByRemovingOverlaps [subAxis 2 3] [subAxis 1 4] = some (result, changed) ∧
      LongestSafePrefix (singleAxisMesh 12) [subAxis 2 3] [subAxis 1 4] result ∧
      (changed = true ↔ result ≠ [subAxis 1 4]) := by
  refine ⟨rfl, rfl, rfl, ?_⟩
  rintro ⟨_, _, ⟨rfl, rfl⟩, hl, -⟩
  have hv : Valid (singleAxisMesh 12) (subAxis 1 2)                 := rfl
  have hp : Leading (singleAxisMesh 12) (subAxis 1 2) (subAxis 1 4) := ⟨rfl, rfl, by decide⟩
  have hs : ∀ o ∈ [subAxis 2 3], Safe (subAxis 1 2) o               := List.forall_mem_singleton.mpr ⟨rfl, rfl⟩
  exact LongestSafePrefix.nil_iff.mp hl ⟨_, hv, hp, hs⟩

end Sharding
