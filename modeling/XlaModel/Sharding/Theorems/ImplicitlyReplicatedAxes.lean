import XlaModel.Sharding.Theorems.TruncateAxes
import XlaModel.Sharding.Theorems.MeshAndAxis

namespace Sharding

open DivisorInterval AxisRef

namespace AxisRef

variable {mesh : Mesh} {a b : AxisRef}

-- Two used pieces of a mesh axis are sub-axes, and the first one ends at a divisor of the start of the second one.
theorem dvd_of_canCoexistWithoutOverlap (hi : a.meshAxisIndex = b.meshAxisIndex)
    (h : a.canCoexistWithoutOverlap b = true) (hlt : b.lt a = false) :
    ∃ sub other, a.subAxisInfo = some sub ∧ b.subAxisInfo = some other ∧ sub.nextPreSize ∣ other.preSize := by
  unfold canCoexistWithoutOverlap at h
  unfold lt at hlt
  rw [if_neg (not_not.mpr hi)] at h
  rw [if_neg (not_not.mpr hi.symm)] at hlt
  rcases ha : a.subAxisInfo with _ | sub <;> rcases hb : b.subAxisInfo with _ | other <;> simp only [ha, hb] at h hlt
  case some.some =>
    refine ⟨sub, other, rfl, rfl, ?_⟩
    have hs := sub.preSize_lt_nextPreSize
    have ho := other.preSize_lt_nextPreSize
    split at h
    case isTrue     => contradiction
    case isFalse hv =>
      have hle : sub.preSize ≤ other.preSize := by
        split at hlt <;> simp only [decide_eq_false_iff_not] at hlt <;> omega
      have hnext : sub.nextPreSize ≤ other.preSize := by omega
      rw [max_eq_right hle, min_eq_left (by omega)] at h
      exact Nat.dvd_of_mod_eq_zero (of_decide_eq_true h)
  all_goals contradiction

end AxisRef

-- The used pieces of a mesh axis in the order in which they are visited.
structure UsedPieces (mesh : Mesh) (i : Int) (pieces : List AxisRef) : Prop where
  index : ∀ a ∈ pieces, a.meshAxisIndex = i
  valid : ∀ a ∈ pieces, a.Valid mesh
  chain : pieces.Pairwise fun a b => a.canCoexistWithoutOverlap b = true ∧ b.lt a = false

theorem UsedPieces.tail (h : UsedPieces mesh i (a :: pieces)) : UsedPieces mesh i pieces where
  index := (List.forall_mem_cons.mp h.index).2
  valid := (List.forall_mem_cons.mp h.valid).2
  chain := (List.pairwise_cons.mp h.chain).2

-- The pieces of a mesh axis that are not used.
structure Complement (mesh : Mesh) (i : Int) (pieces gaps : List AxisRef) : Prop where
  index       : ∀ g ∈ gaps, g.meshAxisIndex = i
  valid       : ∀ g ∈ gaps, g.Valid mesh
  sorted      : gaps.Pairwise fun g g' => g.lt g' = true
  overlaps    : gaps.Pairwise fun g g' => g.overlaps g' = false
  canMerge    : gaps.Pairwise fun g g' => g.canMerge g' = false
  disjoint    : ∀ g ∈ gaps, ∀ a ∈ pieces, g.overlaps a = false
  one_lt_size : ∀ g ∈ gaps, 1 < g.size mesh
  size        : (pieces.map (·.size mesh)).prod * (gaps.map (·.size mesh)).prod = mesh.axisSize i

section Interval

variable {mesh : Mesh} {a b : AxisRef} {n : Nat} {pieces gaps : List AxisRef}

theorem interval_size (hn : 1 < n) (hsize : mesh.axisSize a.meshAxisIndex = n) : (a.interval hn).size = a.size mesh := by
  rw [DivisorInterval.size, interval_hi hsize, interval_lo, Nat.mul_div_cancel_left _ preSize_pos]

theorem interval_hi_dvd (hn : 1 < n) (ha : a.Valid mesh) (hsize : mesh.axisSize a.meshAxisIndex = n) :
    (a.interval hn).hi ∣ n := by
  unfold interval
  rcases hs : a.subAxisInfo with _ | sub
  case none => exact dvd_rfl
  case some => exact interval_dvd ha hs hsize

theorem overlaps_of_separated (hn : 1 < n) (ha : a.Valid mesh) (hb : b.Valid mesh)
    (hi : a.meshAxisIndex = b.meshAxisIndex) (hsize : mesh.axisSize b.meshAxisIndex = n)
    (h : Separated (a.interval hn) (b.interval hn)) : a.overlaps b = false := by
  rcases hs : b.subAxisInfo with _ | sub
  case none =>
    -- The full axis is not separated from any other axis.
    have hb : b.interval hn = ⟨1, n, Nat.one_pos, Nat.zero_lt_of_lt hn, Nat.one_dvd n⟩ := by rw [interval, hs]
    have hlo := (a.interval hn).lo_pos
    have hlt := interval_lt a hn
    have hle := Nat.le_of_dvd (Nat.zero_lt_of_lt hn) (interval_hi_dvd hn ha (hi ▸ hsize))
    rw [hb] at h
    cases h
    case inl h =>
      simp only at h
      omega
    case inr h =>
      simp only at h
      omega
  case some =>
    have hb : b.interval hn = sub.interval := by rw [interval, hs]
    exact (overlaps_eq_false_iff ‹_› hi hs hn hsize).mpr (hb ▸ h)

theorem subs_of_interval_lt (hn : 1 < n) (hb : b.Valid mesh) (hsize : mesh.axisSize b.meshAxisIndex = n)
    (h : (a.interval hn).hi < (b.interval hn).lo) :
    ∃ sub other, a.subAxisInfo = some sub ∧ b.subAxisInfo = some other ∧ sub.nextPreSize < other.preSize := by
  have hlo := (a.interval hn).lo_pos
  have hle := (a.interval hn).le
  have hlt := interval_lt b hn
  have hdvd := Nat.le_of_dvd (Nat.zero_lt_of_lt hn) (interval_hi_dvd hn hb hsize)
  rcases ha : a.subAxisInfo with _ | sub <;> rcases hb : b.subAxisInfo with _ | other <;>
    simp only [interval, ha, hb] at h hlo hle hlt hdvd
  case some.some => exact ⟨sub, other, rfl, rfl, h⟩
  all_goals omega

theorem ordered_of_interval_lt (hn : 1 < n) (hb : b.Valid mesh) (hi : a.meshAxisIndex = b.meshAxisIndex)
    (hsize : mesh.axisSize b.meshAxisIndex = n) (h : (a.interval hn).hi < (b.interval hn).lo) :
    a.lt b = true ∧ a.overlaps b = false ∧ a.canMerge b = false := by
  have ⟨sub, other, hs, ho, hlt⟩ := subs_of_interval_lt hn hb hsize h
  have h₁ := sub.preSize_lt_nextPreSize
  have h₂ := hlt.trans other.preSize_lt_nextPreSize
  refine ⟨?lt, ?overlaps, ?canMerge⟩
  case lt => simp [lt, hi, hs, ho, (h₁.trans hlt).ne, h₁.trans hlt]
  case overlaps => simp [overlaps, hi, hs, ho, hlt.le]
  case canMerge => simp [canMerge, hi, hs, ho, hlt.ne]

theorem one_lt_size (hn : 1 < n) (hsize : mesh.axisSize a.meshAxisIndex = n) : 1 < a.size mesh := by
  unfold AxisRef.size
  cases a.subAxisInfo
  case none     => exact hsize ▸ hn
  case some sub => exact sub.one_lt_size

theorem map_interval_size (hn : 1 < n) (hsize : mesh.axisSize i = n) (h : ∀ a ∈ pieces, a.meshAxisIndex = i) :
    (pieces.map (·.interval hn)).map DivisorInterval.size = pieces.map (·.size mesh) := by
  rw [List.map_map]
  exact List.map_congr_left fun a ha => interval_size hn (h a ha ▸ hsize)

theorem complement_of_intervals (hn : 1 < n) (hsize : mesh.axisSize i = n) (hp : UsedPieces mesh i pieces)
    (hi : ∀ g ∈ gaps, g.meshAxisIndex = i) (hv : ∀ g ∈ gaps, g.Valid mesh)
    (hlt : (gaps.map (·.interval hn)).Pairwise (·.hi < ·.lo))
    (hsep : ∀ g ∈ gaps, ∀ a ∈ pieces, Separated (g.interval hn) (a.interval hn))
    (hprod : (pieces.map (·.size mesh)).prod * (gaps.map (·.size mesh)).prod = n) :
    Complement mesh i pieces gaps := by
  have hordered : gaps.Pairwise fun g g' => g.lt g' = true ∧ g.overlaps g' = false ∧ g.canMerge g' = false := by
    refine (List.pairwise_map.mp hlt).imp_of_mem fun hg hg' h => ?_
    exact ordered_of_interval_lt hn (hv _ hg') ((hi _ hg).trans (hi _ hg').symm) (hi _ hg' ▸ hsize) h
  exact {
    index       := hi
    valid       := hv
    sorted      := hordered.imp And.left
    overlaps    := hordered.imp fun h => h.2.1
    canMerge    := hordered.imp fun h => h.2.2
    disjoint    := fun g hg a ha => overlaps_of_separated hn (hv g hg) (hp.valid a ha)
      ((hi g hg).trans (hp.index a ha).symm) (hp.index a ha ▸ hsize) (hsep g hg a ha)
    one_lt_size := fun g hg => one_lt_size hn (hi g hg ▸ hsize)
    size        := hsize ▸ hprod
  }

end Interval

namespace NamedSharding.GetImplicitlyReplicatedAxes

variable {mesh : Mesh} {n : Nat} {axes pieces rest : List AxisRef} {i : Nat}

theorem visitUsed_rest (hrest : ∀ a ∈ rest.head?, a.meshAxisIndex ≠ i) :
    visitUsed mesh i axes pre rest = some (⟨rest, axes⟩, pre) := by
  cases rest
  case nil => rfl
  case cons a rest =>
    have h : a.meshAxisIndex ≠ i := hrest a rfl
    simp [visitUsed, h]

theorem pieceEnd_eq (hn : 1 < n) {a : AxisRef} (hsize : mesh.axisSize i = n) :
    pieceEnd mesh i a = (a.interval hn).hi := by
  unfold pieceEnd interval
  cases a.subAxisInfo
  case none     => exact hsize
  case some sub => rfl

-- The piece of a mesh axis that precedes a used piece.
theorem ofSubAxis_gap (hi : i < mesh.numAxes) (hn : 1 < n) (hsize : mesh.axisSize i = n) {pre stop : Nat} (hpos : 0 < pre)
    (hlt : pre < stop) (hd : pre ∣ stop) (hstop : stop ∣ n) (hne : stop < n ∨ 1 < pre) :
    ∃ g, ofSubAxis i pre (stop / pre : Nat) = some g ∧ g.meshAxisIndex = i ∧ g.Valid mesh ∧
      (g.interval hn).lo = pre ∧ (g.interval hn).hi = stop := by
  have hq : 1 < stop / pre := by
    refine Nat.lt_of_mul_lt_mul_left (a := pre) ?_
    rwa [Nat.mul_div_cancel' hd, Nat.mul_one]
  refine ⟨_, ofSubAxis_natCast hpos hq, rfl, ?_, rfl, Nat.mul_div_cancel' hd⟩
  refine valid_iff.mpr ⟨Int.ofNat_lt.mpr hi, fun sub hsub => ?_⟩
  obtain rfl := Option.some.inj hsub
  have hle := Nat.le_of_dvd (Nat.zero_lt_of_lt hn) hstop
  rw [hsize]
  refine ⟨by rwa [SubAxis.nextPreSize, Nat.mul_div_cancel' hd], ?_⟩
  cases hne
  case inl h => exact (Nat.div_le_self ..).trans_lt h
  case inr h => exact (Nat.div_lt_self (by omega) h).trans_le hle

theorem visitUsed_gaps (hi : i < mesh.numAxes) (hn : 1 < n) (hsize : mesh.axisSize i = n) (hp : UsedPieces mesh i pieces)
    (hrest : ∀ a ∈ rest.head?, a.meshAxisIndex ≠ i) {pre : Nat} (hpos : 0 < pre)
    (hpre : ∀ a ∈ pieces, pre ∣ a.preSize) (axes : List AxisRef) :
    ∃ gaps stop, visitUsed mesh i axes pre (pieces ++ rest) = some (⟨rest, axes ++ gaps⟩, stop) ∧
      (∀ g ∈ gaps, g.meshAxisIndex = i ∧ g.Valid mesh) ∧
      Gaps pre (pieces.map (·.interval hn)) (gaps.map (·.interval hn)) stop := by
  induction pieces generalizing pre axes
  case nil => exact ⟨[], pre, by simpa using visitUsed_rest hrest, by simp, .nil pre⟩
  case cons a pieces ih =>
    have ha := hp.index a List.mem_cons_self
    have hv := hp.valid a List.mem_cons_self
    have hd := hpre a List.mem_cons_self
    have hdvd := interval_hi_dvd hn hv (ha ▸ hsize)
    have hlt := interval_lt a hn
    rw [interval_lo] at hlt
    have hnext : ∀ b ∈ pieces, (a.interval hn).hi ∣ b.preSize := by
      intro b hb
      obtain ⟨hc, hl⟩ := (List.pairwise_cons.mp hp.chain).1 b hb
      have hab := ha.trans (hp.tail.index b hb).symm
      obtain ⟨sub, other, hs, ho, h⟩ := dvd_of_canCoexistWithoutOverlap hab hc hl
      have hsub : (a.interval hn).hi = sub.nextPreSize := by rw [interval, hs]; rfl
      have hother : b.preSize = other.preSize := by rw [preSize, ho]
      rwa [hsub, hother]
    have ih := @ih hp.tail (a.interval hn).hi (a.interval hn).hi_pos hnext
    rw [List.cons_append, visitUsed, if_pos ha]
    rw [pieceEnd_eq hn hsize]
    by_cases hgap : pre < a.preSize
    case pos =>
      have hle := Nat.le_of_dvd (Nat.zero_lt_of_lt hn) hdvd
      have hpn : a.preSize ∣ n := (interval_lo (a := a) ▸ (a.interval hn).dvd).trans hdvd
      obtain ⟨g, hg, hgi, hgv, hlo, hhi⟩ := ofSubAxis_gap hi hn hsize hpos hgap hd hpn (.inl (hlt.trans_le hle))
      obtain ⟨gaps, stop, hs, hgs, h⟩ := ih (axes ++ [g])
      refine ⟨g :: gaps, stop, ?step, List.forall_mem_cons.mpr ⟨⟨hgi, hgv⟩, hgs⟩, ?gaps⟩
      case step => simpa [hgap, hg, -Int.natCast_ediv] using hs
      case gaps =>
        have := Gaps.gap (G := g.interval hn) (by rw [hhi, interval_lo]) (interval_lt g hn) h
        rwa [hlo] at this
    case neg =>
      have heq : pre = a.preSize := (Nat.le_of_dvd preSize_pos hd).antisymm (not_lt.mp hgap)
      obtain ⟨gaps, stop, hs, hgs, h⟩ := ih axes
      refine ⟨gaps, stop, by simpa [hgap] using hs, hgs, ?_⟩
      have := Gaps.meet h
      rwa [interval_lo, ←heq] at this

theorem full_of_axisSize_one (h : UsedPieces mesh i pieces) (hsize : mesh.axisSize i = 1) :
    ∀ a ∈ pieces, a.subAxisInfo = none := by
  intro a ha
  rcases hs : a.subAxisInfo with _ | sub
  case none => rfl
  case some =>
    have hlt := (h.valid a ha).size_lt hs
    rw [h.index a ha, hsize] at hlt
    exact absurd hlt sub.one_lt_size.not_gt

theorem visitUsed_axisSize_one (h : UsedPieces mesh i pieces) (hsize : mesh.axisSize i = 1)
    (hrest : ∀ a ∈ rest.head?, a.meshAxisIndex ≠ i) :
    visitUsed mesh i axes 1 (pieces ++ rest) = some (⟨rest, axes⟩, 1) := by
  induction pieces
  case nil => exact visitUsed_rest hrest
  case cons a pieces ih =>
    have hs := full_of_axisSize_one h hsize a List.mem_cons_self
    simpa [visitUsed, h.index a List.mem_cons_self, preSize, pieceEnd, hs, hsize] using ih h.tail

theorem complement_axisSize_one (h : UsedPieces mesh i pieces) (hsize : mesh.axisSize i = 1) :
    Complement mesh i pieces [] where
  index       := by simp
  valid       := by simp
  sorted      := .nil
  overlaps    := .nil
  canMerge    := .nil
  disjoint    := by simp
  one_lt_size := by simp
  size        := by
    have hs : ∀ a ∈ pieces, a.size mesh = 1 := by
      intro a ha
      rw [AxisRef.size, full_of_axisSize_one h hsize a ha, h.index a ha, hsize]
    rw [List.map_congr_left hs]
    simp [hsize]

def lastGap (mesh : Mesh) (i : Nat) (stop : Nat) : Option AxisRef :=
  if stop = 1 then some ⟨i, none⟩ else ofSubAxis i stop (mesh.axisSize i / stop : Nat)

theorem visitAxis_of_lt {used axes' : List AxisRef} (h : visitUsed mesh i axes' 1 used = some (⟨rest, axes⟩, stop))
    (hlt : stop < mesh.axisSize i) :
    visitAxis mesh ⟨used, axes'⟩ i = (lastGap mesh i stop).map fun g => ⟨rest, axes ++ [g]⟩ := by
  simp only [visitAxis, h, lastGap, Option.bind_eq_bind, Option.bind_some, if_pos hlt]
  split
  case isTrue => rfl
  case isFalse => cases ofSubAxis i stop (mesh.axisSize i / stop : Nat) <;> rfl

theorem lastGap_eq (hi : i < mesh.numAxes) (hn : 1 < mesh.axisSize i) {stop : Nat} (hpos : 0 < stop)
    (hd : stop ∣ mesh.axisSize i) (hlt : stop < mesh.axisSize i) :
    ∃ g, lastGap mesh i stop = some g ∧ g.meshAxisIndex = i ∧ g.Valid mesh ∧
      (g.interval hn).lo = stop ∧ (g.interval hn).hi = mesh.axisSize i := by
  unfold lastGap
  split
  case isTrue h =>
    refine ⟨⟨i, none⟩, rfl, rfl, valid_iff.mpr ⟨Int.ofNat_lt.mpr hi, by simp⟩, h.symm, rfl⟩
  case isFalse h => exact ofSubAxis_gap hi hn rfl hpos hlt hd dvd_rfl (.inr (by omega))

-- The remaining factors of a mesh axis follow the last used piece.
theorem visitAxis_complement (hi : i < mesh.numAxes) (hpos : 0 < mesh.axisSize i) (hp : UsedPieces mesh i pieces)
    (hrest : ∀ a ∈ rest.head?, a.meshAxisIndex ≠ i) (axes : List AxisRef) :
    ∃ gaps, visitAxis mesh ⟨pieces ++ rest, axes⟩ i = some ⟨rest, axes ++ gaps⟩ ∧ Complement mesh i pieces gaps := by
  obtain hsize | hn := (Nat.succ_le_of_lt hpos).eq_or_lt'
  case inl => exact ⟨[], by simp [visitAxis, visitUsed_axisSize_one hp hsize hrest, hsize], complement_axisSize_one hp hsize⟩
  case inr =>
    obtain ⟨gaps, stop, hs, hgs, h⟩ := visitUsed_gaps hi hn rfl hp hrest Nat.one_pos (fun a _ => Nat.one_dvd _) axes
    have hdvd : stop ∣ mesh.axisSize i := by
      refine h.dvd (Nat.one_dvd _) (List.forall_mem_map.mpr fun a ha => ?_)
      exact interval_hi_dvd hn (hp.valid a ha) (by rw [hp.index a ha])
    have hne : ∀ I ∈ pieces.map (·.interval hn), I.lo < I.hi := List.forall_mem_map.mpr fun a _ => interval_lt a hn
    have hprod := h.prod_size
    rw [map_interval_size hn rfl hp.index, map_interval_size hn rfl fun g hg => (hgs g hg).1, Nat.one_mul] at hprod
    have hsep : ∀ g ∈ gaps, ∀ a ∈ pieces, Separated (g.interval hn) (a.interval hn) :=
      fun g hg a ha => h.separated _ (List.mem_map_of_mem hg) _ (List.mem_map_of_mem ha)
    by_cases hlt : stop < mesh.axisSize i
    case neg =>
      have heq : stop = mesh.axisSize i := (Nat.le_of_dvd hpos hdvd).antisymm (not_lt.mp hlt)
      refine ⟨gaps, by simp [visitAxis, hs, heq], ?_⟩
      exact complement_of_intervals hn rfl hp (fun g hg => (hgs g hg).1) (fun g hg => (hgs g hg).2) (h.pairwise hne)
        hsep (heq ▸ hprod)
    case pos =>
      have ⟨g, hg, hgi, hgv, hlo, hhi⟩ := lastGap_eq hi hn (Nat.pos_of_dvd_of_pos hdvd hpos) hdvd hlt
      have hgsize : stop * g.size mesh = mesh.axisSize i := by
        rw [←interval_size hn (by rw [hgi]), ←hlo, lo_mul_size, hhi]
      refine ⟨gaps ++ [g], by simp [visitAxis_of_lt hs hlt, hg], ?_⟩
      refine complement_of_intervals hn rfl hp ?index ?valid ?sorted ?separated ?product
      case index => exact List.forall_mem_append.mpr ⟨fun g hg => (hgs g hg).1, by simpa using hgi⟩
      case valid => exact List.forall_mem_append.mpr ⟨fun g hg => (hgs g hg).2, by simpa using hgv⟩
      case sorted =>
        rw [List.map_append, List.pairwise_append]
        exact ⟨h.pairwise hne, by simp, fun G hG => by simpa [hlo] using h.hi_lt hne G hG⟩
      case separated =>
        refine List.forall_mem_append.mpr ⟨hsep, List.forall_mem_singleton.mpr fun a ha => .inr ?_⟩
        rw [hlo]
        exact h.hi_le _ (List.mem_map_of_mem ha)
      case product =>
        rw [List.map_append, List.prod_append, ←mul_assoc, hprod]
        simpa using hgsize

end NamedSharding.GetImplicitlyReplicatedAxes

section Order

variable {a b : AxisRef}

-- A sub-axis precedes the full axis if it starts with the first factor.
def AxisRef.key (a : AxisRef) : Int ×ₗ ℕ ×ₗ ℕ ×ₗ ℕ :=
  match a.subAxisInfo with
  | some sub => toLex (a.meshAxisIndex, toLex (sub.preSize, toLex (0, sub.size)))
  | none     => toLex (a.meshAxisIndex, toLex (1, toLex (1, 0)))

theorem lt_iff_key_lt : a.lt b = true ↔ a.key < b.key := by
  unfold lt key
  by_cases hi : a.meshAxisIndex = b.meshAxisIndex
  case neg => cases a.subAxisInfo <;> cases b.subAxisInfo <;> simp [Prod.Lex.toLex_lt_toLex, hi]
  case pos =>
    rcases ha : a.subAxisInfo with _ | sub <;> rcases hb : b.subAxisInfo with _ | other
    case none.none => simp [preSize, hi, hb]
    case none.some => simp [Prod.Lex.toLex_lt_toLex, preSize, hi, hb]
    case some.none =>
      have := sub.preSize_pos
      simp [Prod.Lex.toLex_lt_toLex, preSize, hi, ha]
      omega
    case some.some =>
      simp [Prod.Lex.toLex_lt_toLex, hi]
      split <;> omega

theorem not_lt_iff_key_le : (!b.lt a) = true ↔ a.key ≤ b.key := by
  rw [Bool.not_eq_true', ←Bool.not_eq_true, lt_iff_key_lt, not_lt]

theorem index_le_of_not_lt (h : b.lt a = false) : a.meshAxisIndex ≤ b.meshAxisIndex := by
  unfold lt at h
  split at h
  case isTrue  => exact not_lt.mp (of_decide_eq_false h)
  case isFalse hi => exact (not_not.mp hi).ge

instance : Std.Total fun a b : AxisRef => (!b.lt a) = true where
  total a b := by simpa only [not_lt_iff_key_le] using le_total a.key b.key

instance : IsTrans AxisRef fun a b => (!b.lt a) = true where
  trans _ _ _ h h' := not_lt_iff_key_le.mpr <| (not_lt_iff_key_le.mp h).trans (not_lt_iff_key_le.mp h')

end Order

namespace NamedSharding.GetImplicitlyReplicatedAxes

variable {mesh : Mesh} {rest pieces : Nat → List AxisRef} {k : Nat}

theorem visitAxes_complement (hk : k ≤ mesh.numAxes) (hpos : ∀ i : Nat, i < mesh.numAxes → 0 < mesh.axisSize i)
    (hp : ∀ i < k, UsedPieces mesh i (pieces i)) (hrest : ∀ i < k, rest i = pieces i ++ rest (i + 1))
    (hhead : ∀ i < k, ∀ a ∈ (rest (i + 1)).head?, a.meshAxisIndex ≠ i) :
    ∃ gaps : Nat → List AxisRef,
      (List.range k).foldlM (visitAxis mesh) ⟨rest 0, []⟩ = some ⟨rest k, (List.range k).flatMap gaps⟩ ∧
      ∀ i < k, Complement mesh i (pieces i) (gaps i) := by
  induction k
  case zero => exact ⟨fun _ => [], rfl, by simp⟩
  case succ k ih =>
    have hlt (i : Nat) (h : i < k) : i < k + 1 := Nat.lt_succ_of_lt h
    obtain ⟨gaps, hs, h⟩ := ih (by omega) (fun i hi => hp i (hlt i hi)) (fun i hi => hrest i (hlt i hi))
      fun i hi => hhead i (hlt i hi)
    have hk' := Nat.lt_succ_self k
    obtain ⟨last, hl, hlast⟩ := visitAxis_complement hk (hpos k hk) (hp k hk') (hhead k hk') ((List.range k).flatMap gaps)
    have heq : (List.range k).flatMap (Function.update gaps k last) = (List.range k).flatMap gaps := by
      rw [List.flatMap_def, List.flatMap_def]
      refine congrArg _ <| List.map_congr_left fun i hi => Function.update_of_ne (List.mem_range.mp hi).ne ..
    refine ⟨Function.update gaps k last, ?step, fun i hi => ?other⟩
    case step =>
      rw [List.range_succ, List.foldlM_append, hs, List.flatMap_append, heq]
      simpa [hrest k hk'] using hl
    case other =>
      obtain rfl | hne := eq_or_ne i k
      case inl => simpa using hlast
      case inr =>
        rw [Function.update_of_ne hne]
        exact h i (by omega)

theorem filter_flatMap {gaps : Nat → List AxisRef} (h : ∀ i < k, ∀ g ∈ gaps i, g.meshAxisIndex = i) {i : Nat} (hi : i < k) :
    ((List.range k).flatMap gaps).filter (fun a => a.meshAxisIndex = (i : Int)) = gaps i := by
  induction k
  case zero => contradiction
  case succ k ih =>
    have h' : ∀ i < k, ∀ g ∈ gaps i, g.meshAxisIndex = i := fun i hi => h i (Nat.lt_succ_of_lt hi)
    rw [List.range_succ, List.flatMap_append, List.filter_append, List.flatMap_singleton]
    obtain hi | rfl := Nat.lt_succ_iff_lt_or_eq.mp hi
    case inl =>
      have hk : (gaps k).filter (fun a => a.meshAxisIndex = (i : Int)) = [] := by
        refine List.filter_eq_nil_iff.mpr fun g hg => ?_
        have := h k (Nat.lt_succ_self k) g hg
        simp only [this, decide_eq_true_eq]
        omega
      rw [ih h' hi, hk, List.append_nil]
    case inr =>
      have hk : ((List.range i).flatMap gaps).filter (fun a => a.meshAxisIndex = (i : Int)) = [] := by
        refine List.filter_eq_nil_iff.mpr fun g hg => ?_
        have ⟨j, hj, hg⟩ := List.mem_flatMap.mp hg
        have hj := List.mem_range.mp hj
        have := h' j hj g hg
        simp only [this, decide_eq_true_eq]
        omega
      rw [hk, List.nil_append, List.filter_eq_self]
      exact fun g hg => decide_eq_true (h i (Nat.lt_succ_self i) g hg)

end NamedSharding.GetImplicitlyReplicatedAxes

namespace NamedSharding

open GetImplicitlyReplicatedAxes

-- The axes complement the used axes.
structure ExactComplement (n : NamedSharding) (axes : List AxisRef) : Prop where
  valid    : ∀ a ∈ axes, a.Valid n.mesh
  sorted   : axes.Pairwise fun a b => a.lt b = true
  overlaps : axes.Pairwise fun a b => a.overlaps b = false
  canMerge : axes.Pairwise fun a b => a.canMerge b = false
  disjoint : ∀ a ∈ axes, ∀ b ∈ n.usedAxes, a.overlaps b = false
  size     : ∀ i : Nat, i < n.mesh.numAxes →
    (((n.usedAxes ++ axes).filter fun a => a.meshAxisIndex = (i : Int)).map (·.size n.mesh)).prod = n.mesh.axisSize i

variable {n : NamedSharding} {pieces gaps : Nat → List AxisRef}

theorem pairwise_flatMap_gaps {r : AxisRef → AxisRef → Prop} (hi : ∀ i < k, ∀ g ∈ gaps i, g.meshAxisIndex = i)
    (h : ∀ i < k, (gaps i).Pairwise r) (hr : ∀ a b : AxisRef, a.meshAxisIndex < b.meshAxisIndex → r a b) :
    ((List.range k).flatMap gaps).Pairwise r := by
  refine List.pairwise_flatMap.mpr ⟨fun i hk => h i (List.mem_range.mp hk), ?_⟩
  refine List.pairwise_lt_range.imp_of_mem fun hj hj' hlt a ha b hb => hr a b ?_
  rw [hi _ (List.mem_range.mp hj) a ha, hi _ (List.mem_range.mp hj') b hb]
  exact Int.ofNat_lt.mpr hlt

theorem exactComplement_of_gaps (h : ∀ i < n.mesh.numAxes, Complement n.mesh i (pieces i) (gaps i))
    (hd : ∀ i < n.mesh.numAxes, ∀ g ∈ gaps i, ∀ b ∈ n.usedAxes, b.meshAxisIndex = i → g.overlaps b = false)
    (hs : ∀ i < n.mesh.numAxes, ((n.usedAxes.filter fun a => a.meshAxisIndex = (i : Int)).map (·.size n.mesh)).prod *
      ((gaps i).map (·.size n.mesh)).prod = n.mesh.axisSize i) :
    ExactComplement n ((List.range n.mesh.numAxes).flatMap gaps) where
  valid      := by
    intro a ha
    have ⟨i, hi, ha⟩ := List.mem_flatMap.mp ha
    exact (h i (List.mem_range.mp hi)).valid a ha
  sorted     := pairwise_flatMap_gaps (fun i hi => (h i hi).index) (fun i hi => (h i hi).sorted)
    fun a b hlt => by simp [lt, hlt.ne, hlt]
  overlaps   := pairwise_flatMap_gaps (fun i hi => (h i hi).index) (fun i hi => (h i hi).overlaps)
    fun a b hlt => by simp [AxisRef.overlaps, hlt.ne]
  canMerge   := pairwise_flatMap_gaps (fun i hi => (h i hi).index) (fun i hi => (h i hi).canMerge)
    fun a b hlt => by simp [AxisRef.canMerge, hlt.ne]
  disjoint   := by
    intro a ha b hb
    have ⟨i, hi, ha⟩ := List.mem_flatMap.mp ha
    have hi := List.mem_range.mp hi
    have hia := (h i hi).index a ha
    by_cases hib : b.meshAxisIndex = i
    case pos => exact hd i hi a ha b hb hib
    case neg => simp [AxisRef.overlaps, hia, Ne.symm hib]
  size i hi  := by
    rw [List.filter_append, filter_flatMap (fun i hi => (h i hi).index) hi, List.map_append, List.prod_append, hs i hi]

-- The sorted axes that the loop visits.
def sortedAxes (n : NamedSharding) : List AxisRef :=
  n.usedAxes.insertionSort fun a b => !b.lt a

theorem sortedAxes_perm : n.sortedAxes.Perm n.usedAxes :=
  List.perm_insertionSort ..

theorem sortedAxes_sorted : n.sortedAxes.Pairwise fun a b => b.lt a = false := by
  have := List.pairwise_insertionSort (fun a b : AxisRef => (!b.lt a) = true) n.usedAxes
  exact this.imp fun h => by simpa using h

theorem usedPieces_filter (h : n.Valid) (i : Int) :
    UsedPieces n.mesh i (n.sortedAxes.filter fun a => a.meshAxisIndex = i) := by
  have hu := h.usableAxes.perm sortedAxes_perm.symm
  constructor
  case index => exact fun a ha => of_decide_eq_true (List.mem_filter.mp ha).2
  case valid => exact fun a ha => hu.valid a (List.mem_filter.mp ha).1
  case chain => exact (hu.coexist.and sortedAxes_sorted).filter _

theorem getImplicitlyReplicatedAxes_eq {used rest axes : List AxisRef} (h₀ : used = n.sortedAxes)
    (h : (List.range n.mesh.numAxes).foldlM (visitAxis n.mesh) ⟨used, []⟩ = some ⟨rest, axes⟩) :
    n.getImplicitlyReplicatedAxes = some axes := by
  rw [h₀, sortedAxes] at h
  simp only [getImplicitlyReplicatedAxes, h, Option.bind_eq_bind, Option.bind_some, pure]

theorem filter_ge_eq {axes : List AxisRef} (h : axes.Pairwise fun a b : AxisRef => b.lt a = false) (i : Int) :
    axes.filter (fun a => i ≤ a.meshAxisIndex) =
      axes.filter (fun a => a.meshAxisIndex = i) ++ axes.filter (fun a => i + 1 ≤ a.meshAxisIndex) := by
  induction axes
  case nil => rfl
  case cons a axes ih =>
    have ⟨ha, h⟩ := List.pairwise_cons.mp h
    simp only [Int.add_one_le_iff] at ih ⊢
    obtain hlt | rfl | hgt := lt_trichotomy a.meshAxisIndex i
    case inl      => simpa [List.filter_cons, hlt.not_ge, hlt.ne, hlt.le.not_gt] using ih h
    case inr.inl  => simpa [List.filter_cons] using ih h
    case inr.inr  =>
      have hnil : axes.filter (fun a => a.meshAxisIndex = i) = [] := by
        refine List.filter_eq_nil_iff.mpr fun b hb => ?_
        have := index_le_of_not_lt (ha b hb)
        simp only [decide_eq_true_eq]
        omega
      have ih := ih h
      rw [hnil, List.nil_append] at ih
      simp [hgt.le, hgt.ne', hgt, hnil, ih]

-- Each axis is visited with its own used pieces.
theorem getImplicitlyReplicatedAxes_exactComplement (h : n.Valid) :
    ∃ axes, n.getImplicitlyReplicatedAxes = some axes ∧ ExactComplement n axes := by
  obtain ⟨gaps, hs, hg⟩ := @visitAxes_complement n.mesh
    (fun i => n.sortedAxes.filter fun a => (i : Int) ≤ a.meshAxisIndex)
    (fun i => n.sortedAxes.filter fun a => a.meshAxisIndex = (i : Int)) _ le_rfl h.axisSize_pos
    (fun i _ => usedPieces_filter h i) (fun i _ => by simpa using filter_ge_eq sortedAxes_sorted i) (by
      intro i _ a ha
      have := (List.mem_filter.mp (List.mem_of_mem_head? ha)).2
      simp only [decide_eq_true_eq] at this
      omega)
  refine ⟨_, getImplicitlyReplicatedAxes_eq (List.filter_eq_self.mpr ?filter) hs,
      exactComplement_of_gaps hg ?gaps ?axes⟩
  case filter =>
    intro a ha
    simpa using h.index_nonneg a (sortedAxes_perm.mem_iff.mp ha)
  case gaps =>
    intro i hi g hgi b hb hbi
    refine (hg i hi).disjoint g hgi b (List.mem_filter.mpr ⟨sortedAxes_perm.mem_iff.mpr hb, ?_⟩)
    exact decide_eq_true hbi
  case axes =>
    intro i hi
    rw [←(hg i hi).size]
    congr 1
    exact ((sortedAxes_perm.symm.filter _).map _).prod_eq

def subAxisSharding : NamedSharding where
  mesh           := singleAxisMesh 8
  dimShardings   := [⟨[subAxis 2 2], true⟩]
  replicatedAxes := []
  unreducedAxes  := []
  manualAxes     := []

theorem getImplicitlyReplicatedAxes_exactComplement_subAxis :
    ∃ axes, subAxisSharding.getImplicitlyReplicatedAxes = some axes ∧ ExactComplement subAxisSharding axes :=
  getImplicitlyReplicatedAxes_exactComplement ⟨by rfl, by decide, by decide⟩

end NamedSharding

end Sharding
