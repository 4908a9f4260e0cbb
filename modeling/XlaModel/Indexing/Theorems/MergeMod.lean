import XlaModel.Indexing.Theorems.Rounding

namespace Indexing

open Symbolic SymbolicExpr Fallible

namespace IndexingMap

variable {m : IndexingMap} {ρ : Nat → Int} {lhs : SymbolicExpr} {div res : Int} {ops : List SymbolicExpr}

section Bounds

theorem getElem?_set_same (l : List α) (n : Nat) (a : α) : (l.set n a)[n]? = l[n]?.map fun _ => a :=
  List.getElem?_set_self'

theorem variableBound_setVariableBound (m : IndexingMap) (id id' : Nat) (i : Interval) :
    (m.setVariableBound id i).variableBound id' =
      if id' = id then (m.variableBound id).map fun _ => i else m.variableBound id' := by
  by_cases h : id < m.symbolicMap.numDims
  case pos =>
    simp only [setVariableBound, variableBound, getDimensionBound, getSymbolBound, h, if_true]
    by_cases he : id' = id
    case pos => simp [he, h, getElem?_set_same]
    case neg => simp [he, Ne.symm he]
  case neg =>
    by_cases h' : id - m.symbolicMap.numDims < m.rangeVars.length
    case pos =>
      simp only [setVariableBound, variableBound, getDimensionBound, getSymbolBound, h, h', if_true, if_false]
      by_cases he : id' = id
      case pos => simp [he, h, h']
      case neg =>
        simp only [he, if_false, List.length_set]
        split
        case isTrue  => rfl
        case isFalse => rw [List.getElem?_set_ne (by omega)]
    case neg =>
      simp only [setVariableBound, variableBound, getDimensionBound, getSymbolBound, h, h', if_false]
      by_cases he : id' = id
      case pos => simp [he, h, h', getElem?_set_same]
      case neg =>
        simp only [he, if_false]
        repeat' split
        case isTrue          => rfl
        case isFalse.isTrue  => rfl
        case isFalse.isFalse => rw [List.getElem?_set_ne (by omega)]

theorem inBounds_setVariableBound {id : Nat} (hi : m.variableBound id = some i)
    (h : ρ id ∈ i ↔ ρ id ∈ i') : (m.setVariableBound id i').InBounds ρ ↔ m.InBounds ρ := by
  simp only [InBounds, variableBound_setVariableBound, hi, Option.map_some]
  refine forall_congr' fun id' => ?_
  by_cases he : id' = id
  case pos => simp [he, hi, h]
  case neg => simp [he]

end Bounds

section Divisors

-- The constraints on the remainder of `lhs` by positive constants.
def ModOps (lhs : SymbolicExpr) (ops : List SymbolicExpr) : Prop :=
  ∀ op ∈ ops, ∃ c > 0, op = binary .mod lhs (const c)

-- The moduli of the constraints.
def IsLcm (lhs : SymbolicExpr) (ops : List SymbolicExpr) (div : Int) : Prop :=
  ∀ x, div ∣ x ↔ ∀ c, binary .mod lhs (const c) ∈ ops → c ∣ x

theorem lcmWithDivisor_mod (m : IndexingMap) (d c : Int) :
    m.lcmWithDivisor d (binary .mod lhs (const c)) = if overflows (d.lcm c) then none else some (d.lcm c : Int) := by
  simp [lcmWithDivisor, computeExpressionRange]

theorem lcmOfDivisors_spec (h : ModOps lhs ops) (hd : m.lcmOfDivisors ops = some div) :
    0 < div ∧ IsLcm lhs ops div := by
  have hfold : ∀ ops, ModOps lhs ops → ∀ d > (0 : Int), ∀ div, ops.foldlM m.lcmWithDivisor d = some div →
      0 < div ∧ ∀ x, div ∣ x ↔ d ∣ x ∧ ∀ c, binary .mod lhs (const c) ∈ ops → c ∣ x := by
    intro ops
    induction ops
    case nil =>
      intro _ d hd div heq
      cases heq
      exact ⟨hd, by simp⟩
    case cons op ops hi =>
      intro h d hd div heq
      obtain ⟨c, hc, rfl⟩ := h op List.mem_cons_self
      have hlcm : (0 : Int) < d.lcm c := by
        exact_mod_cast Nat.pos_of_ne_zero (Int.lcm_ne_zero hd.ne' hc.ne')
      rw [List.foldlM_cons, lcmWithDivisor_mod] at heq
      obtain ⟨d', hd', heq⟩ := Option.bind_eq_some_iff.mp heq
      split at hd'
      case isTrue  => contradiction
      case isFalse =>
        cases hd'
        obtain ⟨hdiv, hx⟩ := hi (fun op ho => h op (.tail _ ho)) _ hlcm div heq
        refine ⟨hdiv, fun x => ?_⟩
        rw [hx, Int.coe_lcm_dvd_iff, and_assoc]
        simp [or_imp, forall_and]
  obtain ⟨hdiv, hx⟩ := hfold ops h 1 one_pos div hd
  exact ⟨hdiv, fun x => by simpa using hx x⟩

-- The range of a constant does not depend on the map.
theorem lcmOfDivisors_eq (m m' : IndexingMap) (h : ModOps lhs ops) :
    m.lcmOfDivisors ops = m'.lcmOfDivisors ops := by
  have hfold : ∀ d, ops.foldlM m.lcmWithDivisor d = ops.foldlM m'.lcmWithDivisor d := by
    induction ops
    case nil => exact fun _ => rfl
    case cons op ops hi =>
      intro d
      obtain ⟨c, _, rfl⟩ := h op List.mem_cons_self
      rw [List.foldlM_cons, List.foldlM_cons, lcmWithDivisor_mod, lcmWithDivisor_mod]
      exact Option.bind_congr fun d' _ => hi (fun op ho => h op (.tail _ ho)) d'
  exact hfold 1

theorem one_lt_of_isLcm (hd : 0 < div) (ho : ModOps lhs ops) (hl : IsLcm lhs ops div) (hn : ops.Nodup)
    (hlen : 1 < ops.length) : 1 < div := by
  obtain ⟨op, op', ops', rfl⟩ : ∃ op op' ops', ops = op :: op' :: ops' := by
    match ops, hlen with
    | op :: op' :: ops', _ => exact ⟨op, op', ops', rfl⟩
  obtain ⟨c, hc, rfl⟩ := ho op (by simp)
  obtain ⟨c', hc', rfl⟩ := ho op' (by simp)
  have hne : c ≠ c' := by
    rintro rfl
    simp at hn
  have hle : c ≤ div := Int.le_of_dvd hd ((hl div).mp dvd_rfl c (by simp))
  have hle' : c' ≤ div := Int.le_of_dvd hd ((hl div).mp dvd_rfl c' (by simp))
  omega

theorem eval_modOp (hc : 0 < c) : (binary .mod lhs (const c)).eval ρ = lhs.eval ρ % c :=
  modulo_eq_emod hc.ne'

theorem emod_eq_of_dvd {x c : Int} (h₀ : 0 ≤ res) (h₁ : res < c) (h : c ∣ x - res) : x % c = res := by
  have := Int.emod_eq_emod_iff_emod_sub_eq_zero.mpr (Int.emod_eq_zero_of_dvd h)
  rwa [Int.emod_eq_of_lt h₀ h₁] at this

theorem emod_eq_of_forall (hd : 0 < div) (ho : ModOps lhs ops) (hl : IsLcm lhs ops div) (hn : ops ≠ [])
    (h : ∀ op ∈ ops, op.eval ρ = res) : lhs.eval ρ % div = res := by
  have hres c (hc : binary .mod lhs (const c) ∈ ops) : 0 ≤ res ∧ res < c ∧ c ∣ lhs.eval ρ - res := by
    obtain ⟨c', hc', he⟩ := ho _ hc
    cases he
    have he := h _ hc
    rw [eval_modOp hc'] at he
    rw [← he]
    exact ⟨Int.emod_nonneg _ hc'.ne', Int.emod_lt_of_pos _ hc', Int.dvd_self_sub_emod⟩
  obtain ⟨op, hop⟩ := List.exists_mem_of_ne_nil ops hn
  obtain ⟨c, _, rfl⟩ := ho op hop
  have ⟨h₀, h₁, _⟩ := hres c hop
  have hle : c ≤ div := Int.le_of_dvd hd ((hl div).mp dvd_rfl c hop)
  exact emod_eq_of_dvd h₀ (h₁.trans_le hle) ((hl _).mpr fun c hc => (hres c hc).2.2)

theorem forall_of_emod_eq (hd : 0 < div) (ho : ModOps lhs ops) (hl : IsLcm lhs ops div)
    (hr : res < 0 ∨ div ≤ res ∨ ∀ c, binary .mod lhs (const c) ∈ ops → res < c)
    (h : lhs.eval ρ % div = res) : ∀ op ∈ ops, op.eval ρ = res := by
  have h₀ := h ▸ Int.emod_nonneg (lhs.eval ρ) hd.ne'
  have h₁ := h ▸ Int.emod_lt_of_pos (lhs.eval ρ) hd
  have hdvd : div ∣ lhs.eval ρ - res := h ▸ Int.dvd_self_sub_emod
  intro op hop
  obtain ⟨c, hc, rfl⟩ := ho op hop
  rw [eval_modOp hc]
  refine emod_eq_of_dvd h₀ ?_ ((hl _).mp hdvd c hop)
  cases hr
  case inl hr => omega
  case inr hr =>
    cases hr
    case inl hr => omega
    case inr hr => exact hr c hop

end Divisors

section Residue

-- A group of constraints with the same left-hand side and the same residue.
structure Group (m : IndexingMap) (lhs : SymbolicExpr) (g : Int × List SymbolicExpr) : Prop where
  ops      : ModOps lhs g.2
  nonempty : g.2 ≠ []
  mem      : ∀ op ∈ g.2, (op, ⟨g.1, g.1⟩) ∈ m.constraints

theorem Group.value_eq {g : Int × List SymbolicExpr} (hg : Group m lhs g)
    (h : m.ConstraintsSatisfied ρ) : ∀ op ∈ g.2, op.eval ρ = g.1 := by
  intro op hop
  have := h _ (hg.mem op hop)
  rw [Interval.mem_def] at this
  exact le_antisymm this.2 this.1

-- The merged constraint is equivalent to the constraints of the group. No other constraint is overwritten.
structure MergeKeeps (m : IndexingMap) (lhs : SymbolicExpr) (div : Int) (g : Int × List SymbolicExpr) : Prop where
  expr    : lhs.mod (const div) = binary .mod lhs (const div)
  residue : g.1 < 0 ∨ div ≤ g.1 ∨ ∀ c, binary .mod lhs (const c) ∈ g.2 → g.1 < c
  fresh   : ∀ i, (binary .mod lhs (const div), i) ∈ m.constraints → binary .mod lhs (const div) ∉ g.2 → g.1 ∈ i

theorem mem_mergeConstraints {g : Int × List SymbolicExpr} (hl : 1 < g.2.length) :
    p ∈ (m.mergeConstraints lhs div g.1 g.2).constraints ↔
      p = (lhs.mod (const div), ⟨g.1, g.1⟩) ∨
      ((p ∈ m.constraints ∧ p.1 ∉ g.2) ∧ p.1 ≠ lhs.mod (const div)) := by
  rw [mergeConstraints, if_pos hl, MapVector.mem_set, MapVector.mem_foldl_erase]

theorem satisfied_mergeConstraints {g : Int × List SymbolicExpr}
    (hn : (MapVector.keys m.constraints).Nodup) (hg : Group m lhs g) (hd : 0 < div)
    (hl : IsLcm lhs g.2 div) (hx : 1 < g.2.length → MergeKeeps m lhs div g) :
    (m.mergeConstraints lhs div g.1 g.2).ConstraintsSatisfied ρ ↔ m.ConstraintsSatisfied ρ := by
  by_cases hlen : 1 < g.2.length
  case neg => rw [mergeConstraints, if_neg hlen]
  case pos =>
    have hx := hx hlen
    constructor
    case mp =>
      intro h p hp
      -- The merged constraint.
      have hm := h _ ((mem_mergeConstraints hlen).mpr (.inl rfl))
      have hm : lhs.eval ρ % div = g.1 := by
        rw [Interval.mem_def, hx.expr, eval_modOp hd] at hm
        exact le_antisymm hm.2 hm.1
      by_cases hop : p.1 ∈ g.2
      case pos =>
        have he := forall_of_emod_eq hd hg.ops hl hx.residue hm p.1 hop
        have hv := MapVector.value_unique hn hp (hg.mem p.1 hop)
        simp [he, hv, Interval.mem_def]
      case neg =>
        by_cases hk : p.1 = binary .mod lhs (const div)
        case pos =>
          rw [hk, eval_modOp hd, hm]
          exact hx.fresh p.2 (hk ▸ hp) (hk ▸ hop)
        case neg => exact h p ((mem_mergeConstraints hlen).mpr (.inr ⟨⟨hp, hop⟩, hx.expr ▸ hk⟩))
    case mpr =>
      intro h p hp
      cases (mem_mergeConstraints hlen).mp hp
      case inr hp => exact h p hp.1.1
      case inl hp =>
        have := emod_eq_of_forall hd hg.ops hl hg.nonempty (hg.value_eq h)
        simp [hp, hx.expr, eval_modOp hd, this, Interval.mem_def]

structure SameDomain (m m' : IndexingMap) : Prop where
  domain    : ∀ ρ, m'.Domain ρ ↔ m.Domain ρ
  satisfied : ∀ ρ, m'.ConstraintsSatisfied ρ ↔ m.ConstraintsSatisfied ρ
  nodup     : (MapVector.keys m'.constraints).Nodup
  result    : m'.symbolicMap = m.symbolicMap
  length    : m'.rangeVars.length = m.rangeVars.length

-- What the steps for a left-hand side do to the constraints and the bounds.
structure LhsStep (lhs : SymbolicExpr) (m m' : IndexingMap) : Prop extends SameDomain m m' where
  frame : ∀ l r i, l ≠ lhs → ((binary .mod l r, i) ∈ m'.constraints ↔ (binary .mod l r, i) ∈ m.constraints)
  bound : ∀ id, lhs ≠ var id → m'.variableBound id = m.variableBound id

-- The constraints of the group are replaced by the merged one, the bound of a variable is rounded.
structure ResidueStep (lhs : SymbolicExpr) (div : Int) (g : Int × List SymbolicExpr) (m m' : IndexingMap) :
    Prop extends LhsStep lhs m m' where
  merged : m'.constraints = (m.mergeConstraints lhs div g.1 g.2).constraints
  round  : ∀ id i, lhs = var id → m.variableBound id = some i → m'.variableBound id = some (i.round div g.1)

theorem SameDomain.refl (hn : (MapVector.keys m.constraints).Nodup) : SameDomain m m :=
  ⟨fun _ => .rfl, fun _ => .rfl, hn, rfl, rfl⟩

theorem SameDomain.trans {m₁ m₂ m₃ : IndexingMap} (h : SameDomain m₁ m₂) (h' : SameDomain m₂ m₃) :
    SameDomain m₁ m₃ where
  domain ρ    := (h'.domain ρ).trans (h.domain ρ)
  satisfied ρ := (h'.satisfied ρ).trans (h.satisfied ρ)
  nodup       := h'.nodup
  result      := h'.result.trans h.result
  length      := h'.length.trans h.length

theorem LhsStep.refl (hn : (MapVector.keys m.constraints).Nodup) : LhsStep lhs m m :=
  ⟨.refl hn, fun _ _ _ _ => .rfl, fun _ _ => rfl⟩

theorem LhsStep.trans {m₁ m₂ m₃ : IndexingMap} (h : LhsStep lhs m₁ m₂) (h' : LhsStep lhs m₂ m₃) :
    LhsStep lhs m₁ m₃ where
  toSameDomain    := h.toSameDomain.trans h'.toSameDomain
  frame l r i hne := (h'.frame l r i hne).trans (h.frame l r i hne)
  bound id hne    := (h'.bound id hne).trans (h.bound id hne)

theorem constraints_setVariableBound (m : IndexingMap) (id : Nat) (i : Interval) :
    (m.setVariableBound id i).constraints = m.constraints := by
  simp only [setVariableBound]
  repeat' split
  all_goals rfl

theorem isKnownEmpty_setVariableBound (m : IndexingMap) (id : Nat) (i : Interval) :
    (m.setVariableBound id i).isKnownEmpty = m.isKnownEmpty := by
  simp only [setVariableBound]
  repeat' split
  all_goals rfl

theorem symbolicMap_setVariableBound (m : IndexingMap) (id : Nat) (i : Interval) :
    (m.setVariableBound id i).symbolicMap = m.symbolicMap := by
  simp only [setVariableBound]
  repeat' split
  all_goals rfl

theorem length_setVariableBound (m : IndexingMap) (id : Nat) (i : Interval) :
    (m.setVariableBound id i).dimVars.length = m.dimVars.length ∧
      (m.setVariableBound id i).rangeVars.length = m.rangeVars.length ∧
      (m.setVariableBound id i).rtVars.length = m.rtVars.length := by
  simp only [setVariableBound]
  repeat' split
  all_goals simp

theorem variableBound_mergeConstraints (id : Nat) :
    (m.mergeConstraints lhs div res ops).variableBound id = m.variableBound id := by
  rw [mergeConstraints]
  split <;> rfl

theorem mergeConstraints_step {g : Int × List SymbolicExpr}
    (hn : (MapVector.keys m.constraints).Nodup) (hg : Group m lhs g) (hd : 0 < div)
    (hl : IsLcm lhs g.2 div) (hx : 1 < g.2.length → MergeKeeps m lhs div g) :
    LhsStep lhs m (m.mergeConstraints lhs div g.1 g.2) := by
  have he : (m.mergeConstraints lhs div g.1 g.2).isKnownEmpty = m.isKnownEmpty := by
    rw [mergeConstraints]
    split <;> rfl
  have hr : (m.mergeConstraints lhs div g.1 g.2).symbolicMap = m.symbolicMap := by
    rw [mergeConstraints]
    split <;> rfl
  have hv : (m.mergeConstraints lhs div g.1 g.2).rangeVars = m.rangeVars := by
    rw [mergeConstraints]
    split <;> rfl
  have hin ρ : (m.mergeConstraints lhs div g.1 g.2).InBounds ρ ↔ m.InBounds ρ := by
    simp only [InBounds, variableBound_mergeConstraints]
  have hs ρ := @satisfied_mergeConstraints m ρ lhs div g hn hg hd hl hx
  have hdomain ρ : (m.mergeConstraints lhs div g.1 g.2).Domain ρ ↔ m.Domain ρ :=
    ⟨fun h => ⟨he ▸ h.1, (hin ρ).mp h.2, (hs ρ).mp h.3⟩,
      fun h => ⟨he ▸ h.1, (hin ρ).mpr h.2, (hs ρ).mpr h.3⟩⟩
  by_cases hlen : 1 < g.2.length
  case neg =>
    rw [mergeConstraints, if_neg hlen]
    exact .refl hn
  case pos =>
    have hnodup : (MapVector.keys (m.mergeConstraints lhs div g.1 g.2).constraints).Nodup := by
      rw [mergeConstraints, if_pos hlen]
      exact MapVector.nodup_set (MapVector.nodup_foldl_erase hn)
    refine ⟨⟨hdomain, hs, hnodup, hr, congrArg _ hv⟩, fun l r i hne => ?_, fun id _ => variableBound_mergeConstraints id⟩
    have hk : binary .mod l r ≠ lhs.mod (const div) := by
      rw [(hx hlen).expr]
      exact fun hk => hne (SymbolicExpr.binary.inj hk).2.1
    have hop : binary .mod l r ∉ g.2 := by
      intro hop
      obtain ⟨c, _, he⟩ := hg.ops _ hop
      exact hne (SymbolicExpr.binary.inj he).2.1
    rw [mem_mergeConstraints hlen]
    simp [hk, hop]

theorem LhsStep.setVariableBound {m' : IndexingMap} {id : Nat} (h : LhsStep (var id) m m')
    (hi : m'.variableBound id = some i) (hx : ∀ ρ, m'.ConstraintsSatisfied ρ → (ρ id ∈ i ↔ ρ id ∈ i')) :
    LhsStep (var id) m (m'.setVariableBound id i') where
  domain ρ := by
    rw [← h.domain]
    have he := isKnownEmpty_setVariableBound m' id i'
    have hs : (m'.setVariableBound id i').ConstraintsSatisfied ρ ↔ m'.ConstraintsSatisfied ρ := by
      rw [ConstraintsSatisfied, constraints_setVariableBound]
      rfl
    constructor
    case mp =>
      intro hd
      have hsat := hs.mp hd.3
      exact ⟨he ▸ hd.1, (inBounds_setVariableBound hi (hx ρ hsat)).mp hd.2, hsat⟩
    case mpr =>
      intro hd
      exact ⟨he ▸ hd.1, (inBounds_setVariableBound hi (hx ρ hd.3)).mpr hd.2, hs.mpr hd.3⟩
  satisfied ρ   := by rw [← h.satisfied, ConstraintsSatisfied, constraints_setVariableBound]; rfl
  nodup         := by rw [constraints_setVariableBound]; exact h.nodup
  result        := by rw [symbolicMap_setVariableBound, h.result]
  length        := by rw [(length_setVariableBound m' id i').2.1, h.length]
  frame         := by rw [constraints_setVariableBound]; exact h.frame
  bound id' hne := by
    have he : id' ≠ id := fun he => hne (congrArg var he.symm)
    rw [← h.bound id' hne, variableBound_setVariableBound, if_neg he]

theorem mergeResidue_step {s : Bool × IndexingMap} {g : Int × List SymbolicExpr}
    (hn : (MapVector.keys s.2.constraints).Nodup) (hg : Group s.2 lhs g)
    (hdiv : s.2.lcmOfDivisors g.2 = some div) (hx : 1 < g.2.length → MergeKeeps s.2 lhs div g)
    (hb : ∀ id, lhs = var id → ∃ i, s.2.variableBound id = some i ∧
      ∀ ρ, s.2.ConstraintsSatisfied ρ → RoundFits i div g.1 ∧ RoundExact i div g.1) :
    Yields (mergeResidue lhs s g) (fun s' => ResidueStep lhs div g s.2 s'.2) := by
  obtain ⟨hd, hl⟩ := lcmOfDivisors_spec hg.ops hdiv
  have hstep := mergeConstraints_step hn hg hd hl hx
  simp only [mergeResidue, hdiv, Option.bind_eq_bind, Option.bind_some]
  split
  case h_2 hv => exact .pure ⟨hstep, rfl, fun id _ hid => absurd hid (hv id)⟩
  case h_1 id =>
    obtain ⟨i, hi, hb⟩ := hb id rfl
    have hi' : (s.2.mergeConstraints (var id) div g.1 g.2).variableBound id = some i := by
      rw [variableBound_mergeConstraints, hi]
    rw [hi', Option.bind_some, if_neg hd.ne']
    refine .pure ⟨hstep.setVariableBound hi' fun ρ hs => ?exact, constraints_setVariableBound .., ?bound⟩
    case exact =>
      rw [satisfied_mergeConstraints hn hg hd hl hx] at hs
      have hm := emod_eq_of_forall hd hg.ops hl hg.nonempty (hg.value_eq hs)
      have h₀ := hm ▸ Int.emod_nonneg ((var id).eval ρ) hd.ne'
      have h₁ := hm ▸ Int.emod_lt_of_pos ((var id).eval ρ) hd
      have hround := hb ρ hs
      rw [hround.1.round_eq]
      exact (roundExact_iff i h₀ h₁).mp hround.2 _ hm
    case bound =>
      intro id' i₂ hid hi₂
      cases hid
      cases hi.symm.trans hi₂
      simp [variableBound_setVariableBound, hi']

end Residue

section Groups

-- The constraints of a group with their common remainder.
abbrev ResidueGroups (constraints : List (SymbolicExpr × Interval)) (binops : List SymbolicExpr) :
    List (Int × List SymbolicExpr) → Prop :=
  MapVector.Grouped fun res op => op ∈ binops ∧ (op, ⟨res, res⟩) ∈ constraints

variable {constraints : List (SymbolicExpr × Interval)} {binops : List SymbolicExpr}

theorem pushResidue_spec {binop : SymbolicExpr} (hg : ResidueGroups constraints binops groups)
    (hb : binop ∈ binops) (hk : binop ∈ MapVector.keys constraints)
    (hn : (MapVector.keys constraints).Nodup) :
    Yields (pushResidue constraints groups binop) (ResidueGroups constraints binops) := by
  obtain ⟨i, hi⟩ := MapVector.mem_keys.mp hk
  simp only [pushResidue, MapVector.lookup_of_mem hn hi, Option.bind_eq_bind, Option.bind_some]
  split
  case isFalse   => exact .pure hg
  case isTrue hp => exact .pure (hg.push ⟨hb, Interval.eq_mk_of_isPoint hp ▸ hi⟩)

theorem groupByResidue_spec (h : ∀ b ∈ binops, b ∈ MapVector.keys constraints)
    (hn : (MapVector.keys constraints).Nodup) :
    Yields (groupByResidue constraints binops) (ResidueGroups constraints binops) := by
  have hfold := Yields.foldlM
    (fun bs groups => (∀ b ∈ bs, b ∈ binops) ∧ ResidueGroups constraints binops groups)
    ⟨fun _ hb => hb, .nil⟩ fun b bs groups hg =>
      have hb := hg.1 b List.mem_cons_self
      (pushResidue_spec hg.2 hb (h b hb) hn).imp fun _ hg' => ⟨fun b hb => hg.1 b (.tail _ hb), hg'⟩
  exact hfold.imp fun _ hg => hg.2

theorem groupByLhs_spec (constraints : List (SymbolicExpr × Interval)) :
    MapVector.Grouped (fun l op => op ∈ MapVector.keys constraints ∧ ∃ r, op = binary .mod l r)
      (groupByLhs constraints) := by
  refine List.foldlRecOn constraints _ MapVector.Grouped.nil fun groups hg c hc => ?_
  rw [pushLhs]
  split
  case h_2     => exact hg
  case h_1 l r h => exact hg.push ⟨h ▸ MapVector.mem_keys_of_mem hc, r, rfl⟩

theorem values_groupByResidue_nodup (hn : binops.Nodup) :
    Ensures (groupByResidue constraints binops) (fun groups => (groups.flatMap (·.2)).Nodup) := by
  have hfold : ∀ bs groups, (MapVector.keys groups).Nodup → (groups.flatMap (·.2) ++ bs).Nodup →
      Ensures (bs.foldlM (pushResidue constraints) groups) (fun groups => (groups.flatMap (·.2)).Nodup) := by
    intro bs
    induction bs
    case nil => exact fun groups _ hv => .pure (by simpa using hv)
    case cons b bs hi =>
      intro groups hk hv
      rw [List.foldlM_cons]
      refine .bind (.of_eq _) fun groups' hg => ?_
      obtain ⟨i, _, hg⟩ := Option.bind_eq_some_iff.mp hg
      cases hg
      split
      case isFalse => exact hi groups hk (hv.sublist (by simp))
      case isTrue  =>
        refine hi _ (MapVector.nodup_push hk) ?_
        have hp := (MapVector.values_push_perm (k := i.lower) (v := b) hk).append_right bs
        exact hp.nodup_iff.mpr (by simpa using hv)
  exact hfold binops [] List.nodup_nil (by simpa using hn)

theorem values_groupByLhs_nodup (hn : (MapVector.keys constraints).Nodup) :
    ((groupByLhs constraints).flatMap (·.2)).Nodup := by
  have hfold : ∀ (cs : List (SymbolicExpr × Interval)) groups, (MapVector.keys groups).Nodup →
      (groups.flatMap (·.2) ++ MapVector.keys cs).Nodup → ((cs.foldl pushLhs groups).flatMap (·.2)).Nodup := by
    intro cs
    induction cs
    case nil => exact fun groups _ hv => by simpa [MapVector.keys] using hv
    case cons c cs hi =>
      intro groups hk hv
      have hkc : MapVector.keys (c :: cs) = c.1 :: MapVector.keys cs := rfl
      rw [hkc] at hv
      rw [List.foldl_cons, pushLhs]
      split
      case h_2     => exact hi groups hk (hv.sublist (by simp))
      case h_1 l r h =>
        refine hi _ (MapVector.nodup_push hk) ?_
        have hp := (MapVector.values_push_perm (k := l) (v := c.1) hk).append_right (MapVector.keys cs)
        rw [← h]
        exact hp.nodup_iff.mpr (by simpa using hv)
  exact hfold constraints [] List.nodup_nil (by simpa using hn)

-- Every constraint on a remainder is in a group.
theorem mem_groupByLhs {l r : SymbolicExpr} (h : (binary .mod l r, i) ∈ constraints) :
    binary .mod l r ∈ (MapVector.find (groupByLhs constraints) l).getD [] := by
  have hfold : ∀ (cs : List (SymbolicExpr × Interval)) groups,
      (binary .mod l r, i) ∈ cs ∨ binary .mod l r ∈ (MapVector.find groups l).getD [] →
      binary .mod l r ∈ (MapVector.find (cs.foldl pushLhs groups) l).getD [] := by
    intro cs
    induction cs
    case nil => simp
    case cons c cs hi =>
      intro groups h
      refine hi _ ?_
      rw [List.mem_cons, or_assoc] at h
      rw [pushLhs]
      obtain h | h | h := h
      · obtain rfl := h
        exact .inr (by simp [MapVector.find_push])
      · exact .inl h
      · refine .inr ?_
        split
        case h_2 => exact h
        case h_1 =>
          rw [MapVector.find_push]
          split
          case isTrue hl => exact hl ▸ List.mem_append_left _ h
          case isFalse   => exact h
  exact hfold constraints [] (.inl h)

theorem mem_groupByResidue {op : SymbolicExpr} (hn : (MapVector.keys constraints).Nodup) (hop : op ∈ binops)
    (h : (op, ⟨res, res⟩) ∈ constraints) :
    Ensures (groupByResidue constraints binops) (fun groups => op ∈ (MapVector.find groups res).getD []) := by
  have hfold : ∀ (bs : List SymbolicExpr) groups, op ∈ bs ∨ op ∈ (MapVector.find groups res).getD [] →
      Ensures (bs.foldlM (pushResidue constraints) groups)
        (fun groups => op ∈ (MapVector.find groups res).getD []) := by
    intro bs
    induction bs
    case nil => exact fun groups h => .pure (by simpa using h)
    case cons b bs hi =>
      intro groups hg
      rw [List.foldlM_cons]
      refine .bind (.of_eq _) fun groups' hg' => hi groups' ?_
      obtain ⟨i, hi, hg'⟩ := Option.bind_eq_some_iff.mp hg'
      cases hg'
      rw [List.mem_cons, or_assoc] at hg
      obtain rfl | hg | hg := hg
      · cases (MapVector.lookup_of_mem hn h).symm.trans hi
        exact .inr (by simp [Interval.isPoint, MapVector.find_push])
      · exact .inl hg
      · refine .inr ?_
        split
        case isFalse => exact hg
        case isTrue  =>
          rw [MapVector.find_push]
          split
          case isTrue hr => exact hr ▸ List.mem_append_left _ hg
          case isFalse   => exact hg
  exact hfold binops [] (.inl hop)

theorem mem_of_mem_find {κ ν : Type} [DecidableEq κ] {m : List (κ × List ν)} {k : κ} {v : ν}
    (h : v ∈ (MapVector.find m k).getD []) : ∃ vs, (k, vs) ∈ m ∧ v ∈ vs := by
  cases hf : MapVector.find m k
  case none    => simp [hf] at h
  case some vs => exact ⟨vs, MapVector.mem_of_lookup hf, by simpa [hf] using h⟩

end Groups

-- The moduli are positive constants. Constants on both sides are folded when an expression is created.
structure ModConstraints (m : IndexingMap) : Prop where
  nodup   : (MapVector.keys m.constraints).Nodup
  modulus : ∀ l r, binary .mod l r ∈ MapVector.keys m.constraints → ∃ c > 0, r = const c
  noConst : ∀ l r, binary .mod l r ∈ MapVector.keys m.constraints → l.isConst = false
  bound   : ∀ id r, binary .mod (var id) r ∈ MapVector.keys m.constraints → (m.variableBound id).isSome

section Condition

-- The groups of the constraints of the map on the remainders of `lhs`, by their residues.
def LhsGroups (m : IndexingMap) (lhs : SymbolicExpr) (groups : List (Int × List SymbolicExpr)) : Prop :=
  ∃ ops, (lhs, ops) ∈ groupByLhs m.constraints ∧ groupByResidue m.constraints ops = some groups

-- The merged modulus and the residue of the groups.
def residues (m : IndexingMap) (groups : List (Int × List SymbolicExpr)) : List (Int × Int) :=
  groups.map fun g => ((m.lcmOfDivisors g.2).getD 0, g.1)

-- The merged constraint of the group `g` is equivalent to the constraints of the group. The constraint on
-- the same remainder that is overwritten, if there is one, allows the residue. The groups `pre` are merged
-- before.
structure MergeExact (m : IndexingMap) (lhs : SymbolicExpr) (pre : List (Int × List SymbolicExpr)) (div : Int)
    (g : Int × List SymbolicExpr) : Prop where
  residue : g.1 < 0 ∨ div ≤ g.1 ∨ ∀ c, binary .mod lhs (const c) ∈ g.2 → g.1 < c
  allowed : ∀ i, (binary .mod lhs (const div), i) ∈ m.constraints →
    g.1 ∈ i ∨ ∃ g' ∈ pre, 1 < g'.2.length ∧ binary .mod lhs (const div) ∈ g'.2
  other   : ∀ g' ∈ pre, 1 < g'.2.length → m.lcmOfDivisors g'.2 ≠ some div

-- The merged moduli are 64-bit integers. The bounds of a variable are only considered if the residues are
-- possible.
structure GroupsExact (m : IndexingMap) (lhs : SymbolicExpr) (groups : List (Int × List SymbolicExpr)) :
    Prop where
  merge : ∀ pre g post, groups = pre ++ g :: post →
    ∃ div, m.lcmOfDivisors g.2 = some div ∧ (1 < g.2.length → MergeExact m lhs pre div g)
  round : ∀ id i, lhs = var id → m.variableBound id = some i →
    (∀ d ∈ m.residues groups, 0 ≤ d.2 ∧ d.2 < d.1) → RoundsExact i (m.residues groups)

def ModsExact (m : IndexingMap) : Prop :=
  ∀ lhs groups, LhsGroups m lhs groups → GroupsExact m lhs groups

theorem LhsGroups.spec (hm : ModConstraints m) {groups : List (Int × List SymbolicExpr)}
    (h : LhsGroups m lhs groups) :
    (lhs.isConst = false ∧ ∀ id, lhs = var id → (m.variableBound id).isSome) ∧
    (MapVector.keys groups).Nodup ∧ ∀ g ∈ groups, Group m lhs g ∧ g.2.Nodup := by
  obtain ⟨ops, hops, hg⟩ := h
  have hspec := groupByLhs_spec m.constraints
  have hrel := hspec.rel _ hops
  have hn : ops.Nodup := (List.nodup_flatMap.mp (values_groupByLhs_nodup hm.nodup)).1 _ hops
  obtain ⟨op, hop⟩ := List.exists_mem_of_ne_nil ops (hspec.nonempty _ hops)
  obtain ⟨hk, r, rfl⟩ := hrel op hop
  obtain ⟨_, heq, hgroups⟩ := groupByResidue_spec (fun b hb => (hrel b hb).1) hm.nodup
  cases hg.symm.trans heq
  refine ⟨⟨hm.noConst _ _ hk, fun id hid => hm.bound id r (hid ▸ hk)⟩, hgroups.nodup, fun g hgm => ?_⟩
  have hgrel := hgroups.rel g hgm
  refine ⟨⟨fun op ho => ?_, hgroups.nonempty g hgm, fun op ho => (hgrel op ho).2⟩, ?_⟩
  · obtain ⟨hk, r, rfl⟩ := hrel op (hgrel op ho).1
    obtain ⟨c, hc, rfl⟩ := hm.modulus _ _ hk
    exact ⟨c, hc, rfl⟩
  · exact (List.nodup_flatMap.mp (values_groupByResidue_nodup hn groups hg)).1 g hgm

-- The possible values have the residues of all groups.
theorem LhsGroups.residue_bounds (hm : ModConstraints m) (hx : ModsExact m)
    {groups : List (Int × List SymbolicExpr)} (h : LhsGroups m lhs groups) (hs : m.ConstraintsSatisfied ρ) :
    ∀ d ∈ m.residues groups, 0 ≤ d.2 ∧ d.2 < d.1 := by
  intro d hd
  obtain ⟨g, hg, rfl⟩ := List.mem_map.mp hd
  obtain ⟨pre, post, heq⟩ := List.append_of_mem hg
  obtain ⟨div, hdiv, _⟩ := (hx lhs groups h).merge pre g post heq
  have hgroup := ((h.spec hm).2.2 g hg).1
  obtain ⟨hpos, hl⟩ := lcmOfDivisors_spec hgroup.ops hdiv
  have hm := emod_eq_of_forall hpos hgroup.ops hl hgroup.nonempty (hgroup.value_eq hs)
  simp only [hdiv, Option.getD_some]
  exact hm ▸ ⟨Int.emod_nonneg _ hpos.ne', Int.emod_lt_of_pos _ hpos⟩

theorem LhsGroups.unique {groups groups' : List (Int × List SymbolicExpr)} (h : LhsGroups m lhs groups)
    (h' : LhsGroups m lhs groups') : groups = groups' := by
  obtain ⟨ops, hops, hg⟩ := h
  obtain ⟨ops', hops', hg'⟩ := h'
  obtain rfl := MapVector.value_unique (groupByLhs_spec m.constraints).nodup hops hops'
  exact Option.some.inj (hg.symm.trans hg')

theorem LhsGroups.exists_mem (hm : ModConstraints m) {groups : List (Int × List SymbolicExpr)} {r : SymbolicExpr}
    (h : LhsGroups m lhs groups) (hr : (binary .mod lhs r, ⟨res, res⟩) ∈ m.constraints) :
    ∃ ops, (res, ops) ∈ groups ∧ binary .mod lhs r ∈ ops := by
  obtain ⟨ops, hops, hg⟩ := h
  obtain ⟨ops', hops', hmem⟩ := mem_of_mem_find (mem_groupByLhs hr)
  obtain rfl := MapVector.value_unique (groupByLhs_spec m.constraints).nodup hops hops'
  exact mem_of_mem_find (mem_groupByResidue hm.nodup hmem hr groups hg)

end Condition

-- The order of the constraints. The merged ones come last, unless they overwrite a constraint.
section Order

variable {erased : SymbolicExpr → Prop} {constraints : List (SymbolicExpr × Interval)}
  {groups : List (Int × List SymbolicExpr)} {g : Int × List SymbolicExpr}

def Merged (m : IndexingMap) (g : Int × List SymbolicExpr) (p : SymbolicExpr × Interval) : Prop :=
  ∃ lhs groups div, (LhsGroups m lhs groups ∧ g ∈ groups) ∧ (1 < g.2.length ∧ m.lcmOfDivisors g.2 = some div) ∧
    p = (binary .mod lhs (const div), ⟨g.1, g.1⟩)

structure Ordered (m : IndexingMap) (erased : SymbolicExpr → Prop)
    (old new : List (SymbolicExpr × Interval)) : Prop where
  keys : (MapVector.keys old).Sublist (MapVector.keys m.constraints)
  old  : ∀ p ∈ old, (p ∈ m.constraints ∧ ¬erased p.1) ∨ ∃ g, Merged m g p ∧ p.1 ∉ g.2
  new  : ∀ p ∈ new, ∃ g, Merged m g p

def Order (m : IndexingMap) (erased : SymbolicExpr → Prop) (constraints : List (SymbolicExpr × Interval)) :
    Prop :=
  ∃ old new, constraints = old ++ new ∧ Ordered m erased old new

theorem Order.imp {erased' : SymbolicExpr → Prop} (h : Order m erased constraints)
    (he : ∀ op, erased' op → erased op) : Order m erased' constraints := by
  obtain ⟨old, new, rfl, h⟩ := h
  refine ⟨old, new, rfl, h.keys, fun p hp => ?_, h.new⟩
  exact (h.old p hp).imp_left fun hp => ⟨hp.1, fun hn => hp.2 (he _ hn)⟩

theorem Order.erase (h : Order m erased constraints) (ops : List SymbolicExpr) :
    ∃ old new, ops.foldl MapVector.erase constraints = old ++ new ∧
      Ordered m (fun op => erased op ∨ op ∈ ops) old new ∧ ∀ p ∈ old ++ new, p.1 ∉ ops := by
  obtain ⟨old, new, rfl, h⟩ := h
  refine ⟨old.filter (·.1 ∉ ops), new.filter (·.1 ∉ ops), ?_, ⟨?keys, fun p hp => ?old, fun p hp => ?new⟩, ?_⟩
  case keys =>
    have hs : (MapVector.keys (old.filter (·.1 ∉ ops))).Sublist (MapVector.keys old) :=
      List.Sublist.map _ List.filter_sublist
    exact hs.trans h.keys
  case old =>
    obtain ⟨hp, hop⟩ := List.mem_filter.mp hp
    exact (h.old p hp).imp_left fun hp => ⟨hp.1, not_or.mpr ⟨hp.2, by simpa using hop⟩⟩
  case new => exact h.new p (List.mem_of_mem_filter hp)
  · rw [MapVector.foldl_erase, List.filter_append]
  · intro p hp
    rw [← List.filter_append] at hp
    simpa using (List.mem_filter.mp hp).2

theorem Order.merge (h : Order m erased constraints) (hp : Merged m g p) :
    Order m (fun op => erased op ∨ op ∈ g.2) (MapVector.set (g.2.foldl MapVector.erase constraints) p.1 p.2) := by
  obtain ⟨old, new, heq, ho, hops⟩ := h.erase g.2
  rw [heq, MapVector.set]
  split
  case isFalse =>
    refine ⟨old, new ++ [p], by simp, ho.keys, ho.old, fun q hq => ?_⟩
    cases List.mem_append.mp hq
    case inl hq => exact ho.new q hq
    case inr hq => exact ⟨g, List.mem_singleton.mp hq ▸ hp⟩
  case isTrue hk =>
    rw [List.map_append]
    refine ⟨_, _, rfl, ?keys, fun q hq => ?old, fun q hq => ?new⟩
    case keys => rw [MapVector.keys_map_set]; exact ho.keys
    case old =>
      obtain ⟨q', hq', rfl⟩ := List.mem_map.mp hq
      split
      case isFalse   => exact ho.old q' hq'
      case isTrue he => exact .inr ⟨g, hp, he ▸ hops q' (List.mem_append_left _ hq')⟩
    case new =>
      obtain ⟨q', hq', rfl⟩ := List.mem_map.mp hq
      split
      case isFalse => exact ho.new q' hq'
      case isTrue  => exact ⟨g, hp⟩

end Order

section Lhs

variable {m₀ : IndexingMap} {erased : SymbolicExpr → Prop} {pre groups : List (Int × List SymbolicExpr)}
  {g : Int × List SymbolicExpr} {lhsGroups : List (SymbolicExpr × List SymbolicExpr)} {s : Bool × IndexingMap}
  {c : Int}

-- A constraint on a remainder of `lhs` after merging the groups `pre` is a constraint of the map or a merged
-- one.
def Origin (m : IndexingMap) (lhs : SymbolicExpr) (pre : List (Int × List SymbolicExpr)) (c : Int)
    (i : Interval) : Prop :=
  ((binary .mod lhs (const c), i) ∈ m.constraints ∧
    ∀ g ∈ pre, 1 < g.2.length → binary .mod lhs (const c) ∉ g.2) ∨
  ∃ g ∈ pre, 1 < g.2.length ∧ m.lcmOfDivisors g.2 = some c ∧ i = ⟨g.1, g.1⟩

-- The groups `pre` of the map `m` are processed, the groups `groups` are left. The map before the first
-- group is `m₀`, the constraints `erased` are merged before.
structure ResidueInv (m m₀ : IndexingMap) (erased : SymbolicExpr → Prop) (lhs : SymbolicExpr)
    (pre groups : List (Int × List SymbolicExpr)) (s : Bool × IndexingMap) : Prop where
  split   : LhsGroups m lhs (pre ++ groups)
  step    : LhsStep lhs m₀ s.2
  grouped : MapVector.Grouped (fun res op => (op, ⟨res, res⟩) ∈ s.2.constraints) groups
  kept    : ∀ g ∈ pre, ¬1 < g.2.length → ∀ op ∈ g.2, (op, ⟨g.1, g.1⟩) ∈ s.2.constraints
  origin  : ∀ c i, (binary .mod lhs (const c), i) ∈ s.2.constraints → Origin m lhs pre c i
  order   : Order m (fun op => erased op ∨ ∃ g ∈ pre, 1 < g.2.length ∧ op ∈ g.2) s.2.constraints
  bound   : ∀ id i, lhs = var id → m.variableBound id = some i →
    s.2.variableBound id = some (roundAll (m.residues pre) i)

theorem mod_const_eq (hl : lhs.isConst = false) (hd : 1 < div) :
    lhs.mod (const div) = binary .mod lhs (const div) := by
  have hne : ¬|div| = 1 := by
    rw [abs_of_pos (by omega)]
    omega
  cases lhs
  case const  => contradiction
  case var    => simp [mod, hne, createBinaryOp, BinaryOp.isCommutative]
  case binary => simp [mod, hne, createBinaryOp, BinaryOp.isCommutative]

theorem mergeKeeps_of_exact (hm : ModConstraints m) (h : ResidueInv m m₀ erased lhs pre (g :: groups) s)
    (hdiv : m.lcmOfDivisors g.2 = some div) (hlen : 1 < g.2.length) (hx : MergeExact m lhs pre div g) :
    MergeKeeps s.2 lhs div g where
  expr    := by
    have hg := (h.split.spec hm).2.2 g (by simp)
    obtain ⟨hd, hl⟩ := lcmOfDivisors_spec hg.1.ops hdiv
    exact mod_const_eq (h.split.spec hm).1.1 (one_lt_of_isLcm hd hg.1.ops hl hg.2 hlen)
  residue := hx.residue
  fresh   := by
    intro i hi hop
    cases h.origin div i hi
    case inl ho =>
      cases hx.allowed i ho.1
      case inl hr => exact hr
      case inr hr =>
        obtain ⟨g', hg', hlen', hmem⟩ := hr
        exact absurd hmem (ho.2 g' hg' hlen')
    case inr ho =>
      obtain ⟨g', hg', hlen', hdiv', _⟩ := ho
      exact absurd hdiv' (hx.other g' hg' hlen')

theorem residues_append (m : IndexingMap) (pre groups : List (Int × List SymbolicExpr)) :
    m.residues (pre ++ groups) = m.residues pre ++ m.residues groups :=
  List.map_append

namespace ResidueInv

variable {m' : IndexingMap} (hm : ModConstraints m) (h : ResidueInv m m₀ erased lhs pre (g :: groups) s)

include hm h

theorem modOps : ModOps lhs g.2 :=
  ((h.split.spec hm).2.2 g (by simp)).1.ops

theorem group : Group s.2 lhs g :=
  ⟨h.modOps hm, h.grouped.nonempty g List.mem_cons_self, h.grouped.rel g List.mem_cons_self⟩

theorem roundExact {id : Nat} (hx : ModsExact m)
    (hsat : ∀ ρ, m₀.ConstraintsSatisfied ρ ↔ m.ConstraintsSatisfied ρ) (hdiv : m.lcmOfDivisors g.2 = some div)
    (hid : lhs = var id) :
    ∃ i, s.2.variableBound id = some i ∧
      ∀ ρ, s.2.ConstraintsSatisfied ρ → RoundFits i div g.1 ∧ RoundExact i div g.1 := by
  obtain ⟨i, hi⟩ := Option.isSome_iff_exists.mp ((h.split.spec hm).1.2 id hid)
  refine ⟨_, h.bound id i hid hi, fun ρ hs => ?_⟩
  have hres : m.residues (pre ++ g :: groups) = m.residues pre ++ (div, g.1) :: m.residues groups := by
    simp [residues, hdiv]
  have hv := h.split.residue_bounds hm hx ((hsat ρ).mp ((h.step.satisfied ρ).mp hs))
  have hround := (hx lhs _ h.split).round id i hid hi hv
  rw [hres] at hround hv
  exact hround.step fun d hd => hv d (List.mem_append_left _ hd)

section Step

variable (hdiv : m.lcmOfDivisors g.2 = some div) (hkeeps : 1 < g.2.length → MergeKeeps s.2 lhs div g)
  (hstep : ResidueStep lhs div g s.2 m')

include hkeeps hstep

theorem keep {op : SymbolicExpr} {res : Int} (ho : (op, ⟨res, res⟩) ∈ s.2.constraints) (hne : res ≠ g.1) :
    (op, ⟨res, res⟩) ∈ m'.constraints := by
  rw [hstep.merged]
  by_cases hlen : 1 < g.2.length
  case neg => rwa [mergeConstraints, if_neg hlen]
  case pos =>
    have hop : op ∉ g.2 := fun hop =>
      hne (Interval.mk.inj (MapVector.value_unique h.step.nodup ho ((h.group hm).mem op hop))).1
    refine (mem_mergeConstraints hlen).mpr (.inr ⟨⟨ho, hop⟩, fun hk => ?_⟩)
    have hk : op = binary .mod lhs (const div) := hk.trans (hkeeps hlen).expr
    obtain ⟨hl, hu⟩ := (hkeeps hlen).fresh _ (hk ▸ ho) (hk ▸ hop)
    exact hne (le_antisymm hl hu)

theorem kept_append {q : Int × List SymbolicExpr} (hq : q ∈ pre ++ [g]) (hlen : ¬1 < q.2.length)
    {op : SymbolicExpr} (ho : op ∈ q.2) : (op, ⟨q.1, q.1⟩) ∈ m'.constraints := by
  cases List.mem_append.mp hq
  case inl hq =>
    refine h.keep hm hkeeps hstep (h.kept q hq hlen op ho) fun he => ?_
    have hn : (MapVector.keys pre ++ g.1 :: MapVector.keys groups).Nodup := by
      simpa [MapVector.keys] using (h.split.spec hm).2.1
    exact (List.nodup_append.mp hn).2.2 q.1 (MapVector.mem_keys_of_mem hq) g.1 List.mem_cons_self he
  case inr hq =>
    obtain rfl := List.mem_singleton.mp hq
    rw [hstep.merged, mergeConstraints, if_neg hlen]
    exact (h.group hm).mem op ho

omit hm

include hdiv

theorem order_append :
    Order m (fun op => erased op ∨ ∃ q ∈ pre ++ [g], 1 < q.2.length ∧ op ∈ q.2) m'.constraints := by
  rw [hstep.merged]
  by_cases hlen : 1 < g.2.length
  case neg =>
    rw [mergeConstraints, if_neg hlen]
    refine h.order.imp fun op ho => ho.imp_right fun ho => ?_
    obtain ⟨q, hq, hql, hqo⟩ := ho
    cases List.mem_append.mp hq
    case inl hq => exact ⟨q, hq, hql, hqo⟩
    case inr hq => exact absurd (List.mem_singleton.mp hq ▸ hql) hlen
  case pos =>
    have hp : Merged m g (binary .mod lhs (const div), ⟨g.1, g.1⟩) :=
      ⟨lhs, _, div, ⟨h.split, by simp⟩, ⟨hlen, hdiv⟩, rfl⟩
    rw [mergeConstraints, if_pos hlen, (hkeeps hlen).expr]
    refine (h.order.merge hp).imp fun op ho => ?_
    obtain ho | ⟨q, hq, hql, hqo⟩ := ho
    · exact .inl (.inl ho)
    · cases List.mem_append.mp hq
      case inl hq => exact .inl (.inr ⟨q, hq, hql, hqo⟩)
      case inr hq => exact .inr (List.mem_singleton.mp hq ▸ hqo)

theorem origin_append {i : Interval} (hi : (binary .mod lhs (const c), i) ∈ m'.constraints) :
    Origin m lhs (pre ++ [g]) c i := by
  -- A constraint that is there before is still the one that it was.
  have hold (ho : (binary .mod lhs (const c), i) ∈ s.2.constraints)
      (hn : 1 < g.2.length → binary .mod lhs (const c) ∉ g.2) : Origin m lhs (pre ++ [g]) c i := by
    cases h.origin c i ho
    case inl ho =>
      refine .inl ⟨ho.1, fun q hq hlen => ?_⟩
      cases List.mem_append.mp hq
      case inl hq => exact ho.2 q hq hlen
      case inr hq =>
        obtain rfl := List.mem_singleton.mp hq
        exact hn hlen
    case inr ho =>
      obtain ⟨q, hq, ho⟩ := ho
      exact .inr ⟨q, List.mem_append_left _ hq, ho⟩
  rw [hstep.merged] at hi
  by_cases hlen : 1 < g.2.length
  case neg =>
    rw [mergeConstraints, if_neg hlen] at hi
    exact hold hi fun hl => absurd hl hlen
  case pos =>
    cases (mem_mergeConstraints hlen).mp hi
    case inl hp =>
      rw [(hkeeps hlen).expr] at hp
      obtain ⟨hc, rfl⟩ := Prod.mk.inj hp
      obtain rfl : c = div := by simpa using hc
      exact .inr ⟨g, by simp, hlen, hdiv, rfl⟩
    case inr hp => exact hold hp.1.1 fun _ => hp.1.2

end Step

end ResidueInv

theorem mergeResidue_inv (hm : ModConstraints m) (hx : ModsExact m)
    (hsat : ∀ ρ, m₀.ConstraintsSatisfied ρ ↔ m.ConstraintsSatisfied ρ)
    (h : ResidueInv m m₀ erased lhs pre (g :: groups) s) :
    Yields (mergeResidue lhs s g) (ResidueInv m m₀ erased lhs (pre ++ [g]) groups) := by
  obtain ⟨div, hdiv, hmerge⟩ := (hx lhs _ h.split).merge pre g groups rfl
  have hkeeps hlen := mergeKeeps_of_exact hm h hdiv hlen (hmerge hlen)
  obtain ⟨s', hs', hstep⟩ := mergeResidue_step h.step.nodup (h.group hm)
    ((lcmOfDivisors_eq s.2 m (h.modOps hm)).trans hdiv) hkeeps fun _ => h.roundExact hm hx hsat hdiv
  refine ⟨s', hs', by simpa using h.split, h.step.trans hstep.toLhsStep, ?grouped,
    fun q hq hlen op ho => h.kept_append hm hkeeps hstep hq hlen ho, fun c i => h.origin_append hdiv hkeeps hstep,
    h.order_append hdiv hkeeps hstep, ?bound⟩
  case grouped =>
    exact h.grouped.tail.imp fun q hq op ho => h.keep hm hkeeps hstep ho (h.grouped.head_ne hq)
  case bound =>
    intro id i hid hi
    rw [hstep.round id _ hid (h.bound id i hid hi), residues_append]
    simp [residues, hdiv, roundAll]

theorem groupByResidue_congr {constraints constraints' : List (SymbolicExpr × Interval)}
    (h : ∀ op ∈ ops, constraints.lookup op = constraints'.lookup op) :
    groupByResidue constraints ops = groupByResidue constraints' ops := by
  have hfold : ∀ groups, ops.foldlM (pushResidue constraints) groups =
      ops.foldlM (pushResidue constraints') groups := by
    induction ops
    case nil => exact fun _ => rfl
    case cons op ops hi =>
      intro groups
      rw [List.foldlM_cons, List.foldlM_cons, pushResidue, pushResidue, h op List.mem_cons_self]
      exact Option.bind_congr fun groups' _ => hi (fun op ho => h op (.tail _ ho)) groups'
  exact hfold []

-- The constraints in a group of several constraints.
def ErasedFor (m : IndexingMap) (processed : SymbolicExpr → Prop) (op : SymbolicExpr) : Prop :=
  ∃ l gs, LhsGroups m l gs ∧ processed l ∧ ∃ g ∈ gs, 1 < g.2.length ∧ op ∈ g.2

-- The groups `groups` are left.
structure LhsInv (m : IndexingMap) (groups : List (SymbolicExpr × List SymbolicExpr))
    (s : Bool × IndexingMap) : Prop where
  mem      : ∀ g ∈ groups, g ∈ groupByLhs m.constraints
  distinct : (MapVector.keys groups).Nodup
  same     : SameDomain m s.2
  frame    : ∀ g ∈ groups, ∀ r i, (binary .mod g.1 r, i) ∈ s.2.constraints ↔
    (binary .mod g.1 r, i) ∈ m.constraints
  bound    : ∀ g ∈ groups, ∀ id, g.1 = var id → s.2.variableBound id = m.variableBound id
  origin   : ∀ l c i, (binary .mod l (const c), i) ∈ s.2.constraints → l ∉ MapVector.keys groups →
    ∃ gs, LhsGroups m l gs ∧ Origin m l gs c i
  kept     : ∀ l gs, LhsGroups m l gs → l ∉ MapVector.keys groups → ∀ g ∈ gs, ¬1 < g.2.length →
    ∀ op ∈ g.2, (op, ⟨g.1, g.1⟩) ∈ s.2.constraints
  order    : Order m (ErasedFor m fun l => l ∉ MapVector.keys groups) s.2.constraints
  rounded  : ∀ id gs i, LhsGroups m (var id) gs → var id ∉ MapVector.keys groups →
    m.variableBound id = some i → s.2.variableBound id = some (roundAll (m.residues gs) i)

namespace LhsInv

variable (hm : ModConstraints m) (h : LhsInv m ((lhs, ops) :: lhsGroups) s)

include hm h

-- The constraints of the left-hand side are still those of the map.
theorem start : ∃ gs, LhsGroups m lhs gs ∧ groupByResidue s.2.constraints ops = some gs ∧
    ResidueInv m s.2 (ErasedFor m fun l => l ∉ MapVector.keys ((lhs, ops) :: lhsGroups)) lhs [] gs s := by
  have hops := h.mem _ List.mem_cons_self
  have hrel := (groupByLhs_spec m.constraints).rel _ hops
  have hframe := h.frame _ List.mem_cons_self
  obtain ⟨gs, hg, hgroups⟩ := groupByResidue_spec (fun b hb => (hrel b hb).1) hm.nodup
  refine ⟨gs, ⟨ops, hops, hg⟩, ?group, {
    split   := ⟨ops, hops, hg⟩
    step    := .refl h.same.nodup
    grouped := hgroups.imp fun _ _ op ho => ?grouped
    kept    := by simp
    origin  := fun c i hi => .inl ⟨(hframe _ i).mp hi, by simp⟩
    order   := h.order.imp fun op ho => by simpa using ho
    bound   := fun id i hid hi => (h.bound _ List.mem_cons_self id hid).trans hi
  }⟩
  case group =>
    rw [← hg]
    refine groupByResidue_congr fun op ho => ?_
    obtain ⟨hk, r, rfl⟩ := hrel op ho
    obtain ⟨i, hi⟩ := MapVector.mem_keys.mp hk
    rw [MapVector.lookup_of_mem hm.nodup hi, MapVector.lookup_of_mem h.same.nodup ((hframe r i).mpr hi)]
  case grouped =>
    obtain ⟨_, r, rfl⟩ := hrel op ho.1
    exact (hframe r _).mpr ho.2

theorem finish {gs : List (Int × List SymbolicExpr)} {s' : Bool × IndexingMap} (hlhs : LhsGroups m lhs gs)
    (hr : ResidueInv m s.2 (ErasedFor m fun l => l ∉ MapVector.keys ((lhs, ops) :: lhsGroups)) lhs gs [] s') :
    LhsInv m lhsGroups s' := by
  have hstep := hr.step
  have hk : MapVector.keys ((lhs, ops) :: lhsGroups) = lhs :: MapVector.keys lhsGroups := rfl
  have hd := List.nodup_cons.mp (hk ▸ h.distinct)
  have hne q (hq : q ∈ lhsGroups) : q.1 ≠ lhs := fun he => hd.1 (he ▸ MapVector.mem_keys_of_mem hq)
  refine ⟨fun g hg => h.mem g (.tail _ hg), hd.2, h.same.trans hstep.toSameDomain, ?frame, ?bound, ?origin, ?kept,
    ?order, ?rounded⟩
  case frame =>
    exact fun g hg r i => (hstep.frame _ _ _ (hne g hg)).trans (h.frame g (.tail _ hg) r i)
  case bound =>
    intro g hg id hid
    rw [hstep.bound id fun he => hne g hg (hid.trans he.symm), h.bound g (.tail _ hg) id hid]
  case origin =>
    intro l c i hi hl
    by_cases he : l = lhs
    case pos =>
      subst he
      exact ⟨gs, hlhs, hr.origin c i hi⟩
    case neg => exact h.origin l c i ((hstep.frame _ _ _ he).mp hi) (by simp [hk, he, hl])
  case kept =>
    intro l gs' hgs hl g hmem hlen op ho
    by_cases he : l = lhs
    case pos =>
      subst he
      rw [LhsGroups.unique hgs hlhs] at hmem
      exact hr.kept g hmem hlen op ho
    case neg =>
      have hi := h.kept l gs' hgs (by simp [hk, he, hl]) g hmem hlen op ho
      obtain ⟨c, _, rfl⟩ := ((hgs.spec hm).2.2 g hmem).1.ops op ho
      exact (hstep.frame _ _ _ he).mpr hi
  case order =>
    refine hr.order.imp fun op ho => ?_
    obtain ⟨l, gs', hgs, hl, hmem⟩ := ho
    by_cases he : l = lhs
    case pos =>
      subst he
      rw [LhsGroups.unique hgs hlhs] at hmem
      exact .inr hmem
    case neg => exact .inl ⟨l, gs', hgs, by simp [hk, he, hl], hmem⟩
  case rounded =>
    intro id gs' i hgs hl hi
    by_cases he : var id = lhs
    case pos =>
      subst he
      rw [LhsGroups.unique hgs hlhs]
      exact hr.bound id i rfl hi
    case neg =>
      rw [hstep.bound id (Ne.symm he)]
      exact h.rounded id gs' i hgs (by simp [hk, he, hl]) hi

end LhsInv

theorem mergeLhs_inv (hm : ModConstraints m) (hx : ModsExact m) (h : LhsInv m ((lhs, ops) :: lhsGroups) s) :
    Yields (mergeLhs s (lhs, ops)) (LhsInv m lhsGroups) := by
  obtain ⟨gs, hlhs, hg, hinit⟩ := h.start hm
  have hrun := Yields.foldlM (fun gs s' => ∃ pre, ResidueInv m s.2 _ lhs pre gs s') ⟨[], hinit⟩
    fun g gs s' hinv => by
      obtain ⟨pre, hinv⟩ := hinv
      exact (mergeResidue_inv hm hx h.same.satisfied hinv).imp fun _ hinv' => ⟨_, hinv'⟩
  obtain ⟨s', hs', pre, hinv⟩ := hrun
  obtain rfl : pre = gs := LhsGroups.unique (by simpa using hinv.split) hlhs
  exact ⟨s', by rw [mergeLhs, hg]; exact hs', h.finish hm hlhs hinv⟩

theorem mergeModConstraints_inv (h : ModConstraints m) (hx : ModsExact m) :
    Yields (mergeModConstraints m) (LhsInv m []) := by
  have herased op : ¬ErasedFor m (fun l => l ∉ MapVector.keys (groupByLhs m.constraints)) op := by
    rintro ⟨l, gs, ⟨ops, hops, _⟩, hl, _⟩
    exact hl (MapVector.mem_keys_of_mem hops)
  refine Yields.foldlM (LhsInv m) ?init fun _ _ _ => mergeLhs_inv h hx
  exact {
    mem      := fun _ hg => hg
    distinct := (groupByLhs_spec m.constraints).nodup
    same     := .refl h.nodup
    frame    := fun _ _ _ _ => .rfl
    bound    := fun _ _ _ _ => rfl
    origin   := fun l c i hi hl => by
      obtain ⟨ops, hops, _⟩ := mem_of_mem_find (mem_groupByLhs hi)
      exact absurd (MapVector.mem_keys_of_mem hops) hl
    kept     := fun l gs hgs hl => by
      obtain ⟨ops, hops, _⟩ := hgs
      exact absurd (MapVector.mem_keys_of_mem hops) hl
    order    := ⟨m.constraints, [], by simp, .refl _, fun p hp => .inl ⟨hp, herased p.1⟩, by simp⟩
    rounded  := fun id gs i hgs hl => by
      obtain ⟨ops, hops, _⟩ := hgs
      exact absurd (MapVector.mem_keys_of_mem hops) hl
  }

theorem mergeModConstraints_domain (m : IndexingMap) (h : ModConstraints m) (hx : ModsExact m) :
    ∃ b m', mergeModConstraints m = some (b, m') ∧ ∀ ρ, m'.Domain ρ ↔ m.Domain ρ := by
  obtain ⟨⟨b, m'⟩, heq, hinv⟩ := mergeModConstraints_inv h hx
  exact ⟨b, m', heq, hinv.same.domain⟩

end Lhs

-- Constraints on the remainders of a single dimension.
def dimMod (bound : Interval) (constraints : List (Int × Int)) : IndexingMap where
  symbolicMap  := ⟨1, 0, [var 0]⟩
  dimVars      := [bound]
  rangeVars    := []
  rtVars       := []
  constraints  := constraints.map fun c => (binary .mod (var 0) (const c.1), ⟨c.2, c.2⟩)
  isKnownEmpty := false

theorem modConstraints_dimMod {constraints : List (Int × Int)} (h : ∀ c ∈ constraints, 0 < c.1)
    (hn : (constraints.map (·.1)).Nodup) : ModConstraints (dimMod bound constraints) where
  nodup := by
    have : MapVector.keys (dimMod bound constraints).constraints =
        (constraints.map (·.1)).map fun c => binary .mod (var 0) (const c) := by
      simp [MapVector.keys, dimMod]
    rw [this]
    refine hn.map fun c c' he => ?_
    simpa using he
  modulus l r hk := by
    obtain ⟨c, hc, he⟩ : ∃ c ∈ constraints, binary .mod (var 0) (const c.1) = binary .mod l r := by
      simpa [MapVector.keys, dimMod] using hk
    cases he
    exact ⟨c.1, h c hc, rfl⟩
  noConst l r hk := by
    obtain ⟨c, hc, he⟩ : ∃ c ∈ constraints, binary .mod (var 0) (const c.1) = binary .mod l r := by
      simpa [MapVector.keys, dimMod] using hk
    cases he
    rfl
  bound id r hk := by
    obtain ⟨c, hc, he⟩ : ∃ c ∈ constraints, binary .mod (var 0) (const c.1) = binary .mod (var id) r := by
      simpa [MapVector.keys, dimMod] using hk
    cases he
    rfl

-- The group of the residue one is merged, the group of the residue two has a single constraint.
theorem mergeModConstraints_domain_merged :
    let m := dimMod ⟨-6, 25⟩ [(2, 1), (3, 1), (5, 2)]
    ∃ b m', mergeModConstraints m = some (b, m') ∧ ∀ ρ, m'.Domain ρ ↔ m.Domain ρ := by
  intro m
  refine mergeModConstraints_domain m (modConstraints_dimMod (by decide) (by decide)) fun lhs groups h => ?_
  have hlhs : LhsGroups m (var 0) [(1, [binary .mod (var 0) (const 2), binary .mod (var 0) (const 3)]),
      (2, [binary .mod (var 0) (const 5)])] :=
    ⟨[binary .mod (var 0) (const 2), binary .mod (var 0) (const 3), binary .mod (var 0) (const 5)],
      by decide, by decide⟩
  obtain rfl : lhs = var 0 := by
    obtain ⟨ops, hops, _⟩ := h
    have : groupByLhs m.constraints = [(var 0,
        [binary .mod (var 0) (const 2), binary .mod (var 0) (const 3), binary .mod (var 0) (const 5)])] := by
      decide
    rw [this] at hops
    exact (Prod.mk.inj (List.mem_singleton.mp hops)).1
  rw [h.unique hlhs]
  refine ⟨fun pre g post heq => ?merge, fun id i hid hi _ => ?round⟩
  case round =>
    cases hid
    cases hi
    refine ⟨by decide, by decide, .inr ⟨by decide, by decide, by decide, by decide, .inl rfl⟩⟩
  case merge =>
    match pre, heq with
    | [], heq =>
      cases heq
      refine ⟨6, by decide, fun _ => ⟨.inr (.inr fun c hc => ?_), fun i hi => ?_, by simp⟩⟩
      · have : c = 2 ∨ c = 3 := by simpa using hc
        show 1 < c
        omega
      · simp [m, dimMod] at hi
    | [_], heq =>
      cases heq
      exact ⟨5, by decide, fun hlen => by simp at hlen⟩
    | _ :: _ :: _, heq => simp at heq

theorem mergeModConstraints_not_domain :
    let m := dimMod ⟨-5, 5⟩ [(3, 1)]
    ModConstraints m ∧ ¬ ∃ b m', mergeModConstraints m = some (b, m') ∧ ∀ ρ, m'.Domain ρ ↔ m.Domain ρ := by
  refine ⟨modConstraints_dimMod (by decide) (by decide), ?_⟩
  rintro ⟨b, m', heq, h⟩
  have he : mergeModConstraints (dimMod ⟨-5, 5⟩ [(3, 1)]) = some (true, dimMod ⟨-2, 4⟩ [(3, 1)]) := by
    decide
  cases he.symm.trans heq
  exact absurd ((h fun _ => -5).mpr (by decide)) (by decide)

end IndexingMap
end Indexing
