import XlaModel.Indexing.Map
import XlaModel.Lib.Rounding

namespace Indexing.Interval

variable {i i₁ i₂ : Interval} {v w p : Int}

theorem mem_def : v ∈ i ↔ i.lower ≤ v ∧ v ≤ i.upper :=
  Iff.rfl

theorem isPoint_iff : i.isPoint ↔ i.lower = i.upper := by
  simp [isPoint]

theorem eq_mk_of_isPoint (h : i.isPoint) : i = ⟨i.lower, i.lower⟩ := by
  rw [isPoint_iff] at h
  rw [mk.injEq]
  exact ⟨rfl, h.symm⟩

theorem eq_of_isPoint (h : i.isPoint) (hv : v ∈ i) : v = i.lower := by
  rw [isPoint_iff] at h
  rw [mem_def] at hv
  omega

theorem mem_intersect (h₁ : v ∈ i₁) (h₂ : v ∈ i₂) : v ∈ i₁.intersect i₂ := by
  simp only [mem_def, intersect] at h₁ h₂ ⊢
  split <;> simp only <;> omega

theorem mem_intersect_iff : v ∈ i₁.intersect i₂ ↔ v ∈ i₁ ∧ v ∈ i₂ := by
  simp only [mem_def, intersect]
  split <;> simp only <;> omega

theorem isFeasible_of_mem (h : v ∈ i) : i.isFeasible := by
  simp only [mem_def] at h
  simp only [isFeasible, decide_eq_true_eq]
  omega

-- A value of a contained interval is a value of the containing one.
theorem mem_of_contains (h : i₁.contains i₂) (hv : v ∈ i₂) : v ∈ i₁ := by
  have h : i₁.intersect i₂ = i₂ := by simpa [contains] using h
  rw [← h] at hv
  simp only [mem_def, intersect] at hv ⊢
  split at hv <;> simp only at hv <;> omega

theorem mem_min (h₁ : v ∈ i₁) (h₂ : w ∈ i₂) : Min.min v w ∈ i₁.min i₂ := by
  simp only [mem_def, min] at h₁ h₂ ⊢
  omega

theorem mem_max (h₁ : v ∈ i₁) (h₂ : w ∈ i₂) : Max.max v w ∈ i₁.max i₂ := by
  simp only [mem_def, max] at h₁ h₂ ⊢
  omega

-- Saturated bounds are sound, as the values do not overflow.
theorem mem_add (hf : ¬overflows (v + w)) (h₁ : v ∈ i₁) (h₂ : w ∈ i₂) : v + w ∈ i₁.add i₂ := by
  have hl : kMin < 0 := by decide
  have hu : 0 < kMax := by decide
  simp only [overflows] at hf
  simp only [mem_def] at h₁ h₂
  simp only [mem_def, add, overflows]
  split_ifs <;> simp only <;> omega

section Mul

theorem lower_mulConst_le (hf : ¬overflows x) (hv : v ∈ i) (h : v * p ≤ x) :
    (i.mulConst p).lower ≤ x := by
  simp only [overflows] at hf
  simp only [mem_def] at hv
  simp only [mulConst]
  cases lt_or_ge p 0
  case inl hp =>
    have := mul_le_mul_of_nonpos_right hv.2 hp.le
    split_ifs <;> omega
  case inr hp =>
    have := mul_le_mul_of_nonneg_right hv.1 hp
    split_ifs <;> omega

theorem le_upper_mulConst (hf : ¬overflows x) (hv : v ∈ i) (h : x ≤ v * p) :
    x ≤ (i.mulConst p).upper := by
  simp only [overflows] at hf
  simp only [mem_def] at hv
  simp only [mulConst]
  cases lt_or_ge p 0
  case inl hp =>
    have := mul_le_mul_of_nonpos_right hv.1 hp.le
    split_ifs <;> omega
  case inr hp =>
    have := mul_le_mul_of_nonneg_right hv.2 hp
    split_ifs <;> omega

theorem mem_mul (hf : ¬overflows (v * w)) (h₁ : v ∈ i₁) (h₂ : w ∈ i₂) : v * w ∈ i₁.mul i₂ := by
  rw [mem_def] at h₂
  cases le_total 0 v
  case inl hv =>
    have hl := lower_mulConst_le hf h₁ <| mul_le_mul_of_nonneg_left h₂.1 hv
    have hu := le_upper_mulConst hf h₁ <| mul_le_mul_of_nonneg_left h₂.2 hv
    exact ⟨(min_le_left ..).trans hl, hu.trans (le_max_right ..)⟩
  case inr hv =>
    have hl := lower_mulConst_le hf h₁ <| mul_le_mul_of_nonpos_left h₂.2 hv
    have hu := le_upper_mulConst hf h₁ <| mul_le_mul_of_nonpos_left h₂.1 hv
    exact ⟨(min_le_right ..).trans hl, hu.trans (le_max_left ..)⟩

end Mul

end Indexing.Interval

namespace Indexing.Interval

open SignedDivision

variable {a b : Interval} {x y d v p : Int}

theorem kMin_eq : kMin = -9223372036854775808 :=
  rfl

theorem kMax_eq : kMax = 9223372036854775807 :=
  rfl

-- The saturated bounds of an interval stand for unbounded ones.
def Admits (i : Interval) (v : Int) : Prop :=
  (i.lower = kMin ∨ i.lower ≤ v) ∧ (i.upper = kMax ∨ v ≤ i.upper)

theorem admits_of_mem (h : v ∈ a) : a.Admits v :=
  ⟨.inr h.1, .inr h.2⟩

-- The bounds are values of 64-bit integers, and the interval is feasible.
structure Bounded (i : Interval) : Prop where
  lower    : kMin ≤ i.lower
  upper    : i.upper ≤ kMax
  feasible : i.lower ≤ i.upper

theorem Bounded.lower_mem (h : a.Bounded) : a.lower ∈ a :=
  ⟨le_rfl, h.feasible⟩

-- The results for the members of `a` and `b` lie in the computed intervals, if they fit into 64 bits.
structure ArithmeticSound (Member : Interval → Int → Prop) (a b : Interval) (d : Int) : Prop where
  add      : ∀ x y, Member a x → Member b y → ¬overflows (x + y) → x + y ∈ a.add b
  mul      : ∀ x y, Member a x → Member b y → ¬overflows (x * y) → x * y ∈ a.mul b
  neg      : ∀ x, Member a x → ¬overflows (-x) → -x ∈ a.neg
  min      : ∀ x y, Member a x → Member b y → ¬overflows (Min.min x y) → Min.min x y ∈ a.min b
  max      : ∀ x y, Member a x → Member b y → ¬overflows (Max.max x y) → Max.max x y ∈ a.max b
  floorDiv : ∀ x, Member a x → ¬overflows (x.fdiv d) → x.fdiv d ∈ a.floorDiv d

-- A definite result is the truth value of a proposition.
def Decides (result : Option Bool) (P : Prop) : Prop :=
  ∀ r, result = some r → (r ↔ P)

structure ComparisonSound (a b : Interval) (x y : Int) : Prop where
  gt : Decides (a.gt b) (x > y)
  lt : Decides (a.lt b) (x < y)
  ge : Decides (a.ge b) (x ≥ y)
  le : Decides (a.le b) (x ≤ y)
  eq : Decides (a.eq b) (x = y)
  ne : Decides (a.ne b) (x ≠ y)

section Comparison

theorem Decides.not {r : Option Bool} {P : Prop} (h : Decides r P) : Decides (r.map Bool.not) ¬P := by
  intro s hs
  obtain ⟨t, ht, rfl⟩ := Option.map_eq_some_iff.mp hs
  rw [←h t ht, Bool.not_eq_true', Bool.not_eq_true]

theorem decides_gt (hx : x ∈ a) (hy : y ∈ b) : Decides (a.gt b) (x > y) := by
  rw [mem_def] at hx hy
  intro r hr
  rw [gt] at hr
  split_ifs at hr
  all_goals
    cases hr
    simp only [Bool.false_eq_true, true_iff, false_iff]
    omega

theorem decides_eq (hx : x ∈ a) (hy : y ∈ b) : Decides (a.eq b) (x = y) := by
  intro r hr
  rw [eq] at hr
  by_cases hf : (a.intersect b).isFeasible
  case neg =>
    rw [if_pos hf] at hr
    cases hr
    refine iff_of_false Bool.false_ne_true ?_
    rintro rfl
    exact hf <| isFeasible_of_mem <| mem_intersect hx hy
  case pos =>
    rw [if_neg (not_not.mpr hf)] at hr
    split_ifs at hr with hp
    cases hr
    have hm : (a.intersect b).lower ∈ a.intersect b := ⟨le_rfl, (isPoint_iff.mp hp.1).le⟩
    rw [mem_intersect_iff] at hm
    refine iff_of_true rfl ?_
    rw [eq_of_isPoint hp.2.1 hx, eq_of_isPoint hp.2.2 hy, ←eq_of_isPoint hp.2.1 hm.1, ←eq_of_isPoint hp.2.2 hm.2]

theorem comparisonSound (hx : x ∈ a) (hy : y ∈ b) : ComparisonSound a b x y where
  gt := decides_gt hx hy
  lt := decides_gt hy hx
  ge := by simpa only [not_lt, gt_iff_lt, ge] using (decides_gt hy hx).not
  le := by simpa only [not_lt, gt_iff_lt, le] using (decides_gt hx hy).not
  eq := decides_eq hx hy
  ne := (decides_eq hx hy).not

end Comparison

section Arithmetic

theorem admits_add (hf : ¬overflows (x + y)) (hx : a.Admits x) (hy : b.Admits y) : x + y ∈ a.add b := by
  have hmin := kMin_eq
  have hmax := kMax_eq
  simp only [overflows] at hf
  simp only [Admits] at hx hy
  simp only [mem_def, add, overflows]
  split_ifs <;> simp only <;> omega

theorem admits_neg (hf : ¬overflows (-x)) (hx : a.Admits x) : -x ∈ a.neg := by
  simp only [overflows, kMin_eq, kMax_eq] at hf
  simp only [Admits, kMin_eq, kMax_eq] at hx
  simp only [mem_def, neg, kMin_eq, kMax_eq]
  constructor <;> split_ifs <;> omega

theorem admits_min (hf : ¬overflows (Min.min x y)) (hx : a.Admits x) (hy : b.Admits y) : Min.min x y ∈ a.min b := by
  simp only [overflows, kMin_eq, kMax_eq] at hf
  simp only [Admits, kMin_eq, kMax_eq] at hx hy
  simp only [mem_def, min]
  omega

theorem admits_max (hf : ¬overflows (Max.max x y)) (hx : a.Admits x) (hy : b.Admits y) : Max.max x y ∈ a.max b := by
  simp only [overflows, kMin_eq, kMax_eq] at hf
  simp only [Admits, kMin_eq, kMax_eq] at hx hy
  simp only [mem_def, max]
  omega

end Arithmetic

section FloorDiv

-- Division of a bound that both bounds are equal to and that is saturated.
def DivisionExact (a : Interval) (d : Int) : Prop :=
  (a.lower = kMax → d = 1) ∧ (a.upper = kMin → d = 1 ∨ d = -1)

section Saturated

variable {l u : Int}

theorem saturateDiv_le (hd : 0 < d) (he : l = kMax → d = 1) (hf : ¬overflows (x.fdiv d)) (hl : l = kMin ∨ l ≤ x) :
    saturateDiv l d ≤ x.fdiv d := by
  rw [saturateDiv]
  split_ifs with hmin hmax
  case pos => exact Int.not_lt.mp fun h => hf (.inl h)
  case pos =>
    obtain rfl := he hmax
    rw [Int.fdiv_one]
    exact hmax ▸ hl.resolve_left hmin
  case neg => exact fdiv_le_fdiv hd <| hl.resolve_left hmin

theorem le_saturateDiv (hd : 0 < d) (he : u = kMin → d = 1) (hf : ¬overflows (x.fdiv d)) (hu : u = kMax ∨ x ≤ u) :
    x.fdiv d ≤ saturateDiv u d := by
  rw [saturateDiv]
  split_ifs with hmin hmax
  case pos =>
    obtain rfl := he hmin
    rw [Int.fdiv_one]
    exact hmin ▸ hu.resolve_left (by rw [hmin]; decide)
  case pos => exact Int.not_lt.mp fun h => hf (.inr h)
  case neg => exact fdiv_le_fdiv hd <| hu.resolve_left hmax

theorem saturateDiv_le_of_neg (hd : d < 0) (he : u = kMin → d = -1) (hf : ¬overflows (x.fdiv d))
    (hu : u = kMax ∨ x ≤ u) : saturateDiv u d ≤ x.fdiv d := by
  rw [saturateDiv, if_neg (show ¬d > 0 by omega), if_neg (show ¬d > 0 by omega)]
  split_ifs with hmin hmax
  case pos =>
    -- The quotient overflows.
    obtain rfl := he hmin
    have hx := hu.resolve_left (by rw [hmin]; decide)
    rw [fdiv_neg_one, overflows, kMax_eq] at hf
    rw [hmin, kMin_eq] at hx
    omega
  case pos => exact Int.not_lt.mp fun h => hf (.inl h)
  case neg => exact fdiv_le_fdiv_of_neg hd <| hu.resolve_left hmax

theorem le_saturateDiv_of_neg (hd : d < 0) (he : l ≠ kMax) (hf : ¬overflows (x.fdiv d)) (hl : l = kMin ∨ l ≤ x) :
    x.fdiv d ≤ saturateDiv l d := by
  rw [saturateDiv, if_neg (show ¬d > 0 by omega), if_neg he]
  split_ifs with hmin
  case pos => exact Int.not_lt.mp fun h => hf (.inr h)
  case neg => exact fdiv_le_fdiv_of_neg hd <| hl.resolve_left hmin

end Saturated

theorem admits_floorDiv (hd : d ≠ 0) (he : a.DivisionExact d) (hf : ¬overflows (x.fdiv d)) (hx : a.Admits x) :
    x.fdiv d ∈ a.floorDiv d := by
  obtain hd | hd := lt_or_gt_of_ne hd
  case inl =>
    have hl := saturateDiv_le_of_neg hd (fun h => (he.2 h).resolve_left (by omega)) hf hx.2
    have hu := le_saturateDiv_of_neg hd (fun h => absurd (he.1 h) (by omega)) hf hx.1
    exact ⟨(min_le_right ..).trans hl, hu.trans (le_max_left ..)⟩
  case inr =>
    have hl := saturateDiv_le hd he.1 hf hx.1
    have hu := le_saturateDiv hd (fun h => (he.2 h).resolve_right (by omega)) hf hx.2
    exact ⟨(min_le_left ..).trans hl, hu.trans (le_max_right ..)⟩

-- The quotients of the largest and of the smallest value.
theorem kMax_fdiv_pos (hd : 0 < d) (h : kMax ≤ kMax.fdiv d) : d = 1 := by
  rw [Int.fdiv_eq_ediv_of_nonneg _ hd.le, Int.le_ediv_iff_mul_le hd, kMax_eq] at h
  omega

theorem kMax_fdiv_neg (hd : d < 0) : kMin < kMax.fdiv d := by
  rw [←Int.neg_fdiv_neg, Int.fdiv_eq_ediv_of_nonneg _ (by omega), Int.lt_iff_add_one_le,
    Int.le_ediv_iff_mul_le (by omega), kMin_eq, kMax_eq]
  omega

theorem kMin_fdiv_pos (hd : 0 < d) (h : kMin.fdiv d ≤ kMin) : d = 1 := by
  rw [Int.fdiv_eq_ediv_of_nonneg _ hd.le, Int.ediv_le_iff_le_mul hd, kMin_eq] at h
  omega

theorem kMin_fdiv_neg (hd : d < 0) (h : kMax ≤ kMin.fdiv d) : d = -1 := by
  rw [←Int.neg_fdiv_neg, Int.fdiv_eq_ediv_of_nonneg _ (by omega), Int.le_ediv_iff_mul_le (by omega), kMin_eq,
    kMax_eq] at h
  omega

theorem not_overflows_fdiv (hd : d ≠ 0) (hne : x = kMin → d ≠ -1) (hl : kMin ≤ x) (hu : x ≤ kMax) :
    ¬overflows (x.fdiv d) := by
  rw [overflows, not_or, not_lt, not_lt]
  exact fdiv_mem (by decide) hd hl hu hne

-- The division of the smallest or of the largest value shows that the condition is necessary.
theorem divisionExact_of_sound (ha : a.Bounded) (hd : d ≠ 0)
    (h : ∀ x ∈ a, ¬overflows (x.fdiv d) → x.fdiv d ∈ a.floorDiv d) : a.DivisionExact d := by
  have hmin := kMin_eq
  have hmax := kMax_eq
  have hl := ha.lower
  have hu := ha.upper
  have hf := ha.feasible
  constructor
  case left =>
    intro he
    have hm := h kMax ⟨by omega, by omega⟩ (not_overflows_fdiv hd (by omega) (by omega) le_rfl)
    rw [floorDiv, he, show a.upper = kMax by omega, min_self, max_self, saturateDiv, if_neg (by decide),
      if_pos rfl] at hm
    obtain hd | hd := lt_or_gt_of_ne hd
    case inl =>
      rw [if_neg (by omega)] at hm
      exact absurd (kMax_fdiv_neg hd) (not_lt.mpr hm.2)
    case inr =>
      rw [if_pos hd] at hm
      exact kMax_fdiv_pos hd hm.1
  case right =>
    intro he
    by_cases hone : d = -1
    case pos => exact .inr hone
    case neg =>
      have hm := h kMin ⟨by omega, by omega⟩ (not_overflows_fdiv hd (fun _ => hone) le_rfl (by omega))
      rw [floorDiv, he, show a.lower = kMin by omega, min_self, max_self, saturateDiv, if_pos rfl] at hm
      obtain hd | hd := lt_or_gt_of_ne hd
      case inl =>
        rw [if_neg (by omega)] at hm
        exact .inr <| kMin_fdiv_neg hd hm.1
      case inr =>
        rw [if_pos hd] at hm
        exact .inl <| kMin_fdiv_pos hd hm.2

end FloorDiv

section Mul

-- The product of -1 and the largest value is not considered to be saturated, if the largest value is the
-- bound of the right operand.
def ProductExact (a b : Interval) : Prop :=
  a.lower = -1 → b.upper = kMax → (a.mulConst b.lower).lower = kMin

theorem Admits.mem (h : a.Admits x) (hf : ¬overflows x) : x ∈ a := by
  simp only [overflows] at hf
  simp only [Admits] at h
  rw [mem_def]
  omega

-- A factor that does not fit into 64 bits, although the product does.
theorem factor_of_overflows (hx : overflows x) (hf : ¬overflows (x * y)) : y = 0 ∨ (x = -kMin ∧ y = -1) := by
  simp only [overflows, kMin_eq, kMax_eq, not_or, not_lt] at hx hf
  rw [kMin_eq]
  obtain hy | rfl | hy := lt_trichotomy y 0
  case inl =>
    obtain rfl | hy : y = -1 ∨ y ≤ -2 := by omega
    case inl => omega
    case inr =>
      obtain hx | hx := hx
      case inl => nlinarith
      case inr => nlinarith
  case inr.inl => exact .inl rfl
  case inr.inr =>
    obtain hx | hx := hx
    case inl => nlinarith
    case inr => nlinarith

theorem lower_mulConst_of_neg (hp : p < 0) : (a.mulConst p).lower =
    if overflows (a.upper * p) ∨ (p = -1 ∧ a.upper = kMax) then kMin else a.upper * p := by
  simp only [mulConst, if_pos hp]

theorem lower_mulConst_of_nonneg (hp : ¬p < 0) : (a.mulConst p).lower =
    if overflows (a.lower * p) ∨ (p = -1 ∧ a.lower = kMax) then kMin else a.lower * p := by
  simp only [mulConst, if_neg hp]

theorem kMin_le_mulConst : kMin ≤ (a.mulConst p).lower ∧ kMin ≤ (a.mulConst p).upper := by
  simp only [mulConst]
  generalize (if p < 0 then a.upper else a.lower) = l
  generalize (if p < 0 then a.lower else a.upper) = u
  constructor
  case left =>
    split_ifs with ho
    case pos => exact le_rfl
    case neg => exact not_lt.mp fun hlt => ho (.inl (.inl hlt))
  case right =>
    split_ifs with ho
    case pos => decide
    case neg => exact not_lt.mp fun hlt => ho (.inl hlt)

theorem kMin_mem_mul (h : (a.mulConst b.lower).lower = kMin ∨ (a.mulConst b.upper).lower = kMin) :
    kMin ∈ a.mul b := by
  refine ⟨?_, kMin_le_mulConst.2.trans (le_max_left ..)⟩
  obtain h | h := h
  case inl => exact (min_le_left ..).trans h.le
  case inr => exact (min_le_right ..).trans h.le

theorem admits_mul (ha : a.Bounded) (hb : b.Bounded) (he : ProductExact a b) (hf : ¬overflows (x * y))
    (hx : a.Admits x) (hy : b.Admits y) : x * y ∈ a.mul b := by
  have hzero : ¬overflows 0 := by decide
  by_cases hox : overflows x
  case pos =>
    obtain rfl | ⟨rfl, rfl⟩ := factor_of_overflows hox hf
    case inl =>
      rw [mul_zero, ←mul_zero a.lower]
      exact mem_mul (by rwa [mul_zero]) ha.lower_mem (hy.mem hzero)
    case inr =>
      -- The left operand is unbounded above.
      have hu : a.upper = kMax := hx.2.resolve_right fun h => by
        have := ha.upper
        rw [kMin_eq] at h
        rw [kMax_eq] at this
        omega
      have hl := (hy.mem (by decide)).1
      rw [neg_mul_neg, mul_one]
      apply kMin_mem_mul
      left
      rw [lower_mulConst_of_neg (by omega), if_pos]
      simp only [overflows, hu, kMax_eq, kMin_eq, and_true]
      omega
  case neg =>
    by_cases hoy : overflows y
    case neg => exact mem_mul hf (hx.mem hox) (hy.mem hoy)
    case pos =>
      obtain rfl | ⟨rfl, rfl⟩ := factor_of_overflows hoy (mul_comm x y ▸ hf)
      case inl =>
        rw [zero_mul, ←zero_mul b.lower]
        exact mem_mul (by rwa [zero_mul]) (hx.mem hzero) hb.lower_mem
      case inr =>
        -- The right operand is unbounded above.
        have hu : b.upper = kMax := hy.2.resolve_right fun h => by
          have := hb.upper
          rw [kMin_eq] at h
          rw [kMax_eq] at this
          omega
        have hl := (hx.mem hox).1
        rw [neg_mul_neg, one_mul]
        apply kMin_mem_mul
        by_cases hone : a.lower = -1
        case pos => exact .inl (he hone hu)
        case neg =>
          right
          rw [lower_mulConst_of_nonneg (by rw [hu]; decide), if_pos]
          simp only [overflows, hu, kMax_eq, kMin_eq]
          omega

-- The product of -1 and a value above the largest one shows that the condition is necessary.
theorem productExact_of_sound (ha : a.Bounded) (hb : b.Bounded)
    (h : ∀ x y, a.Admits x → b.Admits y → ¬overflows (x * y) → x * y ∈ a.mul b) : ProductExact a b := by
  intro hl hu
  have hx : a.Admits (-1) := ⟨.inr hl.le, .inr (hl ▸ ha.feasible)⟩
  have hy : b.Admits (-kMin) := by
    refine ⟨.inr ?_, .inl hu⟩
    have := hb.feasible
    rw [hu, kMax_eq] at this
    rw [kMin_eq]
    omega
  have hm : (a.mul b).lower ≤ kMin := (h (-1) (-kMin) hx hy (by decide)).1
  have hlast : (a.mulConst b.upper).lower = kMin + 1 := by
    rw [lower_mulConst_of_nonneg (by rw [hu]; decide), hl, hu]
    decide
  obtain h | h := min_le_iff.mp hm
  case inl => exact le_antisymm h kMin_le_mulConst.1
  case inr => exact absurd (hlast ▸ h) (by decide)

end Mul

section Sound

theorem arithmeticSound_iff (ha : a.Bounded) (hd : d ≠ 0) :
    ArithmeticSound (fun i v => v ∈ i) a b d ↔ a.DivisionExact d where
  mp  := fun h => divisionExact_of_sound ha hd h.floorDiv
  mpr := fun h => {
    add      := fun _ _ hx hy hf => mem_add hf hx hy
    mul      := fun _ _ hx hy hf => mem_mul hf hx hy
    neg      := fun _ hx hf => admits_neg hf (admits_of_mem hx)
    min      := fun _ _ hx hy _ => mem_min hx hy
    max      := fun _ _ hx hy _ => mem_max hx hy
    floorDiv := fun _ hx hf => admits_floorDiv hd h hf (admits_of_mem hx)
  }

theorem arithmeticSound_admits_iff (ha : a.Bounded) (hb : b.Bounded) (hd : d ≠ 0) :
    ArithmeticSound Admits a b d ↔ a.DivisionExact d ∧ ProductExact a b where
  mp  := fun h =>
    ⟨divisionExact_of_sound ha hd fun x hx => h.floorDiv x (admits_of_mem hx), productExact_of_sound ha hb h.mul⟩
  mpr := fun h => {
    add      := fun _ _ hx hy hf => admits_add hf hx hy
    mul      := fun _ _ hx hy hf => admits_mul ha hb h.2 hf hx hy
    neg      := fun _ hx hf => admits_neg hf hx
    min      := fun _ _ hx hy hf => admits_min hf hx hy
    max      := fun _ _ hx hy hf => admits_max hf hx hy
    floorDiv := fun _ hx hf => admits_floorDiv hd h.1 hf hx
  }

-- Both for the values within the bounds and for saturated bounds that stand for unbounded ones.
theorem operations_sound_iff (ha : a.Bounded) (hb : b.Bounded) (hd : d ≠ 0) :
    ((ArithmeticSound (fun i v => v ∈ i) a b d ∧ ∀ x ∈ a, ∀ y ∈ b, ComparisonSound a b x y) ↔ a.DivisionExact d) ∧
      (ArithmeticSound Admits a b d ↔ a.DivisionExact d ∧ ProductExact a b) := by
  constructor
  case left =>
    rw [arithmeticSound_iff ha hd]
    exact and_iff_left fun x hx y hy => comparisonSound hx hy
  case right => exact arithmeticSound_admits_iff ha hb hd

theorem operations_sound_iff_bytes :
    ((ArithmeticSound (fun i v => v ∈ i) ⟨0, 255⟩ ⟨-1, 1⟩ 2 ∧
        ∀ x ∈ (⟨0, 255⟩ : Interval), ∀ y ∈ (⟨-1, 1⟩ : Interval), ComparisonSound ⟨0, 255⟩ ⟨-1, 1⟩ x y) ↔
      DivisionExact ⟨0, 255⟩ 2) ∧
      (ArithmeticSound Admits ⟨0, 255⟩ ⟨-1, 1⟩ 2 ↔ DivisionExact ⟨0, 255⟩ 2 ∧ ProductExact ⟨0, 255⟩ ⟨-1, 1⟩) :=
  operations_sound_iff ⟨by decide, by decide, by decide⟩ ⟨by decide, by decide, by decide⟩ (by decide)

-- The interval of the largest value is closed under the division by two.
theorem not_operations_sound :
    ¬(ArithmeticSound (fun i v => v ∈ i) ⟨kMax, kMax⟩ ⟨kMax, kMax⟩ 2 ∧
      ∀ x ∈ (⟨kMax, kMax⟩ : Interval), ∀ y ∈ (⟨kMax, kMax⟩ : Interval),
        ComparisonSound ⟨kMax, kMax⟩ ⟨kMax, kMax⟩ x y) :=
  fun h => absurd (h.1.floorDiv kMax (by decide) (by decide)) (by decide)

end Sound
end Indexing.Interval
