import XlaModel.Indexing.ConstraintSimplifier
import XlaModel.Indexing.Theorems.Constraints

-- The rounding of bounds to the numbers with a residue.
namespace Indexing

variable {i i' : Interval} {div res x y : Int} {gs : List (Int × Int)}

-- The rounding without overflow.
def Interval.rounded (i : Interval) (div res : Int) : Interval :=
  let l := i.lower.tdiv div * div + res
  let h := i.upper.tdiv div * div + res
  ⟨if l ≥ i.lower then l else l + div, if h ≤ i.upper then h else h - div⟩

structure RoundFits (i : Interval) (div res : Int) : Prop where
  truncated : ¬overflows (i.lower.tdiv div * div + res) ∧ ¬overflows (i.upper.tdiv div * div + res)
  rounded   : ¬overflows (i.rounded div res).lower ∧ ¬overflows (i.rounded div res).upper

-- The truncation of a negative bound that is not a multiple of the divisor is its ceiling.
def LowerExact (i : Interval) (div res : Int) : Prop :=
  0 ≤ i.lower ∨ i.lower % div = 0 ∨ res < i.lower % div

def UpperExact (i : Interval) (div res : Int) : Prop :=
  0 ≤ i.upper ∨ i.upper % div = 0 ∨ res ≤ i.upper % div

-- No number with the residue is skipped at the lower bound or added at the upper bound.
structure RoundExact (i : Interval) (div res : Int) : Prop where
  lower : LowerExact i div res ∨ i.upper < i.lower - i.lower % div + res
  upper : LowerExact i div res → UpperExact i div res ∨ i.upper - i.upper % div + res < i.lower

instance : Decidable (LowerExact i div res) :=
  inferInstanceAs (Decidable (_ ∨ _ ∨ _))

instance : Decidable (UpperExact i div res) :=
  inferInstanceAs (Decidable (_ ∨ _ ∨ _))

instance : Decidable (RoundFits i div res) :=
  decidable_of_iff ((_ ∧ _) ∧ _ ∧ _) ⟨fun h => ⟨h.1, h.2⟩, fun h => ⟨h.truncated, h.rounded⟩⟩

instance : Decidable (RoundExact i div res) :=
  decidable_of_iff (_ ∧ _) ⟨fun h => ⟨h.1, h.2⟩, fun h => ⟨h.lower, h.upper⟩⟩

theorem RoundFits.round_eq (h : RoundFits i div res) : i.round div res = i.rounded div res := by
  have hr := h.rounded
  simp only [Interval.rounded] at hr
  simp only [Interval.round, Interval.rounded, wrap64_eq h.truncated.1, wrap64_eq h.truncated.2]
  congr 1
  case e_lower =>
    split
    case isTrue      => rfl
    case isFalse hlt => exact wrap64_eq (by simpa [hlt] using hr.1)
  case e_upper =>
    split
    case isTrue      => rfl
    case isFalse hlt => exact wrap64_eq (by simpa [hlt] using hr.2)

theorem tdiv_mul_eq (hd : 0 < div) (a : Int) :
    a.tdiv div * div = if 0 ≤ a ∨ a % div = 0 then a - a % div else a - a % div + div := by
  have h := Int.ediv_mul_add_emod a div
  simp only [Int.tdiv_eq_ediv, Int.add_mul, Int.dvd_iff_emod_eq_zero, Int.sign_eq_one_of_pos hd]
  split <;> omega

theorem le_of_emod_eq (hd : 0 < div) (he : x % div = y % div) (h : y - div < x) : y ≤ x := by
  obtain ⟨k, hk⟩ := Int.ModEq.dvd (show y ≡ x [ZMOD div] from he.symm)
  have : -1 < k := by
    by_contra hn
    have := mul_le_mul_of_nonneg_left (not_lt.mp hn) hd.le
    omega
  have := mul_nonneg hd.le (show 0 ≤ k by omega)
  omega

theorem lower_round (h₀ : 0 ≤ res) (h₁ : res < div) :
    ((i.rounded div res).lower % div = res ∧ i.lower ≤ (i.rounded div res).lower) ∧
    (LowerExact i div res → (i.rounded div res).lower - div < i.lower) ∧
    (¬LowerExact i div res → (i.rounded div res).lower = i.lower - i.lower % div + res + div) := by
  have hd := h₀.trans_lt h₁
  have := Int.emod_nonneg i.lower hd.ne'
  have := Int.emod_lt_of_pos i.lower hd
  refine ⟨⟨?_, ?_⟩, ?_, ?_⟩
  · simp only [Interval.rounded]
    split <;> simp [Int.add_emod, Int.emod_eq_of_lt h₀ h₁]
  all_goals simp only [Interval.rounded, LowerExact, tdiv_mul_eq hd]
  all_goals split <;> split <;> omega

theorem upper_round (h₀ : 0 ≤ res) (h₁ : res < div) :
    ((i.rounded div res).upper % div = res ∧ i.upper < (i.rounded div res).upper + div) ∧
    (UpperExact i div res → (i.rounded div res).upper ≤ i.upper) ∧
    (¬UpperExact i div res → (i.rounded div res).upper = i.upper - i.upper % div + res) := by
  have hd := h₀.trans_lt h₁
  have := Int.emod_nonneg i.upper hd.ne'
  have := Int.emod_lt_of_pos i.upper hd
  refine ⟨⟨?_, ?_⟩, ?_, ?_⟩
  · simp only [Interval.rounded]
    split <;> simp [Int.add_emod, Int.emod_eq_of_lt h₀ h₁]
  all_goals simp only [Interval.rounded, UpperExact, tdiv_mul_eq hd]
  all_goals split <;> split <;> omega

theorem emod_self_sub_add (a : Int) (h₀ : 0 ≤ res) (h₁ : res < div) :
    (a - a % div + res) % div = res := by
  have : div ∣ a - a % div := Int.dvd_self_sub_emod
  rw [Int.add_emod, Int.emod_eq_zero_of_dvd this, zero_add, Int.emod_emod, Int.emod_eq_of_lt h₀ h₁]

theorem roundExact_iff (i : Interval) (h₀ : 0 ≤ res) (h₁ : res < div) :
    RoundExact i div res ↔ ∀ x, x % div = res → (x ∈ i ↔ x ∈ i.rounded div res) := by
  have hd := h₀.trans_lt h₁
  have ⟨⟨hel, hl⟩, hle, hle'⟩ := lower_round (i := i) h₀ h₁
  have ⟨⟨heu, hu⟩, hue, hue'⟩ := upper_round (i := i) h₀ h₁
  have hel' := emod_self_sub_add i.lower h₀ h₁
  have heu' := emod_self_sub_add i.upper h₀ h₁
  have := Int.emod_lt_of_pos i.lower hd
  have := Int.emod_lt_of_pos i.upper hd
  have := Int.emod_nonneg i.lower hd.ne'
  have := Int.emod_nonneg i.upper hd.ne'
  simp only [Interval.mem_def]
  constructor
  case mp =>
    intro h x hx
    by_cases hx' : LowerExact i div res
    case pos =>
      have hle := hle hx'
      constructor
      case mp =>
        intro hm
        exact ⟨le_of_emod_eq hd (hx.trans hel.symm) (by omega),
          le_of_emod_eq hd (heu.trans hx.symm) (by omega)⟩
      case mpr =>
        intro hm
        by_cases hx'' : UpperExact i div res
        case pos => exact ⟨by omega, hm.2.trans (hue hx'')⟩
        case neg =>
          have := (h.upper hx').resolve_left hx''
          have := hue' hx''
          omega
    case neg =>
      -- No number with the residue is in the interval.
      have hle := hle' hx'
      have hk := h.lower.resolve_left hx'
      have hge : i.lower ≤ x → i.lower - i.lower % div + res ≤ x :=
        fun hm => le_of_emod_eq hd (hx.trans hel'.symm) (by omega)
      constructor
      case mp  => intro hm; have := hge hm.1; omega
      case mpr =>
        intro hm
        by_cases hx'' : UpperExact i div res
        case pos => have := hue hx''; omega
        case neg =>
          have := hue' hx''
          omega
  case mpr =>
    intro h
    constructor
    case lower =>
      by_contra hn
      have ⟨hx', hk⟩ := not_or.mp hn
      have hlow : ¬(0 ≤ i.lower ∨ i.lower % div = 0 ∨ res < i.lower % div) := hx'
      have := ((h _ hel').mp (by omega)).1
      have := hle' hx'
      omega
    case upper =>
      intro hx'
      by_contra hn
      have ⟨hx'', hk⟩ := not_or.mp hn
      have hup : ¬(0 ≤ i.upper ∨ i.upper % div = 0 ∨ res ≤ i.upper % div) := hx''
      have := (h _ heu').mpr ⟨le_of_emod_eq hd (heu'.trans hel.symm) (by have := hle hx'; omega), (hue' hx'').ge⟩
      omega

-- The nearest numbers with the residue.
def Interval.aligned (i : Interval) (div res : Int) : Interval :=
  ⟨i.lower + (res - i.lower) % div, i.upper - (i.upper - res) % div⟩

theorem rounded_eq_aligned (h₀ : 0 ≤ res) (h₁ : res < div) (hl : LowerExact i div res)
    (hu : UpperExact i div res) : i.rounded div res = i.aligned div res := by
  have hd := h₀.trans_lt h₁
  have ⟨⟨hel, hle⟩, hlt, _⟩ := lower_round (i := i) h₀ h₁
  have ⟨⟨heu, hge⟩, hgt, _⟩ := upper_round (i := i) h₀ h₁
  have hlt := hlt hl
  have hgt := hgt hu
  have := Int.emod_nonneg (res - i.lower) hd.ne'
  have := Int.emod_lt_of_pos (res - i.lower) hd
  have := Int.emod_nonneg (i.upper - res) hd.ne'
  have := Int.emod_lt_of_pos (i.upper - res) hd
  have hml : (i.lower + (res - i.lower) % div) % div = res := by
    rw [Int.add_emod_emod, add_sub_cancel, Int.emod_eq_of_lt h₀ h₁]
  have hmu : (i.upper - (i.upper - res) % div) % div = res := by
    rw [Int.sub_emod_emod, sub_sub_cancel, Int.emod_eq_of_lt h₀ h₁]
  have hlower : (i.rounded div res).lower = i.lower + (res - i.lower) % div :=
    le_antisymm (le_of_emod_eq hd (hml.trans hel.symm) (by omega))
      (le_of_emod_eq hd (hel.trans hml.symm) (by omega))
  have hupper : (i.rounded div res).upper = i.upper - (i.upper - res) % div :=
    le_antisymm (le_of_emod_eq hd (hmu.trans heu.symm) (by omega))
      (le_of_emod_eq hd (heu.trans hmu.symm) (by omega))
  exact congrArg₂ Interval.mk hlower hupper

def roundAll (gs : List (Int × Int)) (i : Interval) : Interval :=
  gs.foldl (fun i g => i.round g.1 g.2) i

-- Every rounding is exact. All but the last one give the nearest numbers.
def RoundsExact (i : Interval) : List (Int × Int) → Prop
  | []                => True
  | (div, res) :: gs  => RoundFits i div res ∧ RoundExact i div res ∧
    (gs = [] ∨ LowerExact i div res ∧ UpperExact i div res ∧ RoundsExact (i.aligned div res) gs)

theorem RoundsExact.step (h : RoundsExact i (gs ++ (div, res) :: gs'))
    (hv : ∀ g ∈ gs, 0 ≤ g.2 ∧ g.2 < g.1) :
    RoundFits (roundAll gs i) div res ∧ RoundExact (roundAll gs i) div res := by
  induction gs generalizing i
  case nil => exact ⟨h.1, h.2.1⟩
  case cons g gs hi =>
    have hg := hv g List.mem_cons_self
    obtain ⟨hf, _, h⟩ := h
    obtain ⟨hl, hu, h⟩ := h.resolve_left (by simp)
    rw [← rounded_eq_aligned hg.1 hg.2 hl hu, ← hf.round_eq] at h
    exact hi h fun g hg => hv g (.tail _ hg)

end Indexing
