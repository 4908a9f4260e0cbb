import Mathlib.Algebra.BigOperators.Group.List.Basic
import Mathlib.Tactic

-- Odometers whose wheels are entries of a list. The wheel `d` has `radix d` positions, and its `q`-th position shows the
-- value `value d q`.
namespace Odometer

variable {α : Type} {radix : Nat → Nat} {value : Nat → Nat → α} {ds : List Nat} {xs : List α} {d e k k' : Nat}

-- The position of a wheel after `k` steps, where the first wheel moves in every step.
def wheel (radix : Nat → Nat) : List Nat → Nat → Nat → Nat
  | [],      _, _ => 0
  | d :: ds, k, e => if e = d then k % radix d else wheel radix ds (k / radix d) e

-- The list after `k` steps.
def reading (radix : Nat → Nat) (value : Nat → Nat → α) : List Nat → List α → Nat → List α
  | [],      xs, _ => xs
  | d :: ds, xs, k => (reading radix value ds xs (k / radix d)).set d (value d (k % radix d))

@[simp]
theorem length_reading : (reading radix value ds xs k).length = xs.length := by
  induction ds generalizing k
  case nil          => rfl
  case cons d ds hi => rw [reading, List.length_set, hi]

theorem getElem?_reading (h : e < xs.length) :
    (reading radix value ds xs k)[e]? = if e ∈ ds then some (value e (wheel radix ds k e)) else xs[e]? := by
  induction ds generalizing k
  case nil => simp [reading]
  case cons d ds hi =>
    rw [reading, List.getElem?_set, length_reading, hi, wheel]
    by_cases hd : d = e
    case pos => subst hd; simp [h]
    case neg => simp [hd, Ne.symm hd]

-- The entries of other wheels are not changed.
theorem reading_set {x : α} (h : d ∉ ds) : reading radix value ds (xs.set d x) k = (reading radix value ds xs k).set d x := by
  induction ds generalizing k
  case nil => rfl
  case cons e ds hi =>
    have hne : d ≠ e := fun he => h (he ▸ .head _)
    rw [reading, reading, hi fun hd => h (.tail _ hd), List.set_comm _ _ hne]

theorem reading_zero (h : ∀ d ∈ ds, xs[d]? = some (value d 0)) : reading radix value ds xs 0 = xs := by
  induction ds
  case nil => rfl
  case cons d ds hi =>
    obtain ⟨hd, he⟩ := List.getElem?_eq_some_iff.mp (h d (.head _))
    rw [reading, Nat.zero_div, Nat.zero_mod, hi fun e he => h e (.tail _ he), ← he, List.set_getElem_self]

section Wheels

variable (hp : k < (ds.map radix).prod)
include hp

theorem wheel_lt (he : e ∈ ds) : wheel radix ds k e < radix e := by
  induction ds generalizing k
  case nil => simp at he
  case cons d ds hi =>
    rw [List.map_cons, List.prod_cons] at hp
    rw [wheel]
    split_ifs with hd
    case pos =>
      subst hd
      exact Nat.mod_lt _ (Nat.pos_of_mul_pos_right (Nat.zero_lt_of_lt hp))
    case neg =>
      exact hi (Nat.div_lt_of_lt_mul hp) ((List.mem_cons.mp he).resolve_left hd)

theorem wheel_inj (hn : ds.Nodup) (hp' : k' < (ds.map radix).prod)
    (h : ∀ e ∈ ds, wheel radix ds k e = wheel radix ds k' e) : k = k' := by
  induction ds generalizing k k'
  case nil => simp at hp hp'; omega
  case cons d ds hi =>
    obtain ⟨hd, hn⟩ := List.nodup_cons.mp hn
    rw [List.map_cons, List.prod_cons] at hp hp'
    have hm : k % radix d = k' % radix d := by simpa [wheel] using h d (.head _)
    have hq : k / radix d = k' / radix d := by
      refine hi (Nat.div_lt_of_lt_mul hp) hn (Nat.div_lt_of_lt_mul hp') fun e he => ?_
      have hne : e ≠ d := fun hed => hd (hed ▸ he)
      simpa [wheel, hne] using h e (.tail _ he)
    rw [← Nat.div_add_mod k (radix d), hm, hq, Nat.div_add_mod]

end Wheels

theorem exists_wheel (hn : ds.Nodup) {q : Nat → Nat} (hq : ∀ d ∈ ds, q d < radix d) :
    ∃ k < (ds.map radix).prod, ∀ d ∈ ds, wheel radix ds k d = q d := by
  induction ds
  case nil => exact ⟨0, by simp, by simp⟩
  case cons d ds hi =>
    obtain ⟨hd, hn⟩ := List.nodup_cons.mp hn
    obtain ⟨k, hk, hw⟩ := hi hn fun e he => hq e (.tail _ he)
    have hlt := hq d (.head _)
    have hm : (radix d * k + q d) % radix d = q d := by rw [Nat.mul_add_mod, Nat.mod_eq_of_lt hlt]
    have hv : (radix d * k + q d) / radix d = k := by
      rw [Nat.mul_add_div (Nat.zero_lt_of_lt hlt), Nat.div_eq_of_lt hlt, Nat.add_zero]
    refine ⟨radix d * k + q d, ?value, fun e he => ?other⟩
    case value =>
      rw [List.map_cons, List.prod_cons]
      calc radix d * k + q d
        _ < radix d * k + radix d           := Nat.add_lt_add_left hlt _
        _ = radix d * (k + 1)               := by ring
        _ ≤ radix d * (ds.map radix).prod := Nat.mul_le_mul_left _ hk
    case other =>
      rw [wheel, hm, hv]
      split_ifs with hed
      case pos => rw [hed]
      case neg => exact hw e ((List.mem_cons.mp he).resolve_left hed)

-- All readings of an odometer, from its start on.
def readings (radix : Nat → Nat) (value : Nat → Nat → α) (ds : List Nat) (xs : List α) : List (List α) :=
  (List.range (ds.map radix).prod).map (reading radix value ds xs)

section Readings

variable (hn : ds.Nodup) (hl : ∀ d ∈ ds, d < xs.length)
include hn hl

theorem readings_nodup (hv : ∀ d ∈ ds, Function.Injective (value d)) : (readings radix value ds xs).Nodup := by
  refine List.Nodup.map_on (fun k hk k' hk' he => ?_) List.nodup_range
  refine wheel_inj (List.mem_range.mp hk) hn (List.mem_range.mp hk') fun d hd => hv d hd ?_
  have := congrArg (·[d]?) he
  simpa [getElem?_reading (hl d hd), hd] using this

theorem mem_readings {ys : List α} : ys ∈ readings radix value ds xs ↔ ys.length = xs.length ∧
    ∀ d < xs.length, if d ∈ ds then ∃ q < radix d, ys[d]? = some (value d q) else ys[d]? = xs[d]? := by
  rw [readings, List.mem_map]
  constructor
  case mp =>
    rintro ⟨k, hk, rfl⟩
    refine ⟨length_reading, fun d hd => ?_⟩
    rw [getElem?_reading hd]
    split_ifs with hm
    case pos => exact ⟨_, wheel_lt (List.mem_range.mp hk) hm, rfl⟩
    case neg => rfl
  case mpr =>
    rintro ⟨hy, h⟩
    have hq (d) (hd : d ∈ ds) : ∃ q < radix d, ys[d]? = some (value d q) := by simpa [hd] using h d (hl d hd)
    choose! q hq hv using hq
    obtain ⟨k, hk, hw⟩ := exists_wheel hn hq
    refine ⟨k, List.mem_range.mpr hk, List.ext_getElem? fun d => ?_⟩
    by_cases hd : d < xs.length
    case pos =>
      rw [getElem?_reading hd]
      split_ifs with hm
      case pos => rw [hv d hm, hw d hm]
      case neg => simpa [hm, eq_comm] using h d hd
    case neg =>
      rw [List.getElem?_eq_none (by simpa using hd), List.getElem?_eq_none (by omega)]

end Readings

end Odometer
