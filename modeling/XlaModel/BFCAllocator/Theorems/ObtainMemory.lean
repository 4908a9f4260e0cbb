import XlaModel.BFCAllocator.Basic
import XlaModel.Lib.Fallible

namespace BFCAllocator

open Fuel

section Backpedal

variable {b k n : Nat}

theorem roundedBytes_eq (h : b + 255 < 18446744073709551616) : roundedBytes b = 256 * ((b + 255) / 256) := by
  rw [roundedBytes, wrap, kMinAllocationSize, Nat.mod_eq_of_lt (by omega), Nat.add_sub_assoc (by omega)]

-- The rounding errors of the conversion and of the product are at most 2^-24.
theorem product_bounds :
    let product := BinaryRounding.round 24 (BinaryRounding.round 24 b * 15099494) / 16777216
    10000000 * product ≤ 9000001 * b ∧ 8999997 * b ≤ 10000000 * product + 10000000 := by
  have h₁ := @BinaryRounding.round_le 24 b
  have h₂ := @BinaryRounding.le_round 24 b
  have h₃ := @BinaryRounding.round_le 24 (BinaryRounding.round 24 b * 15099494)
  have h₄ := @BinaryRounding.le_round 24 (BinaryRounding.round 24 b * 15099494)
  norm_num only at h₁ h₂ h₃ h₄
  dsimp only
  omega

theorem backpedal_multiple (hk : 256 * k < 18446744073709551616) :
    ∃ l, backpedal (256 * k) = 256 * l ∧ (k ≤ 9 → l = k) ∧ (9 < k → 9 ≤ l ∧ l < k) := by
  obtain ⟨hu, hl⟩ := @product_bounds (256 * k)
  rw [backpedal]
  generalize BinaryRounding.round 24 (BinaryRounding.round 24 (256 * k) * 15099494) / 16777216 = product at *
  refine ⟨(product + 255) / 256, roundedBytes_eq (by omega), ?_, ?_⟩
  · omega
  · omega

theorem backpedal_eq_multiple (hb : b < 18446744073709551616) :
    ∃ k, backpedal b = 256 * k ∧ 256 * k < 18446744073709551616 := by
  obtain ⟨hu, -⟩ := @product_bounds b
  rw [backpedal]
  generalize BinaryRounding.round 24 (BinaryRounding.round 24 b * 15099494) / 16777216 = product at *
  refine ⟨(product + 255) / 256, roundedBytes_eq (by omega), by omega⟩

-- The sizes decrease to 9 * 256 bytes, smaller ones do not change.
theorem le_iterate_backpedal (hk : 256 * k < 18446744073709551616) :
    256 * min 9 k ≤ backpedal^[n] (256 * k) := by
  induction n generalizing k
  case zero => exact Nat.mul_le_mul_left 256 (min_le_right 9 k)
  case succ n hi =>
    obtain ⟨l, he, hs, hl⟩ := backpedal_multiple hk
    rw [Function.iterate_succ_apply, he]
    have hmin : min 9 k = min 9 l := by omega
    exact hmin ▸ hi (by omega)

theorem exists_iterate_backpedal (hk : 256 * k < 18446744073709551616) :
    ∃ n, backpedal^[n] (256 * k) = 256 * min 9 k := by
  induction k using Nat.strong_induction_on
  case h k hi =>
    by_cases hle : k ≤ 9
    case pos => exact ⟨0, by rw [Function.iterate_zero_apply, min_eq_right hle]⟩
    case neg =>
      obtain ⟨l, he, -, hl⟩ := backpedal_multiple hk
      obtain ⟨n, hn⟩ := hi l (by omega) (by omega)
      refine ⟨n + 1, ?_⟩
      rw [Function.iterate_succ_apply, he, hn]
      omega

theorem exists_backpedal_lt_iff {roundedBytes : Nat} (hb : b < 18446744073709551616) :
    (∃ n, backpedal^[n + 1] b < roundedBytes) ↔ min 2304 (backpedal b) < roundedBytes := by
  obtain ⟨k, he, hk⟩ := backpedal_eq_multiple hb
  have hmin : min 2304 (256 * k) = 256 * min 9 k := by omega
  rw [he, hmin]
  constructor
  case mp =>
    intro ⟨n, hn⟩
    rw [Function.iterate_succ_apply, he] at hn
    exact (le_iterate_backpedal hk).trans_lt hn
  case mpr =>
    intro h
    obtain ⟨n, hn⟩ := exists_iterate_backpedal hk
    refine ⟨n, ?_⟩
    rw [Function.iterate_succ_apply, he, hn]
    exact h

end Backpedal

section Grow

variable {roundedBytes bytes j : Nat}

theorem wrap_lt {n : Nat} : wrap n < 18446744073709551616 :=
  Nat.mod_lt _ (by decide)

theorem wrap_of_lt {n : Nat} (h : n < 18446744073709551616) : wrap n = n :=
  Nat.mod_eq_of_lt h

theorem wrap_double : wrap (wrap bytes * 2 ^ j) = wrap (bytes * 2 ^ j) := by
  rw [wrap, wrap, wrap, Nat.mod_mul_mod]

-- The number of doublings after which the size of a region suffices.
def Doublings (roundedBytes bytes j : Nat) : Prop :=
  roundedBytes ≤ wrap (bytes * 2 ^ j) ∧ ∀ i < j, wrap (bytes * 2 ^ i) < roundedBytes

theorem doublings_succ (h : Doublings roundedBytes bytes (j + 1)) : Doublings roundedBytes (wrap (bytes * 2)) j := by
  have hshift : ∀ i, wrap (wrap (bytes * 2) * 2 ^ i) = wrap (bytes * 2 ^ (i + 1)) := by
    intro i
    rw [wrap_double, pow_succ', mul_assoc]
  exact ⟨(hshift j).symm ▸ h.1, fun i hi => (hshift i).symm ▸ h.2 (i + 1) (by omega)⟩

theorem doublings_zero_of_le (h : roundedBytes ≤ wrap bytes) : Doublings roundedBytes bytes 0 :=
  ⟨by simpa using h, fun _ hi => absurd hi (Nat.not_lt_zero _)⟩

theorem grow_computes (hb : bytes < 18446744073709551616) (h : Doublings roundedBytes bytes j) :
    Computes (grow roundedBytes · bytes) (· = wrap (bytes * 2 ^ j)) := by
  induction j generalizing bytes
  case zero =>
    have hle := h.1
    rw [pow_zero, mul_one, wrap_of_lt hb] at hle ⊢
    apply Computes.of_succ
    simp only [grow, if_neg (Nat.not_lt.mpr hle)]
    exact .pure rfl
  case succ j hi =>
    have hlt := h.2 0 (by omega)
    rw [pow_zero, mul_one, wrap_of_lt hb] at hlt
    apply Computes.of_succ
    simp only [grow, if_pos hlt]
    apply (hi wrap_lt (doublings_succ h)).imp
    intro a ha
    rw [ha, wrap_double, pow_succ', mul_assoc]

theorem grow_some {fuel a : Nat} (hb : bytes < 18446744073709551616) (h : grow roundedBytes fuel bytes = some a) :
    ∃ j, Doublings roundedBytes bytes j ∧ a = wrap (bytes * 2 ^ j) := by
  induction fuel generalizing bytes
  case zero => simp [grow] at h
  case succ fuel hi =>
    rw [grow] at h
    split_ifs at h with hlt
    case pos =>
      obtain ⟨j, ⟨hle, hall⟩, ha⟩ := hi wrap_lt h
      have hshift : ∀ i, wrap (wrap (bytes * 2) * 2 ^ i) = wrap (bytes * 2 ^ (i + 1)) := by
        intro i
        rw [wrap_double, pow_succ', mul_assoc]
      refine ⟨j + 1, ⟨hshift j ▸ hle, fun i hij => ?_⟩, ha.trans (hshift j)⟩
      cases i
      case zero   => simpa [wrap_of_lt hb] using hlt
      case succ i => exact hshift i ▸ hall i (by omega)
    case neg =>
      obtain rfl := Option.some.inj h
      exact ⟨0, doublings_zero_of_le (by rw [wrap_of_lt hb]; omega), by simp [wrap_of_lt hb]⟩

end Grow

end BFCAllocator

namespace BFCAllocator

open Fuel

variable {subAllocator : SubAllocator} {s : BFCAllocator} {alignment roundedBytes bytes j n : Nat}

-- The response to the `n`th attempt, if all attempts before fail.
def response (subAllocator : SubAllocator) (s : BFCAllocator) (alignment bytes n : Nat) : Option (Nat × Nat) :=
  subAllocator.alloc (s.subAllocatorCalls + n) s.held alignment (backpedal^[n] bytes)

-- The `n`th attempt is the last one.
def Ends (subAllocator : SubAllocator) (s : BFCAllocator) (alignment roundedBytes bytes n : Nat) : Prop :=
  backpedal^[n] bytes < roundedBytes ∨ (response subAllocator s alignment bytes n).isSome

section TryLess

theorem response_zero :
    (s.subAllocate subAllocator alignment bytes).1 = response subAllocator s alignment bytes 0 :=
  rfl

theorem response_succ :
    response subAllocator (s.subAllocate subAllocator alignment bytes).2 alignment (backpedal bytes) n =
      response subAllocator s alignment bytes (n + 1) := by
  rw [response, response, Function.iterate_succ_apply, Nat.add_comm n 1, ←Nat.add_assoc]
  rfl

theorem tryLess_succ {fuel : Nat} : tryLess subAllocator alignment roundedBytes (fuel + 1) bytes s =
    if backpedal bytes < roundedBytes then
      some (none, s)
    else if (s.subAllocate subAllocator alignment (backpedal bytes)).1.isSome then
      some (s.subAllocate subAllocator alignment (backpedal bytes))
    else
      tryLess subAllocator alignment roundedBytes fuel (backpedal bytes)
        (s.subAllocate subAllocator alignment (backpedal bytes)).2 := by
  rw [tryLess]
  generalize s.subAllocate subAllocator alignment (backpedal bytes) = r
  obtain ⟨memory, s⟩ := r
  cases memory <;> simp

theorem ends_zero : Ends subAllocator s alignment roundedBytes bytes 0 ↔
    bytes < roundedBytes ∨ (s.subAllocate subAllocator alignment bytes).1.isSome :=
  .rfl

theorem ends_succ : Ends subAllocator (s.subAllocate subAllocator alignment bytes).2 alignment roundedBytes
    (backpedal bytes) n ↔ Ends subAllocator s alignment roundedBytes bytes (n + 1) := by
  rw [Ends, Ends, response_succ, Function.iterate_succ_apply]

theorem tryLess_returns (h : Ends subAllocator s alignment roundedBytes (backpedal bytes) n) :
    ∃ r, Returns (tryLess subAllocator alignment roundedBytes · bytes s) r := by
  suffices Computes (tryLess subAllocator alignment roundedBytes · bytes s) fun _ => True from
    have ⟨r, hr, _⟩ := this
    ⟨r, hr⟩
  induction n generalizing bytes s
  all_goals
    apply Computes.of_succ
    simp only [tryLess_succ]
    refine .ite (fun _ => .pure trivial) fun hlt => ?_
    refine .ite (fun _ => .pure trivial) fun hn => ?_
  case zero      => exact absurd (ends_zero.mp h) <| not_or.mpr ⟨hlt, hn⟩
  case succ n hi => exact hi <| ends_succ.mpr h

theorem tryLess_some {fuel : Nat} {r : Option (Nat × Nat) × BFCAllocator}
    (h : tryLess subAllocator alignment roundedBytes fuel bytes s = some r) :
    ∃ n, Ends subAllocator s alignment roundedBytes (backpedal bytes) n := by
  induction fuel generalizing bytes s
  case zero => exact absurd h <| by simp [tryLess]
  case succ fuel hi =>
    rw [tryLess_succ] at h
    split_ifs at h with hlt hs
    case pos => exact ⟨0, ends_zero.mpr (.inl hlt)⟩
    case pos => exact ⟨0, ends_zero.mpr (.inr hs)⟩
    case neg =>
      obtain ⟨n, hn⟩ := hi h
      exact ⟨n + 1, ends_succ.mp hn⟩

end TryLess

section ObtainMemory

-- The attempts with a region of the given size.
def attempt (subAllocator : SubAllocator) (alignment roundedBytes bytes : Nat) (s : BFCAllocator) (fuel : Nat) :
    Option (Option (Nat × Nat) × BFCAllocator) :=
  let r := s.subAllocate subAllocator alignment bytes
  if r.1.isSome then some r else tryLess subAllocator alignment roundedBytes fuel bytes r.2

theorem attempt_of_isSome {fuel : Nat} (h : (response subAllocator s alignment bytes 0).isSome) :
    attempt subAllocator alignment roundedBytes bytes s fuel = some (s.subAllocate subAllocator alignment bytes) := by
  rw [attempt, response_zero, if_pos h]

theorem attempt_of_not_isSome {fuel : Nat} (h : ¬(response subAllocator s alignment bytes 0).isSome) :
    attempt subAllocator alignment roundedBytes bytes s fuel = tryLess subAllocator alignment roundedBytes fuel bytes
      (s.subAllocate subAllocator alignment bytes).2 := by
  rw [attempt, response_zero, if_neg h]

theorem attempt_some {fuel : Nat} {r : Option (Nat × Nat) × BFCAllocator}
    (h : attempt subAllocator alignment roundedBytes bytes s fuel = some r) :
    (∃ n, (response subAllocator s alignment bytes n).isSome) ∨ ∃ n, backpedal^[n + 1] bytes < roundedBytes := by
  by_cases hz : (response subAllocator s alignment bytes 0).isSome
  case pos => exact .inl ⟨0, hz⟩
  case neg =>
    rw [attempt_of_not_isSome hz] at h
    obtain ⟨n, hn⟩ := tryLess_some h
    exact (ends_succ.mp hn).symm.imp (⟨n + 1, ·⟩) (⟨n, ·⟩)

theorem attempt_returns
    (h : (∃ n, (response subAllocator s alignment bytes n).isSome) ∨ ∃ n, backpedal^[n + 1] bytes < roundedBytes) :
    ∃ r, Returns (attempt subAllocator alignment roundedBytes bytes s) r := by
  by_cases hz : (response subAllocator s alignment bytes 0).isSome
  case pos => exact ⟨_, .of_forall fun _ => attempt_of_isSome hz⟩
  case neg =>
    have he := fun fuel => @attempt_of_not_isSome subAllocator s alignment roundedBytes bytes fuel hz
    obtain ⟨n, hn⟩ | ⟨n, hn⟩ := h
    case inl =>
      cases n
      case zero   => exact absurd hn hz
      case succ n => exact (funext he).symm ▸ tryLess_returns (ends_succ.mpr (.inr hn))
    case inr => exact (funext he).symm ▸ tryLess_returns (ends_succ.mpr (.inl hn))

-- The update of the size of the next region.
def finish (increasedAllocation : Prop) [Decidable increasedAllocation] (r : Option (Nat × Nat) × BFCAllocator) :
    Option (Nat × Nat) × BFCAllocator :=
  if r.1.isSome ∧ ¬increasedAllocation then
    (r.1, { r.2 with currRegionAllocationBytes := wrap (r.2.currRegionAllocationBytes * 2) })
  else
    r

theorem obtainMemory_eq {fuel : Nat} (ha : roundedBytes ≤ s.availableBytes) :
    s.obtainMemory subAllocator fuel alignment roundedBytes =
      (grow roundedBytes fuel s.currRegionAllocationBytes).bind fun curr =>
        (attempt subAllocator alignment roundedBytes (min curr s.availableBytes)
          { s with currRegionAllocationBytes := curr } fuel).map
            (finish (roundedBytes > s.currRegionAllocationBytes)) := by
  rw [obtainMemory, if_neg (Nat.not_lt.mpr ha)]
  simp only [Option.bind_eq_bind]
  congr 1
  funext curr
  rw [attempt]
  generalize subAllocate _ subAllocator alignment (min curr s.availableBytes) = r
  obtain ⟨memory, t⟩ := r
  have hfinish : ∀ r : Option (Nat × Nat) × BFCAllocator,
      (if r.1.isSome ∧ ¬roundedBytes > s.currRegionAllocationBytes then
        some (r.1, { r.2 with currRegionAllocationBytes := wrap (r.2.currRegionAllocationBytes * 2) })
      else
        some (r.1, r.2)) = some (finish (roundedBytes > s.currRegionAllocationBytes) r) := by
    intro r
    rw [finish]
    split_ifs <;> rfl
  cases memory
  case some memory => exact hfinish (some memory, t)
  case none =>
    simp only [Option.isSome_none, Bool.false_eq_true, if_false]
    cases tryLess subAllocator alignment roundedBytes fuel (min curr s.availableBytes) t
    case none   => rfl
    case some r => exact hfinish r

-- The loops of `Extend` end.
def Terminates (subAllocator : SubAllocator) (s : BFCAllocator) (alignment roundedBytes : Nat) : Prop :=
  ∃ r, Returns (s.obtainMemory subAllocator · alignment roundedBytes) r

theorem extend_terminates_iff (hc : s.currRegionAllocationBytes < 18446744073709551616) :
    Terminates subAllocator s alignment roundedBytes ↔ s.availableBytes < roundedBytes ∨
      ∃ j, Doublings roundedBytes s.currRegionAllocationBytes j ∧
        ((∃ n, (response subAllocator s alignment
            (min (wrap (s.currRegionAllocationBytes * 2 ^ j)) s.availableBytes) n).isSome) ∨
          min 2304 (backpedal (min (wrap (s.currRegionAllocationBytes * 2 ^ j)) s.availableBytes)) <
            roundedBytes) := by
  have hbytes : ∀ {j}, min (wrap (s.currRegionAllocationBytes * 2 ^ j)) s.availableBytes < 18446744073709551616 :=
    (min_le_left _ _).trans_lt wrap_lt
  by_cases ha : s.availableBytes < roundedBytes
  case pos =>
    refine iff_of_true ⟨(none, s), .of_forall fun fuel => ?_⟩ (.inl ha)
    dsimp only
    rw [obtainMemory, if_pos ha]
  case neg =>
    rw [Terminates]
    simp only [obtainMemory_eq (Nat.not_lt.mp ha), ha, false_or, ←exists_backpedal_lt_iff hbytes]
    constructor
    case mp =>
      intro ⟨r, hr⟩
      obtain ⟨fuel, hr⟩ := hr.exists
      obtain ⟨curr, hcurr, hr⟩ := Option.bind_eq_some_iff.mp hr
      obtain ⟨r, hr, -⟩ := Option.map_eq_some_iff.mp hr
      obtain ⟨j, hj, rfl⟩ := grow_some hc hcurr
      have hn := attempt_some hr
      exact ⟨j, hj, hn⟩
    case mpr =>
      intro ⟨j, hj, h⟩
      let t := { s with currRegionAllocationBytes := wrap (s.currRegionAllocationBytes * 2 ^ j) }
      obtain ⟨r, hr⟩ := @attempt_returns _ t _ _ _ h
      obtain ⟨curr, hcurr, rfl⟩ := grow_computes hc hj
      refine ⟨finish (roundedBytes > s.currRegionAllocationBytes) r, ?_⟩
      filter_upwards [hcurr, hr] with fuel hcurr hr
      rw [hcurr, Option.bind_some]
      exact Option.map_eq_some_iff.mpr ⟨r, hr, rfl⟩

end ObtainMemory

section Example

def noMemory : SubAllocator :=
  ⟨fun _ _ _ _ => none⟩

theorem backpedal_fixed : backpedal 2304 = 2304 := by
  decide +kernel

theorem available : (new 2304 {}).availableBytes = 2304 := by
  decide +kernel

theorem not_extend_terminates : ¬Terminates noMemory (.new 2304 {}) 256 256 := by
  intro ⟨r, hr⟩
  obtain ⟨fuel, hr⟩ := hr.exists
  replace hr := (obtainMemory_eq (by rw [available]; decide)).symm.trans hr
  obtain ⟨curr, hcurr, hr⟩ := Option.bind_eq_some_iff.mp hr
  obtain ⟨r, hr, -⟩ := Option.map_eq_some_iff.mp hr
  have hcurr : curr = 2304 := by
    cases fuel
    case zero      => simp [grow] at hcurr
    case succ fuel => simpa [grow, new, roundedBytes, wrap, kMinAllocationSize] using hcurr.symm
  subst hcurr
  obtain ⟨n, hn⟩ | ⟨n, hn⟩ := attempt_some hr
  case inl => exact Bool.false_ne_true hn
  case inr =>
    rw [available, min_self, Function.iterate_fixed backpedal_fixed] at hn
    exact absurd hn (by decide)

theorem extend_terminates_iff_noMemory : Terminates noMemory (.new 4096 {}) 256 4096 ↔
    (new 4096 {}).availableBytes < 4096 ∨ ∃ j, Doublings 4096 4096 j ∧
      ((∃ n, (response noMemory (.new 4096 {}) 256
          (min (wrap (4096 * 2 ^ j)) (new 4096 {}).availableBytes) n).isSome) ∨
        min 2304 (backpedal (min (wrap (4096 * 2 ^ j)) (new 4096 {}).availableBytes)) < 4096) :=
  extend_terminates_iff (by decide)

end Example
end BFCAllocator
