import Mathlib.Logic.Relation
import Mathlib.Tactic

-- A labelled transition system with a set of initial states.
structure Transition (σ : Type u) (α : Type v) where
  init : σ → Prop
  step : σ → α → σ → Prop

namespace Transition

variable {σ : Type u} {α : Type v} {T : Transition σ α}

inductive Reachable (T : Transition σ α) : σ → Prop
  | init : T.init s → Reachable T s
  | step : Reachable T s₁ → T.step s₁ a s₂ → Reachable T s₂

structure Invariant (T : Transition σ α) (P : σ → Prop) : Prop where
  init : T.init s → P s
  step : P s₁ → T.step s₁ a s₂ → P s₂

theorem Reachable.invariant {P : σ → Prop} {s : σ} (h : Reachable T s) (i : Invariant T P) :
    P s := by
  induction h
  case init h       => exact i.init h
  case step h hi => exact i.step hi h

end Transition

-- Properties of the history of a system, as the list of its events. The latest event comes first.
namespace History

variable {α : Type u} {p q : α → Prop} {P : α → List α → Prop} {h new : List α}

-- Some `p` has happened, and no `q` since then.
def Since (p q : α → Prop) : List α → Prop
  | []     => False
  | a :: h => p a ∨ (¬q a ∧ Since p q h)

-- Every event is related to the history before it.
def Always (P : α → List α → Prop) : List α → Prop
  | []     => True
  | a :: h => P a h ∧ Always P h

theorem always_iff : Always P h ↔ ∀ new a old, h = new ++ a :: old → P a old := by
  induction h
  case nil => simp [Always]
  case cons a h hi =>
    rw [Always, hi]
    constructor
    · rintro ⟨ha, hh⟩ new b old he
      cases new
      case nil =>
        obtain ⟨rfl, rfl⟩ := List.cons.inj he
        exact ha
      case cons x new => exact hh new b old (List.cons.inj he).2
    · intro hh
      exact ⟨hh [] a h rfl, fun new b old he => hh (a :: new) b old (he ▸ rfl)⟩

namespace Since

theorem append (hq : ∀ a ∈ new, ¬q a) (hs : Since p q h) : Since p q (new ++ h) := by
  induction new
  case nil           => exact hs
  case cons a new hi => exact .inr ⟨hq a List.mem_cons_self, hi fun b hb => hq b (.tail _ hb)⟩

end Since

end History

-- Loops `while (cond a) a = next a`, whose condition and whose update can fail.
namespace LoopRun

-- The values on which the body of the loop runs, in order.
inductive Runs {α : Type u} (cond : α → Option Bool) (next : α → Option α) : α → List α → Prop
  | done : cond a = some false → Runs cond next a []
  | step : cond a = some true → next a = some b → Runs cond next b as → Runs cond next a (a :: as)

-- The values on which the body of the loop runs, where the loop need not end.
inductive Visits {α : Type u} (cond : α → Option Bool) (next : α → Option α) : α → α → Prop
  | start : cond a = some true → Visits cond next a a
  | step  : cond a = some true → next a = some b → Visits cond next b c → Visits cond next a c

theorem Visits.cond {α : Type u} {cond : α → Option Bool} {next : α → Option α} {a b : α} (h : Visits cond next a b) :
    cond a = some true := by
  cases h
  case start hc    => exact hc
  case step hc _ _ => exact hc

-- A loop that adds `step` to its variable in every iteration while `p` holds.
structure Linear (cond : Int → Option Bool) (next : Int → Option Int) (p : Int → Bool) (step : Int) : Prop where
  cond : ∀ a, cond a = some (p a)
  next : ∀ a b, next a = some b → b = a + step

namespace Linear

variable {cond : Int → Option Bool} {next : Int → Option Int} {p : Int → Bool} {q : Int → Prop}
  {step a c bound : Int} {as : List Int}

-- A loop with an upper bound runs once for every multiple of the step up to the bound.
theorem length_eq (hl : Linear cond next (fun a => a ≤ bound) step) (hs : 0 < step) (h : Runs cond next a as) :
    (as.length : Int) = max 0 ((bound - a) / step + 1) := by
  induction h
  case done a hc =>
    have hlt : bound < a := by simpa [hl.cond] using hc
    have : (bound - a) / step < 0 := Int.ediv_neg_of_neg_of_pos (by omega) hs
    simp only [List.length_nil, Nat.cast_zero]
    omega
  case step a b as hc hn hr hi =>
    obtain rfl := hl.next _ _ hn
    have hle : a ≤ bound := by simpa [hl.cond] using hc
    have hd : (bound - a) / step = (bound - (a + step)) / step + 1 := by
      rw [← Int.add_mul_ediv_right _ _ hs.ne', one_mul, sub_add_eq_sub_sub, sub_add_cancel]
    have : 0 ≤ (bound - a) / step := Int.ediv_nonneg (by omega) hs.le
    rw [List.length_cons, Nat.cast_succ, hi, hd]
    omega

-- The loop counts up to `limit`, where either its condition or its update fails.
theorem visits_iff_le {limit lower : Int} (hl : Linear cond next p step)
    (hn : ∀ a b, next a = some b ↔ b = a + step ∧ q b) (hs : 0 < step)
    (hp : ∀ b, lower ≤ b → (p b ∧ q b ↔ b ≤ limit)) (ha : lower ≤ a) (hq : q a) :
    Visits cond next a c ↔ ∃ n : Nat, c = a + n * step ∧ c ≤ limit := by
  apply Iff.intro
  case mp =>
    intro h
    induction h
    case start a hc =>
      exact ⟨0, by simp, (hp a ha).mp ⟨by simpa [hl.cond] using hc, hq⟩⟩
    case step a b c hc hb _ hi =>
      obtain ⟨rfl, hq'⟩ := (hn a b).mp hb
      obtain ⟨n, rfl, hle⟩ := hi (by omega) hq'
      exact ⟨n + 1, by push_cast; ring, hle⟩
  case mpr =>
    rintro ⟨n, rfl, hle⟩
    induction n generalizing a
    case zero =>
      have := (hp a ha).mpr (by simpa using hle)
      simpa using Visits.start (by simpa [hl.cond] using this.1)
    case succ n hi =>
      have hn₀ : 0 ≤ (n : Int) * step := Int.mul_nonneg (by omega) hs.le
      have hle' : a + step + n * step ≤ limit := by
        push_cast at hle
        linarith
      have hpa := (hp a ha).mpr (by omega)
      have hpb := (hp (a + step) (by omega)).mpr (by omega)
      refine .step (by simpa [hl.cond] using hpa.1) ((hn _ _).mpr ⟨rfl, hpb.2⟩) ?_
      convert hi (by omega) hpb.2 hle' using 1
      push_cast
      ring

end Linear
end LoopRun
