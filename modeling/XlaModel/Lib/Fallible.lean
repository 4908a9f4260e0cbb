import Mathlib.Order.Filter.AtTopBot.Basic
import Mathlib.Tactic

-- Recursive functions that are bounded by fuel. A function terminates if its result does not change
-- from some amount of fuel on.
namespace Fuel

open Filter

variable {f : Nat → Option α} {P Q : α → Prop}

def Returns (f : Nat → Option α) (a : α) : Prop :=
  ∀ᶠ n in atTop, f n = some a

-- The total correctness of `f` with postcondition `P`.
def Computes (f : Nat → Option α) (P : α → Prop) : Prop :=
  ∃ a, Returns f a ∧ P a

theorem Returns.unique (h₁ : Returns f a) (h₂ : Returns f b) : a = b := by
  have ⟨_, h₁, h₂⟩ := (h₁.and h₂).exists
  exact Option.some.inj (h₁ ▸ h₂)

theorem Returns.iff_exists : Returns f a ↔ ∃ N, ∀ n ≥ N, f n = some a :=
  eventually_atTop

theorem Returns.mapM {f : Nat → β → Option α} {g : β → α} {xs : List β} (h : ∀ x ∈ xs, Returns (f · x) (g x)) :
    Returns (fun n => xs.mapM (f n)) (xs.map g) := by
  induction xs
  case nil => exact .of_forall fun _ => rfl
  case cons x xs hi =>
    filter_upwards [h x (.head _), hi fun y hy => h y (.tail _ hy)] with n h₁ h₂
    rw [List.mapM_cons, h₁, h₂]
    rfl

namespace Computes

theorem pure (h : P a) : Computes (fun _ => some a) P :=
  ⟨a, .of_forall fun _ => rfl, h⟩

theorem pure_none {P : α → Prop} : Computes (fun _ => some none) (fun a? => ∀ a, a? = some a → P a) :=
  pure <| by simp

theorem imp (h : Computes f P) (hi : ∀ a, P a → Q a) : Computes f Q :=
  have ⟨a, hr, ha⟩ := h
  ⟨a, hr, hi a ha⟩

theorem bind {g : Nat → α → Option β} {Q : β → Prop} (h : Computes f P)
    (hg : ∀ a, P a → Computes (g · a) Q) : Computes (fun n => f n >>= g n) Q := by
  have ⟨a, hr, ha⟩ := h
  have ⟨b, hr', hb⟩ := hg a ha
  refine ⟨b, ?_, hb⟩
  filter_upwards [hr, hr'] with n h₁ h₂
  simp [h₁, h₂]

theorem map {g : α → β} {Q : β → Prop} (h : Computes f P) (hg : ∀ a, P a → Q (g a)) :
    Computes (fun n => g <$> f n) Q := by
  have ⟨a, hr, ha⟩ := h
  refine ⟨g a, ?_, hg a ha⟩
  filter_upwards [hr] with n h
  simp [h]

theorem ite {g : Nat → Option α} [Decidable c] (h₁ : c → Computes f P) (h₂ : ¬c → Computes g P) :
    Computes (fun n => if c then f n else g n) P := by
  by_cases h : c
  case pos => simpa only [h, if_true] using h₁ h
  case neg => simpa only [h, if_false] using h₂ h

-- The recursive calls are made with less fuel.
theorem of_succ (h : Computes (fun n => f (n + 1)) P) : Computes f P := by
  have ⟨a, hr, ha⟩ := h
  refine ⟨a, ?_, ha⟩
  rw [Returns, ← map_add_atTop_eq_nat 1]
  exact hr

-- The invariant is given for the elements that are left.
theorem foldlM {xs : List β} {s : σ} {step : Nat → σ → β → Option σ} (Inv : List β → σ → Prop) (h : Inv xs s)
    (hs : ∀ x xs s, Inv (x :: xs) s → Computes (step · s x) (Inv xs)) :
    Computes (fun n => xs.foldlM (step n) s) (Inv []) := by
  induction xs generalizing s
  case nil => exact pure h
  case cons x xs hi =>
    simp only [List.foldlM_cons]
    exact (hs x xs s h).bind fun s' h' => hi h'

end Computes
end Fuel

-- Computations that can fail, for example because of a failed check.
namespace Fallible

variable {x x' : Option α} {f f' : α → Option β} {P : α → Prop} {Q : β → Prop}

theorem bind_eq_ok {ε : Type} {x : Except ε α} {f : α → Except ε β} {b : β} :
    x >>= f = .ok b ↔ ∃ a, x = .ok a ∧ f a = .ok b := by
  cases x <;> simp [bind, Except.bind]

theorem mapM_eq_ok {ε : Type} {f : α → Except ε β} {as : List α} {bs : List β} :
    as.mapM f = .ok bs ↔ List.Forall₂ (fun a b => f a = .ok b) as bs := by
  induction as generalizing bs
  case nil => simp [pure, Except.pure, eq_comm]
  case cons a as hi =>
    rw [List.mapM_cons, bind_eq_ok, List.forall₂_cons_left_iff]
    simp only [bind_eq_ok, hi, pure, Except.pure, Except.ok.injEq]
    grind

theorem mapM_eq_some {f : α → Option β} {as : List α} {bs : List β} :
    as.mapM f = some bs ↔ List.Forall₂ (fun a b => f a = some b) as bs := by
  induction as generalizing bs
  case nil => simp [eq_comm]
  case cons a as hi =>
    rw [List.mapM_cons, List.forall₂_cons_left_iff]
    simp only [Option.bind_eq_bind, Option.bind_eq_some_iff, hi, Option.pure_def, Option.some_inj]
    grind

-- Partial correctness: if the computation succeeds, then its result has property `P`.
def Ensures (x : Option α) (P : α → Prop) : Prop :=
  ∀ a, x = some a → P a

namespace Ensures

theorem none : Ensures none P := by
  simp [Ensures]

theorem pure (h : P a) : Ensures (some a) P :=
  fun _ he => Option.some.inj he ▸ h

theorem imp {Q : α → Prop} (h : Ensures x P) (hi : ∀ a, P a → Q a) : Ensures x Q :=
  fun a ha => hi a (h a ha)

theorem bind (h : Ensures x P) (hf : ∀ a, P a → Ensures (f a) Q) : Ensures (x >>= f) Q := by
  intro b hb
  have ⟨a, ha, hb⟩ := Option.bind_eq_some_iff.mp hb
  exact hf a (h a ha) b hb

theorem bind_option {x : Option (Option α)} {f : Option α → Option β} {P : Option α → Prop}
    (h : Ensures x P) (hs : ∀ a, P (some a) → Ensures (f (some a)) Q) (hn : Ensures (f .none) Q) :
    Ensures (x >>= f) Q := by
  refine .bind h fun a? ha => ?_
  cases a?
  case none   => exact hn
  case some a => exact hs a ha

theorem of_eq (x : Option α) : Ensures x (x = some ·) :=
  fun _ h => h

theorem foldlM {step : σ → α → Option σ} {xs : List α} {s : σ} (Inv : σ → Prop) (h : Inv s)
    (hs : ∀ x s, Inv s → Ensures (step s x) Inv) : Ensures (xs.foldlM step s) Inv := by
  induction xs generalizing s
  case nil => exact .pure h
  case cons x xs hi =>
    rw [List.foldlM_cons]
    exact .bind (hs x s h) fun s' h' => hi h'

end Ensures

-- Two computations have the same result, which has property `P` if they succeed.
def Agree (x x' : Option α) (P : α → Prop) : Prop :=
  x = x' ∧ Ensures x P

namespace Agree

theorem eq (h : Agree x x' P) : x = x' :=
  h.1

theorem of_ensures (h : Ensures x P) : Agree x x P :=
  ⟨rfl, h⟩

theorem imp {Q : α → Prop} (h : Agree x x' P) (hi : ∀ a, P a → Q a) : Agree x x' Q :=
  ⟨h.1, h.2.imp hi⟩

theorem bind (h : Agree x x' P) (hf : ∀ a, P a → Agree (f a) (f' a) Q) : Agree (x >>= f) (x' >>= f') Q := by
  obtain ⟨rfl, hx⟩ := h
  cases x
  case none   => exact .of_ensures .none
  case some a => exact hf a (hx a rfl)

theorem foldlM {step step' : σ → α → Option σ} {xs : List α} {s : σ} (Inv : σ → Prop) (h : Inv s)
    (hs : ∀ x s, Inv s → Agree (step s x) (step' s x) Inv) :
    Agree (xs.foldlM step s) (xs.foldlM step' s) Inv := by
  induction xs generalizing s
  case nil => exact .of_ensures (.pure h)
  case cons x xs hi =>
    rw [List.foldlM_cons, List.foldlM_cons]
    exact .bind (hs x s h) fun s' h' => hi h'

end Agree

-- Total correctness: the computation succeeds and its result has property `P`.
def Yields (x : Option α) (P : α → Prop) : Prop :=
  ∃ a, x = some a ∧ P a

namespace Yields

theorem pure (h : P a) : Yields (some a) P :=
  ⟨a, rfl, h⟩

theorem imp {Q : α → Prop} (h : Yields x P) (hi : ∀ a, P a → Q a) : Yields x Q :=
  have ⟨a, hx, ha⟩ := h
  ⟨a, hx, hi a ha⟩

theorem bind (h : Yields x P) (hf : ∀ a, P a → Yields (f a) Q) : Yields (x >>= f) Q := by
  obtain ⟨a, rfl, ha⟩ := h
  exact hf a ha

-- The invariant is given for the elements that are left.
theorem foldlM {step : σ → α → Option σ} (Inv : List α → σ → Prop) (h : Inv xs s)
    (hs : ∀ x xs s, Inv (x :: xs) s → Yields (step s x) (Inv xs)) :
    Yields (xs.foldlM step s) (Inv []) := by
  induction xs generalizing s
  case nil => exact .pure h
  case cons x xs hi =>
    rw [List.foldlM_cons]
    exact .bind (hs x xs s h) fun s' h' => hi h'

end Yields

-- The result of the computation has property `P`, or its error has property `E`.
def Outcome {ε : Type} (E : ε → Prop) (x : Except ε α) (P : α → Prop) : Prop :=
  match x with
  | .ok a    => P a
  | .error e => E e

namespace Outcome

variable {ε : Type} {E E' : ε → Prop} {x : Except ε α}

theorem pure (h : P a) : Outcome E (.ok a) P :=
  h

theorem error {e : ε} (h : E e) : Outcome E (.error e) P :=
  h

theorem imp_error (h : Outcome E x P) (hi : ∀ e, E e → E' e) : Outcome E' x P := by
  cases x
  case ok    => exact h
  case error => exact hi _ h

theorem of_eq (h : ∀ e, x = .error e → E e) : Outcome E x (x = .ok ·) := by
  cases x
  case ok    => exact rfl
  case error => exact h _ rfl

theorem exists_ok (h : Outcome (fun _ => False) x P) : ∃ a, x = .ok a ∧ P a := by
  cases x
  case ok a  => exact ⟨a, rfl, h⟩
  case error => exact h.elim

theorem with_eq (h : Outcome E x P) : Outcome E x (fun a => x = .ok a ∧ P a) := by
  cases x
  case ok    => exact ⟨rfl, h⟩
  case error => exact h

theorem bind {f : α → Except ε β} {Q : β → Prop} (h : Outcome E x P) (hf : ∀ a, P a → Outcome E (f a) Q) :
    Outcome E (x >>= f) Q := by
  cases x
  case ok a  => exact hf a h
  case error => exact h

theorem bind_option {x : Except ε (Option α)} {f : Option α → Except ε β} {P : Option α → Prop} {Q : β → Prop}
    (h : Outcome E x P) (hs : ∀ a, P (some a) → Outcome E (f (some a)) Q) (hn : Outcome E (f .none) Q) :
    Outcome E (x >>= f) Q := by
  refine .bind h fun a? ha => ?_
  cases a?
  case none   => exact hn
  case some a => exact hs a ha

theorem map {g : α → β} {Q : β → Prop} (h : Outcome E x P) (hg : ∀ a, P a → Q (g a)) : Outcome E (g <$> x) Q := by
  cases x
  case ok a  => exact hg a h
  case error => exact h

-- The invariant is given for the elements that have been visited.
theorem foldlM_append {step : σ → β → Except ε σ} {pre xs : List β} {s : σ} (Inv : List β → σ → Prop)
    (h : Inv pre s) (hs : ∀ pre' x post s, pre ++ xs = pre' ++ x :: post → Inv pre' s →
      Outcome E (step s x) (Inv (pre' ++ [x]))) :
    Outcome E (xs.foldlM step s) (Inv (pre ++ xs)) := by
  induction xs generalizing pre s
  case nil => simpa using .pure h
  case cons x xs hi =>
    rw [List.foldlM_cons]
    refine .bind (hs pre x xs s rfl h) fun s' h' => ?_
    have heq : pre ++ x :: xs = pre ++ [x] ++ xs := by simp
    rw [heq] at hs ⊢
    exact hi h' hs

theorem foldlM {step : σ → β → Except ε σ} {xs : List β} {s : σ} (Inv : List β → σ → Prop) (h : Inv [] s)
    (hs : ∀ pre x post s, xs = pre ++ x :: post → Inv pre s → Outcome E (step s x) (Inv (pre ++ [x]))) :
    Outcome E (xs.foldlM step s) (Inv xs) :=
  foldlM_append Inv h hs

end Outcome

-- A computation refines another one if it fails more often.
def Refines (x x' : Option α) : Prop :=
  ∀ a, x = some a → x' = some a

namespace Refines

theorem refl : Refines x x :=
  fun _ h => h

theorem none : Refines none x := by
  simp [Refines]

theorem bind (h : Refines x x') (hf : ∀ a, Refines (f a) (f' a)) :
    Refines (x >>= f) (x' >>= f') := by
  intro b hb
  have ⟨a, ha, hb⟩ := Option.bind_eq_some_iff.mp hb
  exact Option.bind_eq_some_iff.mpr ⟨a, h a ha, hf a b hb⟩

theorem bind_option {x x' : Option (Option α)} {f f' : Option α → Option β} (h : Refines x x')
    (hs : ∀ a, Refines (f (some a)) (f' (some a))) (hn : Refines (f .none) (f' .none)) :
    Refines (x >>= f) (x' >>= f') := by
  refine .bind h fun a? => ?_
  cases a?
  case none   => exact hn
  case some a => exact hs a

theorem map {g : α → β} (h : Refines x x') : Refines (g <$> x) (g <$> x') := by
  intro b hb
  have ⟨a, ha, hb⟩ := Option.map_eq_some_iff.mp hb
  exact Option.map_eq_some_iff.mpr ⟨a, h a ha, hb⟩

theorem eq (h : Refines x x') (hx : x ≠ .none) : x' = x := by
  have ⟨a, ha⟩ := Option.ne_none_iff_exists'.mp hx
  rw [ha, h a ha]

end Refines
end Fallible
