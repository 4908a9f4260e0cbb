import Mathlib.Data.Finset.Card
import Mathlib.Data.Finset.Dedup
import Mathlib.Logic.Relation
import XlaModel.Lib.Fallible

-- The nodes that are reachable from an item, collected with a worklist. A node is marked when its item is pushed.
namespace Worklist

open Fuel Relation

variable {α ι : Type} (next : ι → List α) (item : α → Option ι)

def push [DecidableEq α] (worklist : List ι) (result : List α) : List α → Option (List ι × List α)
  | []      => some (worklist, result)
  | a :: as =>
    if a ∈ result then
      push worklist result as
    else do
      let i ← item a
      push (i :: worklist) (result ++ [a]) as

-- The result is `none` if the item of a node is missing.
def loop [DecidableEq α] : Nat → List ι → List α → Option (List α)
  | 0,        _,             _      => none
  | _,        [],            result => some result
  | fuel + 1, i :: worklist, result => do
    let (worklist, result) ← push item worklist result (next i)
    loop fuel worklist result

def Edge (a b : α) : Prop :=
  ∃ i, item a = some i ∧ b ∈ next i

def Reach (i : ι) (b : α) : Prop :=
  ∃ a ∈ next i, ReflTransGen (Edge next item) a b

variable {next item} {worklist : List ι} {result as : List α} {i₀ : ι} {U : Finset α}

-- The first item is that of the node that is expanded, whose remaining successors are `as`.
structure Inv (next : ι → List α) (item : α → Option ι) (U : Finset α) (i₀ : ι) (worklist : List ι) (as result : List α) :
    Prop where
  nodup  : result.Nodup
  subset : ∀ a ∈ result, a ∈ U
  reach  : ∀ a ∈ result, Reach next item i₀ a
  items  : ∀ i ∈ worklist, i = i₀ ∨ ∃ a ∈ result, item a = some i
  todo   : ∀ a ∈ as, a ∈ U ∧ Reach next item i₀ a
  start  : i₀ ∈ worklist ∨ ∀ b ∈ next i₀, b ∈ result ∨ b ∈ as
  closed : ∀ a ∈ result, ∀ i, item a = some i → i ∈ worklist ∨ ∀ b ∈ next i, b ∈ result ∨ b ∈ as

theorem Inv.skip (h : Inv next item U i₀ worklist (a :: as) result) (ha : a ∈ result) :
    Inv next item U i₀ worklist as result := by
  have hb {b : α} (hb : b ∈ result ∨ b ∈ a :: as) : b ∈ result ∨ b ∈ as := by
    rw [List.mem_cons, ←or_assoc] at hb
    exact hb.imp_left (Or.rec id fun he => he ▸ ha)
  refine { h with todo := fun b hb => h.todo b (.tail _ hb), start := ?start, closed := ?closed }
  case start => exact h.start.imp_right fun hs b hbn => hb (hs b hbn)
  case closed => exact fun c hc i hi => (h.closed c hc i hi).imp_right fun hs b hbn => hb (hs b hbn)

theorem Inv.mark {i : ι} (h : Inv next item U i₀ worklist (a :: as) result) (ha : a ∉ result)
    (hi : item a = some i) : Inv next item U i₀ (i :: worklist) as (result ++ [a]) := by
  have hmem {b : α} : b ∈ result ++ [a] ↔ b ∈ result ∨ b = a := by simp
  have hb {b : α} (hb : b ∈ result ∨ b ∈ a :: as) : b ∈ result ++ [a] ∨ b ∈ as := by
    rw [hmem, or_assoc]
    exact hb.imp_right List.mem_cons.mp
  have ht := h.todo a (.head _)
  constructor
  case nodup =>
    rw [List.nodup_append]
    refine ⟨h.nodup, List.nodup_singleton a, fun b hb c hc => ?_⟩
    exact List.mem_singleton.mp hc ▸ ne_of_mem_of_not_mem hb ha
  case subset => exact fun b hb => (hmem.mp hb).elim (h.subset b) (· ▸ ht.1)
  case reach  => exact fun b hb => (hmem.mp hb).elim (h.reach b) (· ▸ ht.2)
  case items =>
    intro j hj
    obtain rfl | hj := List.mem_cons.mp hj
    case inl => exact .inr ⟨a, hmem.mpr (.inr rfl), hi⟩
    case inr => exact (h.items j hj).imp_right fun ⟨c, hc, hci⟩ => ⟨c, hmem.mpr (.inl hc), hci⟩
  case todo  => exact fun b hb => h.todo b (.tail _ hb)
  case start => exact h.start.imp (List.mem_cons_of_mem i) fun hs b hbn => hb (hs b hbn)
  case closed =>
    intro c hc j hj
    obtain hc | rfl := hmem.mp hc
    case inl => exact (h.closed c hc j hj).imp (List.mem_cons_of_mem i) fun hs b hbn => hb (hs b hbn)
    case inr =>
      rw [hi] at hj
      exact .inl <| Option.some.inj hj ▸ List.mem_cons_self

-- The successors of an item that is popped are the nodes that are left to mark.
theorem Inv.pop {i : ι} (hU : ∀ a ∈ U, ∀ i, item a = some i → ∀ b ∈ next i, b ∈ U) (h₀ : ∀ b ∈ next i₀, b ∈ U)
    (h : Inv next item U i₀ (i :: worklist) [] result) : Inv next item U i₀ worklist (next i) result := by
  refine { h with items := fun j hj => h.items j (.tail _ hj), todo := ?todo, start := ?start, closed := ?closed }
  case todo =>
    intro b hb
    obtain rfl | ⟨a, ha, hi⟩ := h.items i (.head _)
    case inl => exact ⟨h₀ b hb, b, hb, .refl⟩
    case inr =>
      obtain ⟨c, hc, hr⟩ := h.reach a ha
      exact ⟨hU a (h.subset a ha) i hi b hb, c, hc, hr.tail ⟨i, hi, hb⟩⟩
  case start =>
    obtain hs | hs := h.start
    case inl =>
      obtain rfl | hs := List.mem_cons.mp hs
      case inl => exact .inr fun b hb => .inr hb
      case inr => exact .inl hs
    case inr => exact .inr fun b hb => .inl ((hs b hb).resolve_right List.not_mem_nil)
  case closed =>
    intro a ha j hj
    obtain hs | hs := h.closed a ha j hj
    case inl =>
      obtain rfl | hs := List.mem_cons.mp hs
      case inl => exact .inr fun b hb => .inr hb
      case inr => exact .inl hs
    case inr => exact .inr fun b hb => .inl ((hs b hb).resolve_right List.not_mem_nil)

theorem Inv.mem_iff (h : Inv next item U i₀ [] [] result) : a ∈ result ↔ Reach next item i₀ a := by
  constructor
  case mp  => exact h.reach a
  case mpr =>
    rintro ⟨c, hc, hr⟩
    induction hr
    case refl => simpa using (h.start.resolve_left List.not_mem_nil) c hc
    case tail b d hcb he hb =>
      obtain ⟨i, hi, hd⟩ := he
      simpa using (h.closed b hb i hi).resolve_left List.not_mem_nil d hd

variable [DecidableEq α]

theorem Inv.length_le (h : Inv next item U i₀ worklist as result) : result.length ≤ U.card := by
  rw [←List.toFinset_card_of_nodup h.nodup]
  exact Finset.card_le_card fun a ha => h.subset a (List.mem_toFinset.mp ha)

theorem Inv.push (hU : ∀ a ∈ U, ∃ i, item a = some i) (h : Inv next item U i₀ worklist as result) :
    ∃ worklist' result', push item worklist result as = some (worklist', result') ∧
      Inv next item U i₀ worklist' [] result' ∧
      worklist'.length + (U.card - result'.length) ≤ worklist.length + (U.card - result.length) := by
  induction as generalizing worklist result
  case nil => exact ⟨worklist, result, rfl, h, le_rfl⟩
  case cons a as hi =>
    rw [Worklist.push]
    split_ifs with ha
    case pos => exact hi (h.skip ha)
    case neg =>
      obtain ⟨i, hia⟩ := hU a (h.todo a (.head _)).1
      have hm := h.mark ha hia
      obtain ⟨worklist', result', hp, hinv, hle⟩ := hi hm
      have hlen := hm.length_le
      refine ⟨worklist', result', by simpa [hia] using hp, hinv, ?_⟩
      simp only [List.length_append, List.length_cons, List.length_nil] at hle hlen
      omega

theorem Inv.loop (hU : ∀ a ∈ U, ∃ i, item a = some i ∧ ∀ b ∈ next i, b ∈ U) (h₀ : ∀ b ∈ next i₀, b ∈ U)
    (h : Inv next item U i₀ worklist [] result) :
    Computes (loop next item · worklist result) (Inv next item U i₀ [] []) := by
  generalize hn : worklist.length + (U.card - result.length) = n
  induction n using Nat.strong_induction_on generalizing worklist result
  case h n hi =>
    cases worklist
    case nil => exact .of_succ (.pure h)
    case cons i worklist =>
      have hpop := h.pop (fun a ha j hj => by
        obtain ⟨k, hk, hn⟩ := hU a ha
        exact Option.some.inj (hk.symm.trans hj) ▸ hn) h₀
      obtain ⟨worklist', result', hp, hinv, hle⟩ := hpop.push fun a ha => (hU a ha).imp fun _ => And.left
      have hc := hi _ (by rw [←hn, List.length_cons]; omega) hinv rfl
      exact .of_succ (by simpa [Worklist.loop, hp] using hc)

theorem loop_spec (hU : ∀ a ∈ U, ∃ i, item a = some i ∧ ∀ b ∈ next i, b ∈ U) (h₀ : ∀ b ∈ next i₀, b ∈ U) :
    Computes (loop next item · [i₀] []) fun result =>
      result.Nodup ∧ (∀ a ∈ result, a ∈ U) ∧ ∀ a, a ∈ result ↔ Reach next item i₀ a := by
  have hinv : Inv next item U i₀ [i₀] [] [] := by constructor <;> simp
  exact (hinv.loop hU h₀).imp fun result h => ⟨h.nodup, h.subset, fun a => h.mem_iff⟩

end Worklist
