import Mathlib.Data.Finset.Card
import Mathlib.Data.List.Chain
import Mathlib.Data.Set.Card
import Mathlib.Logic.Relation
import Mathlib.Order.Nat
import Mathlib.Tactic

-- Paths in graphs that are given by their edge relation.
namespace Relation

variable {α : Type u} {E E' : α → α → Prop}

theorem ReflTransGen.imp {a b : α} (h : ReflTransGen E a b) (hE : ∀ a b, E a b → E' a b) :
    ReflTransGen E' a b :=
  h.lift id hE

theorem TransGen.imp {a b : α} (h : TransGen E a b) (hE : ∀ a b, E a b → E' a b) :
    TransGen E' a b :=
  h.lift id hE

-- A path that starts at the target of a new edge does not need that edge.
theorem ReflTransGen.of_insert_source {x y b : α} (h : ReflTransGen E' y b)
    (hE : ∀ a b, E' a b → E a b ∨ (a = x ∧ b = y)) : ReflTransGen E y b := by
  induction h
  case refl => rfl
  case tail b c _ h hi =>
    rcases hE b c h with h | ⟨rfl, rfl⟩
    · exact hi.tail h
    · rfl

theorem ReflTransGen.of_insert_target {x y a : α} (h : ReflTransGen E' a x)
    (hE : ∀ a b, E' a b → E a b ∨ (a = x ∧ b = y)) : ReflTransGen E a x := by
  induction h using ReflTransGen.head_induction_on
  case refl => rfl
  case head a c h _ hi =>
    rcases hE a c h with h | ⟨rfl, rfl⟩
    · exact hi.head h
    · rfl

section Rank

variable {β : Type v} [Preorder β] {rank : α → β} {a b : α}

theorem TransGen.rank_lt (h : TransGen E a b) (hr : ∀ a b, E a b → rank a < rank b) :
    rank a < rank b := by
  induction h
  case single h     => exact hr _ _ h
  case tail _ h hi => exact hi.trans (hr _ _ h)

theorem ReflTransGen.rank_le (h : ReflTransGen E a b) (hr : ∀ a b, E a b → rank a < rank b) :
    rank a ≤ rank b := by
  induction h
  case refl         => rfl
  case tail _ h hi => exact hi.trans (hr _ _ h).le

end Rank

section Thinned

variable {F : α → α → Prop} {rank : α → Nat} {a b : α}

theorem TransGen.of_between (h : TransGen E a b) (hr : ∀ a b, E a b → rank a < rank b)
    (hF : ∀ x y, rank a ≤ rank x → rank y ≤ rank b → E x y → TransGen F x y) : TransGen F a b := by
  induction h
  case single h => exact hF _ _ le_rfl le_rfl h
  case tail m b hp he hi =>
    have ham := (hp.rank_lt hr).le
    have hmb := (hr _ _ he).le
    have hp' := hi fun x y hx hy => hF x y hx (hy.trans hmb)
    exact hp'.trans <| hF _ _ ham le_rfl he

-- A subgraph of an acyclic graph keeps the paths iff each missing edge was not the only path.
theorem TransGen.thinned_iff (hr : ∀ a b, E a b → rank a < rank b) (hs : ∀ a b, F a b → E a b) :
    (∀ a b, E a b → ¬F a b → TransGen F a b) ↔
    ∀ a b, E a b → ¬F a b → ∃ m, E a m ∧ TransGen E m b := by
  constructor
  case mp =>
    intro h a b he hn
    have ⟨m, hm, hp⟩ := TransGen.head'_iff.mp (h a b he hn)
    cases hp.cases_head
    case inl hb => exact absurd (hb ▸ hm) hn
    case inr hp =>
      have ⟨c, hc, hp⟩ := hp
      exact ⟨m, hs _ _ hm, (TransGen.head' hc hp).imp hs⟩
  case mpr =>
    intro h a b he hn
    -- The edges of the other path span fewer nodes than the missing edge.
    have hall (n : Nat) : ∀ a b, E a b → rank b - rank a ≤ n → TransGen F a b := by
      induction n
      case zero =>
        intro a b he hn
        have := hr a b he
        omega
      case succ n hi =>
        intro a b he hn
        by_cases hF : F a b
        case pos => exact .single hF
        case neg =>
          have ⟨m, hm, hp⟩ := h a b he hF
          have ham := hr _ _ hm
          have hmb := hp.rank_lt hr
          refine .trans (hi a m hm (by omega)) (hp.of_between hr fun x y hx hy he => ?_)
          exact hi x y he (by omega)
    exact hall _ a b he le_rfl

end Thinned

section Identify

variable [DecidableEq α]

def identify (s g : α) (n : α) : α :=
  if n = g then s else n

-- The graph in which the node `g` is identified with the node `s`.
def Identified (E : α → α → Prop) (s g : α) (x y : α) : Prop :=
  ∃ x' y', E x' y' ∧ identify s g x' = x ∧ identify s g y' = y

theorem identify_eq_iff {s g n m : α} : identify s g n = m ↔ (n = g ∧ m = s) ∨ (n ≠ g ∧ m = n) := by
  unfold identify
  split <;> simp_all [eq_comm]

-- A node that is reachable from `s` in the identified graph is reachable from one of `s` and `g`.
theorem TransGen.of_identified {s g y : α} (h : TransGen (Identified E s g) s y)
    (hn : ∀ u v, (u = s ∨ u = g) → (v = s ∨ v = g) → ¬TransGen E u v) :
    ∃ y', identify s g y' = y ∧ (TransGen E s y' ∨ TransGen E g y') := by
  induction h
  case single y h =>
    have ⟨x', y', he, hx, hy⟩ := h
    refine ⟨y', hy, ?_⟩
    rcases identify_eq_iff.mp hx with ⟨rfl, -⟩ | ⟨-, rfl⟩
    · exact .inr <| .single he
    · exact .inl <| .single he
  case tail y z _ h hi =>
    have ⟨m, hm, hp⟩ := hi
    have ⟨x', y', he, hx, hy⟩ := h
    have hm' : m ≠ s ∧ m ≠ g := by
      constructor <;> rintro rfl <;> rcases hp with hp | hp <;>
        exact hn _ _ (by simp) (by simp) hp
    have hx : x' = m := by
      rcases identify_eq_iff.mp hm with ⟨rfl, -⟩ | ⟨-, rfl⟩
      · exact absurd rfl hm'.2
      · rcases identify_eq_iff.mp hx with ⟨-, h⟩ | ⟨-, h⟩
        · exact absurd h hm'.1
        · exact h.symm
    subst hx
    exact ⟨y', hy, hp.imp (·.tail he) (·.tail he)⟩

-- A path in the identified graph visits the identified node or it is a path in the original graph.
theorem reflTransGen_identified_iff {s g a b : α} :
    ReflTransGen (Identified E s g) (identify s g a) (identify s g b) ↔
      ReflTransGen E a b ∨
        ((ReflTransGen E a s ∨ ReflTransGen E a g) ∧ (ReflTransGen E s b ∨ ReflTransGen E g b)) := by
  have hsame {a b : α} (h : identify s g a = identify s g b) : a = b ∨ ((a = s ∨ a = g) ∧ (b = s ∨ b = g)) := by
    unfold identify at h
    split at h <;> split at h <;> simp_all
  have hlift {a b : α} (h : ReflTransGen E a b) :
      ReflTransGen (Identified E s g) (identify s g a) (identify s g b) :=
    h.lift (identify s g) fun a b he => ⟨a, b, he, rfl, rfl⟩
  have hs : identify s g s = s := by unfold identify; split <;> simp_all
  have hg : identify s g g = s := by simp [identify]
  have hto {x y : α} (h : x = s ∨ x = g) (hr : ReflTransGen E y x) : ReflTransGen E y s ∨ ReflTransGen E y g := by
    obtain rfl | rfl := h
    case inl => exact .inl hr
    case inr => exact .inr hr
  have hfrom {x : α} (h : x = s ∨ x = g) : ReflTransGen E s x ∨ ReflTransGen E g x := by
    obtain rfl | rfl := h
    case inl => exact .inl .refl
    case inr => exact .inr .refl
  constructor
  · intro h
    generalize hy : identify s g b = y at h
    induction h generalizing b
    case refl =>
      obtain rfl | ⟨ha, hb⟩ := hsame hy.symm
      case inl => exact .inl .refl
      case inr => exact .inr ⟨hto ha .refl, hfrom hb⟩
    case tail y z _ he hi =>
      obtain ⟨x', y', he, hx', hy'⟩ := he
      have hp := (hi hx').imp (·.tail he) fun h => h.imp_right fun h => h.imp (·.tail he) (·.tail he)
      obtain rfl | ⟨hm, hb⟩ := hsame (hy.trans hy'.symm)
      case inl => exact hp
      case inr =>
        obtain hp | hp := hp
        case inl => exact .inr ⟨hto hb hp, hfrom hm⟩
        case inr => exact .inr ⟨hp.1, hfrom hm⟩
  · rintro (h | ⟨ha, hb⟩)
    case inl => exact hlift h
    case inr =>
      have ha : ReflTransGen (Identified E s g) (identify s g a) s := by
        obtain ha | ha := ha
        case inl => simpa only [hs] using hlift ha
        case inr => simpa only [hg] using hlift ha
      have hb : ReflTransGen (Identified E s g) s (identify s g b) := by
        obtain hb | hb := hb
        case inl => simpa only [hs] using hlift hb
        case inr => simpa only [hg] using hlift hb
      exact ha.trans hb

theorem not_transGen_identified {s g : α}
    (hn : ∀ u v, (u = s ∨ u = g) → (v = s ∨ v = g) → ¬TransGen E u v) :
    ¬TransGen (Identified E s g) s s := by
  intro h
  have ⟨y, hy, hp⟩ := h.of_identified hn
  have hy : y = s ∨ y = g := by
    rcases identify_eq_iff.mp hy with ⟨h, -⟩ | ⟨-, h⟩
    · exact .inr h
    · exact .inl h.symm
  rcases hp with hp | hp
  · exact hn _ _ (.inl rfl) hy hp
  · exact hn _ _ (.inr rfl) hy hp

end Identify

end Relation

-- Acyclic graphs with finitely many nodes.
namespace Relation

variable {α : Type u} {E : α → α → Prop} {nodes : List α}

theorem wellFounded_of_acyclic (hn : ∀ a b, E a b → a ∈ nodes) (ha : ∀ a, ¬TransGen E a a) : WellFounded E := by
  have hfin (x : α) : {a | TransGen E a x}.Finite := by
    refine nodes.finite_toSet.subset fun a h => ?_
    obtain ⟨b, hb, _⟩ := TransGen.head'_iff.mp h
    exact hn a b hb
  refine Subrelation.wf (fun {x y} h => ?_) (InvImage.wf (fun x => {a | TransGen E a x}.ncard) Nat.lt_wfRel.wf)
  refine Set.ncard_lt_ncard ⟨fun a h' => h'.tail h, fun hs => ?_⟩ (hfin y)
  exact ha x (hs (.single h))

-- The equations for the ancestors of a node have only one solution.
theorem reflTransGen_iff_of_equation (wf : WellFounded E) {R : α → α → Prop}
    (h : ∀ x a, R x a ↔ a = x ∨ ∃ p, E p x ∧ R p a) {x a : α} : R x a ↔ ReflTransGen E a x := by
  induction x using wf.induction generalizing a
  case h x hi =>
    rw [h, ReflTransGen.cases_tail_iff]
    constructor
    · rintro (rfl | ⟨p, he, hr⟩)
      case inl => exact .inl rfl
      case inr => exact .inr ⟨p, (hi p he).mp hr, he⟩
    · rintro (rfl | ⟨p, hr, he⟩)
      case inl => exact .inl rfl
      case inr => exact .inr ⟨p, he, (hi p he).mpr hr⟩

-- The number of paths that start at a node.
theorem exists_weight (wf : WellFounded (fun s x => E x s)) {successors : α → List α}
    (h : ∀ x, ∀ s ∈ successors x, E x s) : ∃ w : α → Nat, ∀ x, w x = 1 + ((successors x).map w).sum := by
  let w : α → Nat := wf.fix fun x w => 1 + ((successors x).attach.map fun s => w s.1 (h x s.1 s.2)).sum
  refine ⟨w, fun x => ?_⟩
  have hw : w x = 1 + ((successors x).attach.map fun s => w s.1).sum := wf.fix_eq _ x
  rw [hw, List.attach_map_val]

end Relation

-- Graphs whose edges are labelled with the strength of an ordering guarantee. The guarantee that is
-- given by a path is the one of its first edge: if the first node has to complete before the second
-- node starts, then it completes before all nodes that start later.
namespace Precedence

open Relation

variable {α : Type u} {κ : Type v} [Preorder κ] {E E' : κ → α → α → Prop} {k k₀ : κ} {a b c : α}

def Step (E : κ → α → α → Prop) (a b : α) : Prop :=
  ∃ k, E k a b

def Before (E : κ → α → α → Prop) (k : κ) (a b : α) : Prop :=
  ∃ k' m, k ≤ k' ∧ E k' a m ∧ ReflTransGen (Step E) m b

theorem Before.of_edge (h : E k a b) : Before E k a b :=
  ⟨k, b, le_rfl, h, .refl⟩

theorem Before.trans_path (h₁ : Before E k a b) (h₂ : ReflTransGen (Step E) b c) :
    Before E k a c :=
  have ⟨k', m, hk, he, hp⟩ := h₁
  ⟨k', m, hk, he, hp.trans h₂⟩

theorem Before.weaken (h : Before E k a b) (hk : k₀ ≤ k) : Before E k₀ a b :=
  have ⟨k', m, hk', he, hp⟩ := h
  ⟨k', m, hk.trans hk', he, hp⟩

theorem Before.path (h : Before E k a b) : ReflTransGen (Step E) a b :=
  have ⟨k', _, _, he, hp⟩ := h
  hp.head ⟨k', he⟩

-- Erasing an edge keeps all guarantees, if the remaining graph gives the guarantee of the edge.
theorem Before.erase {x y : α} (h : Before E k a b) (h₀ : Before E' k₀ x y)
    (hE : ∀ k a b, E k a b → E' k a b ∨ (k ≤ k₀ ∧ a = x ∧ b = y)) : Before E' k a b := by
  have hp {a b : α} (h : ReflTransGen (Step E) a b) : ReflTransGen (Step E') a b := by
    induction h
    case refl => rfl
    case tail hi =>
      obtain ⟨k, h⟩ := ‹Step E _ _›
      cases hE k _ _ h
      case inl h => exact hi.tail ⟨k, h⟩
      case inr h => exact hi.trans <| h.2.1 ▸ h.2.2 ▸ h₀.path
  obtain ⟨k', m, hk, he, h⟩ := h
  cases hE k' a m he
  case inl he => exact ⟨k', m, hk, he, hp h⟩
  case inr he =>
    obtain ⟨hk', rfl, rfl⟩ := he
    exact h₀.trans_path (hp h) |>.weaken (hk.trans hk')

end Precedence

-- Depth first search for a path. All unseen successors of a node are pushed at once. Below them the stack holds a
-- marker, at which the search leaves the node. The path lists the nodes that have not been left, from the last one to
-- the first one.
namespace PathSearch

variable {α : Type u}

structure State (α : Type u) where
  stack : List (Option α)
  seen  : α → Bool
  path  : List α

section

variable [DecidableEq α]

def push : List α → (α → Bool) × List (Option α) → (α → Bool) × List (Option α)
  | [],      s             => s
  | w :: ws, (seen, stack) =>
    if seen w then push ws (seen, stack)
    else push ws (Function.update seen w true, some w :: stack)

def loop (succ : α → List α) (target : α) : (fuel : Nat) → State α → Option (List α)
  | 0,        _                               => none
  | _,        ⟨[], _, _⟩                      => none
  | fuel + 1, ⟨none :: stack, seen, path⟩     => loop succ target fuel ⟨stack, seen, path.tail⟩
  | fuel + 1, ⟨some n :: stack, seen, path⟩   =>
    if n = target then some (n :: path)
    else
      let s := push (succ n) (seen, none :: stack)
      loop succ target fuel ⟨s.2, s.1, n :: path⟩

end

-- A node that continues a path from the root.
def Continues (succ : α → List α) (root : α) : List α → α → Prop
  | [],     n => n = root
  | p :: _, n => n ∈ succ p

-- The nodes between two markers continue the path to the node of the lower marker.
inductive Frames (succ : α → List α) (root : α) : List (Option α) → List α → Prop
  | nil    : Frames succ root [] []
  | node   : Continues succ root path n → Frames succ root stack path → Frames succ root (some n :: stack) path
  | marker : Continues succ root path n → Frames succ root stack path → Frames succ root (none :: stack) (n :: path)

-- The path of a search from its last node to its first one.
inductive IsPath (succ : α → List α) (root : α) : List α → Prop
  | root : IsPath succ root [root]
  | cons : n ∈ succ m → IsPath succ root (m :: path) → IsPath succ root (n :: m :: path)

variable {succ : α → List α} {root target n m : α} {stack : List (Option α)} {path ws : List α} {seen : α → Bool}

section Push

variable [DecidableEq α]

theorem push_seen : (push ws (seen, stack)).1 m = true ↔ seen m = true ∨ m ∈ ws := by
  induction ws generalizing seen stack
  case nil => simp [push]
  case cons w ws hi =>
    rw [push]
    split_ifs with hw
    case pos =>
      rw [hi, List.mem_cons]
      constructor
      · rintro (h | h)
        · exact .inl h
        · exact .inr (.inr h)
      · rintro (h | rfl | h)
        · exact .inl h
        · exact .inl hw
        · exact .inr h
    case neg =>
      rw [hi, List.mem_cons, Function.update_apply]
      split_ifs with hm
      case pos => simp [hm]
      case neg => simp [hm]

theorem mem_push : some m ∈ (push ws (seen, stack)).2 ↔ some m ∈ stack ∨ (m ∈ ws ∧ seen m = false) := by
  induction ws generalizing seen stack
  case nil => simp [push]
  case cons w ws hi =>
    rw [push]
    split_ifs with hw
    case pos =>
      rw [hi, List.mem_cons]
      refine or_congr_right ⟨fun h => ⟨.inr h.1, h.2⟩, ?_⟩
      rintro ⟨rfl | h, hs⟩
      · simp [hw] at hs
      · exact ⟨h, hs⟩
    case neg =>
      rw [hi, List.mem_cons, List.mem_cons, Function.update_apply]
      by_cases hm : m = w
      case pos => simp [hm, hw]
      case neg => simp [hm]

theorem Frames.push (h : Frames succ root stack path) (hw : ∀ w ∈ ws, Continues succ root path w) :
    Frames succ root (push ws (seen, stack)).2 path := by
  induction ws generalizing seen stack
  case nil => exact h
  case cons w ws hi =>
    rw [PathSearch.push]
    split_ifs
    case pos => exact hi h fun v hv => hw v (.tail _ hv)
    case neg => exact hi (.node (hw w (.head _)) h) fun v hv => hw v (.tail _ hv)

end Push

section Work

variable [DecidableEq α]

-- The iterations that are left. A node on the stack is popped together with its marker.
def weight : List (Option α) → Nat
  | []              => 0
  | none :: stack   => weight stack + 1
  | some _ :: stack => weight stack + 2

def work (U : Finset α) (stack : List (Option α)) (seen : α → Bool) : Nat :=
  2 * (U.filter (seen · = false)).card + weight stack

theorem work_push {U : Finset α} (hU : ∀ w ∈ ws, w ∈ U) :
    work U (push ws (seen, stack)).2 (push ws (seen, stack)).1 = work U stack seen := by
  induction ws generalizing seen stack
  case nil => rfl
  case cons w ws hi =>
    have hU' := fun v hv => hU v (.tail _ hv)
    rw [push]
    split_ifs with hw
    case pos => exact hi hU'
    case neg =>
      have hf : U.filter (seen · = false) = insert w (U.filter (Function.update seen w true · = false)) := by
        ext v
        by_cases hv : v = w
        case pos => simp [hv, hU w (.head _), hw]
        case neg => simp [hv]
      rw [hi hU', work, work, hf, Finset.card_insert_of_notMem (by simp), weight]
      ring

end Work

-- The successors of every seen node that is not on the stack are seen.
structure Inv (succ : α → List α) (root target : α) (s : State α) : Prop where
  frames : Frames succ root s.stack s.path
  closed : ∀ m, m = root ∨ s.seen m = true → some m ∈ s.stack ∨ (m ≠ target ∧ ∀ w ∈ succ m, s.seen w = true)

theorem Inv.init : Inv succ root target ⟨[some root], fun _ => false, []⟩ where
  frames := .node rfl .nil
  closed := by simp

theorem Inv.leave (h : Inv succ root target ⟨none :: stack, seen, path⟩) : Inv succ root target ⟨stack, seen, path.tail⟩ where
  frames     := by
    cases h.frames
    case marker hf => exact hf
  closed m hm := by simpa using h.closed m hm

theorem IsPath.of_frames (h : Frames succ root stack path) (hc : Continues succ root path n) :
    IsPath succ root (n :: path) := by
  induction h generalizing n
  case nil =>
    obtain rfl : n = root := hc
    exact .root
  case node hi          => exact hi hc
  case marker hc' _ hi  => exact .cons hc (hi hc')

open Relation

theorem IsPath.reach (h : IsPath succ root path) : ∀ n ∈ path, ReflTransGen (fun a b => b ∈ succ a) root n := by
  induction h
  case root =>
    intro n hn
    obtain rfl := List.mem_singleton.mp hn
    exact .refl
  case cons hs _ hi =>
    intro v hv
    cases hv
    case head    => exact (hi _ (.head _)).tail hs
    case tail hv => exact hi v hv

-- The search finds a path unless there is none.
structure Result (succ : α → List α) (root target : α) (path? : Option (List α)) : Prop where
  found    : ∀ path, path? = some path → IsPath succ root path ∧ path.head? = some target
  notFound : path? = none → ¬ReflTransGen (fun a b => b ∈ succ a) root target

theorem Inv.not_reach (h : Inv succ root target ⟨[], seen, path⟩) : ¬ReflTransGen (fun a b => b ∈ succ a) root target := by
  have hseen {m : α} (hr : ReflTransGen (fun a b => b ∈ succ a) root m) : m = root ∨ seen m = true := by
    induction hr
    case refl          => exact .inl rfl
    case tail _ hs hi  =>
      obtain hm | ⟨-, hw⟩ := h.closed _ hi
      case inl => cases hm
      case inr => exact .inr (hw _ hs)
  intro hr
  obtain hm | ⟨ht, -⟩ := h.closed _ (hseen hr)
  case inl => cases hm
  case inr => exact ht rfl

variable [DecidableEq α]

theorem Inv.enter (h : Inv succ root target ⟨some n :: stack, seen, path⟩) (hn : n ≠ target) :
    Inv succ root target
      ⟨(push (succ n) (seen, none :: stack)).2, (push (succ n) (seen, none :: stack)).1, n :: path⟩ where
  frames := by
    cases h.frames
    case node hc hf => exact (Frames.marker hc hf).push fun _ hw => hw
  closed m hm := by
    by_cases hmn : m = n
    case pos =>
      subst hmn
      exact .inr ⟨hn, fun w hw => push_seen.mpr (.inr hw)⟩
    case neg =>
      have hold (hm : m = root ∨ seen m = true) :
          some m ∈ (push (succ n) (seen, none :: stack)).2 ∨
            (m ≠ target ∧ ∀ w ∈ succ m, (push (succ n) (seen, none :: stack)).1 w = true) := by
        obtain hs | ⟨ht, hw⟩ := h.closed m hm
        case inl => exact .inl (mem_push.mpr (.inl (by simpa [hmn] using hs)))
        case inr => exact .inr ⟨ht, fun w hw' => push_seen.mpr (.inl (hw w hw'))⟩
      obtain hm | hm := hm
      case inl => exact hold (.inl hm)
      case inr =>
        by_cases hs : seen m = true
        case pos => exact hold (.inr hs)
        case neg =>
          have hm := (push_seen.mp hm).resolve_left hs
          exact .inl (mem_push.mpr (.inr ⟨hm, by simpa using hs⟩))

theorem Inv.loop {U : Finset α} {fuel : Nat} {s : State α} (hU : ∀ n, ∀ w ∈ succ n, w ∈ U) (h : Inv succ root target s)
    (hf : work U s.stack s.seen ≤ fuel) : Result succ root target (loop succ target fuel s) := by
  have hempty {seen : α → Bool} {path : List α} (h : Inv succ root target ⟨[], seen, path⟩) :
      Result succ root target none :=
    ⟨by simp, fun _ => h.not_reach⟩
  obtain ⟨stack, seen, path⟩ := s
  induction fuel generalizing stack seen path
  case zero =>
    cases stack
    case nil => exact hempty h
    case cons n stack => cases n <;> simp [work, weight] at hf
  case succ fuel hi =>
    cases stack
    case nil => exact hempty h
    case cons n stack =>
      cases n
      case none =>
        refine hi _ _ _ h.leave ?_
        simp only [work, weight] at hf ⊢
        omega
      case some n =>
        rw [PathSearch.loop]
        split_ifs with hn
        case pos =>
          refine ⟨fun path hp => ?_, by simp⟩
          obtain rfl := Option.some.inj hp
          cases h.frames
          case node hc hf => exact ⟨.of_frames hf hc, congrArg some hn⟩
        case neg =>
          refine hi _ _ _ (h.enter hn) ?_
          rw [work_push (hU n)]
          simp only [work, weight] at hf ⊢
          omega

end PathSearch
