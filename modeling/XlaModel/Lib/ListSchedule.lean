import Mathlib.Logic.Relation
import Mathlib.Tactic

-- Sequences of the nodes of a graph that are built by replaying some of the nodes in a given order, while every other
-- node is placed as soon as all of its predecessors have been placed.
namespace ListSchedule

open Relation

variable {α : Type u} {E : α → α → Prop} {kept placed s wl added l₁ l₂ : List α} {a b v x : α}

theorem eq_or_of_concat_eq (h : s ++ [x] = l₁ ++ v :: l₂) : (v = x ∧ l₁ = s) ∨ ∃ l, s = l₁ ++ v :: l := by
  obtain rfl | ⟨l, y, rfl⟩ := List.eq_nil_or_concat' l₂
  case inl =>
    have hi := List.append_inj' h rfl
    exact .inl ⟨(List.singleton_inj.mp hi.2).symm, hi.1.symm⟩
  case inr =>
    rw [← List.cons_append, ← List.append_assoc] at h
    exact .inr ⟨l, (List.append_inj' h rfl).1⟩

section Order

variable [BEq α] [LawfulBEq α] {xs ys : List α}

theorem mem_left_iff (hn : (l₁ ++ x :: l₂).Nodup) :
    a ∈ l₁ ↔ a ∈ l₁ ++ x :: l₂ ∧ (l₁ ++ x :: l₂).idxOf a < (l₁ ++ x :: l₂).idxOf x := by
  have hx : x ∉ l₁ := fun hx => (List.nodup_append.mp hn).2.2 x hx x (.head _) rfl
  rw [List.idxOf_append_of_notMem hx, List.idxOf_cons_self, Nat.add_zero]
  constructor
  case mp  => exact fun ha => ⟨List.mem_append_left _ ha, List.idxOf_append_of_mem ha ▸ List.idxOf_lt_length_of_mem ha⟩
  case mpr =>
    rintro ⟨-, hlt⟩
    by_contra ha
    rw [List.idxOf_append_of_notMem ha] at hlt
    omega

theorem idxOf_lt_iff_of_sublist (h : xs.Sublist ys) (hn : ys.Nodup) (ha : a ∈ xs) (hb : b ∈ xs) :
    ys.idxOf a < ys.idxOf b ↔ xs.idxOf a < xs.idxOf b := by
  induction h
  case slnil => cases ha
  case cons xs ys y hs hi =>
    obtain ⟨hy, hn⟩ := List.nodup_cons.mp hn
    have hya : y ≠ a := fun he => hy (he ▸ hs.subset ha)
    have hyb : y ≠ b := fun he => hy (he ▸ hs.subset hb)
    rw [List.idxOf_cons_ne _ hya, List.idxOf_cons_ne _ hyb, Nat.succ_lt_succ_iff, hi hn ha hb]
  case cons_cons xs ys y hs hi =>
    obtain ⟨hy, hn⟩ := List.nodup_cons.mp hn
    by_cases hya : y = a
    case pos =>
      subst hya
      by_cases hyb : y = b
      case pos => simp [hyb]
      case neg => simp [List.idxOf_cons_ne _ hyb]
    case neg =>
      by_cases hyb : y = b
      case pos => simp [hyb]
      case neg =>
        have ha : a ∈ xs := by simpa [Ne.symm hya] using ha
        have hb : b ∈ xs := by simpa [Ne.symm hyb] using hb
        rw [List.idxOf_cons_ne _ hya, List.idxOf_cons_ne _ hyb, List.idxOf_cons_ne _ hya, List.idxOf_cons_ne _ hyb,
          Nat.succ_lt_succ_iff, Nat.succ_lt_succ_iff, hi hn ha hb]

end Order

-- The nodes of the worklist are the ones that are ready. The replayed nodes need not be.
structure Progress (E : α → α → Prop) (kept placed s wl : List α) : Prop where
  nodup    : (s ++ wl).Nodup
  mem      : ∀ v ∈ s, v ∈ kept ∨ v ∈ placed
  sublist  : kept.Sublist s
  worklist : ∀ v ∈ wl, v ∈ placed
  mem_iff  : ∀ v ∈ placed, v ∈ s ++ wl ↔ ∀ p, E p v → p ∈ s
  ready    : ∀ {l₁ v l₂}, s = l₁ ++ v :: l₂ → v ∈ placed → ∀ p, E p v → p ∈ l₁
  early    : ∀ {l₁ k l₂}, s = l₁ ++ k :: l₂ → k ∈ kept → ∀ v ∈ placed, (∀ p, E p v → p ∈ l₁) → v ∈ l₁

-- The nodes that become ready with a node.
structure Adds (E : α → α → Prop) (placed s : List α) (x : α) (added : List α) : Prop where
  nodup   : added.Nodup
  mem_iff : ∀ v, v ∈ added ↔ v ∈ placed ∧ E x v ∧ ∀ p, E p v → p ∈ s ++ [x]

namespace Progress

theorem init (hn : wl.Nodup) (hm : ∀ v, v ∈ wl ↔ v ∈ placed ∧ ∀ p, ¬E p v) : Progress E [] placed [] wl where
  nodup      := hn
  mem        := by simp
  sublist    := .slnil
  worklist v := fun hv => ((hm v).mp hv).1
  mem_iff v  := fun hv => by simp [hm, hv]
  ready      := by simp
  early      := by simp

-- A node that becomes ready has not been placed yet.
theorem notMem_of_adds (h : Progress E kept placed s wl) (ha : Adds E placed s x added) (hx : x ∉ s)
    (hv : v ∈ added) : v ∉ s ++ wl := by
  obtain ⟨hp, he, _⟩ := (ha.mem_iff v).mp hv
  exact fun hs => hx ((h.mem_iff v hp).mp hs x he)

theorem mem_iff_of_adds (h : Progress E kept placed s wl) (ha : Adds E placed s x added) (hv : v ∈ placed)
    (hx : v = x → ∀ p, E p v → p ∈ s) : (∀ p, E p v → p ∈ s ++ [x]) ↔ v = x ∨ v ∈ s ++ wl ∨ v ∈ added := by
  rw [h.mem_iff v hv, ha.mem_iff, and_iff_right hv]
  constructor
  case mp =>
    intro hp
    by_cases he : E x v
    case pos => exact .inr (.inr ⟨he, hp⟩)
    case neg =>
      refine .inr (.inl fun p hpv => ?_)
      have hpx : p ≠ x := fun heq => he (heq ▸ hpv)
      simpa [hpx] using hp p hpv
  case mpr =>
    rintro (heq | hs | ⟨_, hp⟩) p hpv
    · exact List.mem_append_left _ (hx heq p hpv)
    · exact List.mem_append_left _ (hs p hpv)
    · exact hp p hpv

-- The first node of the worklist is placed.
theorem pop (h : Progress E kept placed s (x :: wl)) (ha : Adds E placed s x added) :
    Progress E kept placed (s ++ [x]) (wl ++ added) := by
  have hxp : x ∈ placed := h.worklist x (.head _)
  have hxr : ∀ p, E p x → p ∈ s := (h.mem_iff x hxp).mp (by simp)
  have hxs : x ∉ s := fun hx => (List.nodup_append.mp h.nodup).2.2 x hx x (.head _) rfl
  refine ⟨?nodup, ?mem, ?sublist, ?worklist, fun v hv => ?mem_iff, fun hs hv => ?ready, fun hs hk v hv => ?early⟩
  case nodup =>
    rw [← List.append_assoc, List.append_assoc s, List.singleton_append, List.nodup_append]
    refine ⟨h.nodup, ha.nodup, fun v hv w hw heq => ?_⟩
    exact h.notMem_of_adds ha hxs hw (heq ▸ hv)
  case mem =>
    intro v hv
    obtain hv | hv := List.mem_append.mp hv
    case inl => exact h.mem v hv
    case inr => exact .inr (List.mem_singleton.mp hv ▸ hxp)
  case sublist => exact h.sublist.trans (List.sublist_append_left ..)
  case worklist =>
    intro v hv
    obtain hv | hv := List.mem_append.mp hv
    case inl => exact h.worklist v (.tail _ hv)
    case inr => exact ((ha.mem_iff v).mp hv).1
  case mem_iff =>
    rw [h.mem_iff_of_adds ha hv fun heq => heq ▸ hxr]
    simp only [List.mem_append, List.mem_cons, List.not_mem_nil]
    tauto
  case ready =>
    obtain ⟨rfl, rfl⟩ | ⟨l, hs⟩ := eq_or_of_concat_eq hs
    case inl => exact hxr
    case inr => exact h.ready hs hv
  case early =>
    obtain ⟨rfl, rfl⟩ | ⟨l, hs⟩ := eq_or_of_concat_eq hs
    case inl => exact absurd (h.sublist.subset hk) hxs
    case inr => exact h.early hs hk v hv

-- A node is replayed when no node is ready.
theorem replay (h : Progress E kept placed s []) (ha : Adds E placed s x added) (hk : x ∉ kept) (hp : x ∉ placed) :
    Progress E (kept ++ [x]) placed (s ++ [x]) added := by
  have hxs : x ∉ s := fun hx => (h.mem x hx).elim hk hp
  refine ⟨?nodup, ?mem, ?sublist, ?worklist, fun v hv => ?mem_iff, fun hs hv => ?ready, fun hs hk v hv => ?early⟩
  case nodup =>
    have hn : (s ++ [x]).Nodup := by
      rw [List.nodup_append]
      refine ⟨List.append_nil s ▸ h.nodup, List.nodup_singleton x, fun a ha b hb heq => hxs ?_⟩
      exact List.mem_singleton.mp hb ▸ heq ▸ ha
    refine List.nodup_append.mpr ⟨hn, ha.nodup, fun v hv w hw heq => ?_⟩
    subst heq
    obtain hv | hv := List.mem_append.mp hv
    case inl => exact h.notMem_of_adds ha hxs hw (by simpa using hv)
    case inr => exact hp (List.mem_singleton.mp hv ▸ ((ha.mem_iff _).mp hw).1)
  case mem =>
    intro v hv
    rw [List.mem_append]
    obtain hv | hv := List.mem_append.mp hv
    case inl => exact (h.mem v hv).imp_left .inl
    case inr => exact .inl (.inr hv)
  case sublist  => exact h.sublist.append (.refl _)
  case worklist => exact fun v hv => ((ha.mem_iff v).mp hv).1
  case mem_iff =>
    have hvx : v ≠ x := fun heq => hp (heq ▸ hv)
    rw [h.mem_iff_of_adds ha hv fun heq => absurd heq hvx]
    simp [hvx]
  case ready =>
    obtain ⟨rfl, rfl⟩ | ⟨l, hs⟩ := eq_or_of_concat_eq hs
    case inl => exact absurd hv hp
    case inr => exact h.ready hs hv
  case early =>
    obtain ⟨rfl, rfl⟩ | ⟨l, hl⟩ := eq_or_of_concat_eq hs
    case inl => exact fun hv' => by simpa using (h.mem_iff v hv).mpr hv'
    case inr =>
      obtain hk | hk := List.mem_append.mp hk
      case inl => exact h.early hl hk v hv
      case inr => exact absurd (hl ▸ List.mem_singleton.mp hk ▸ List.mem_append_cons_self) hxs

section Final

variable (h : Progress E kept placed s []) (wf : WellFounded E)
include h wf

-- Every node is placed.
theorem complete (hm : ∀ v ∈ placed, ∀ p, E p v → p ∈ kept ∨ p ∈ placed) : ∀ v ∈ placed, v ∈ s := by
  intro v
  induction v using wf.induction
  case h v hi =>
    intro hv
    have := (h.mem_iff v hv).mpr fun p hp => (hm v hv p hp).elim (fun hk => h.sublist.subset hk) (hi p hp)
    simpa using this

-- The ancestors of a replayed node come before it if this holds for those that are replayed themselves.
theorem mem_of_ancestor (hm : ∀ v ∈ placed, ∀ p, E p v → p ∈ kept ∨ p ∈ placed) (hs : s = l₁ ++ x :: l₂) (hx : x ∈ kept)
    {Q : α → Prop} (hQ : ∀ p v, E p v → Q v → Q p) (hk : ∀ k ∈ kept, Q k → k ∈ l₁) :
    ∀ a, Q a → a ∈ kept ∨ a ∈ placed → a ∈ l₁ := by
  intro a
  induction a using wf.induction
  case h a hi =>
    rintro ha (hak | hap)
    case inl => exact hk a hak ha
    case inr => exact h.early hs hx a hap fun p hp => hi p hp (hQ p a hp ha) (hm a hap p hp)

end Final
end Progress
end ListSchedule
