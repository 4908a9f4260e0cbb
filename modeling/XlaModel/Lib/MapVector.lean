import Mathlib.Data.List.Basic
import Mathlib.Tactic

-- Maps that are iterated in the order of insertion, as association lists.
namespace MapVector

variable {κ : Type u} {ν : Type v} {m : List (κ × ν)} {k k' : κ} {v : ν} {p : κ × ν}

def keys (m : List (κ × ν)) : List κ :=
  m.map (·.1)

theorem mem_keys_of_mem (h : p ∈ m) : p.1 ∈ keys m :=
  List.mem_map_of_mem h

theorem mem_keys : k ∈ keys m ↔ ∃ v, (k, v) ∈ m := by
  simp [keys]

theorem nodup_concat {ks : List κ} (h : ks.Nodup) (hk : k ∉ ks) : (ks ++ [k]).Nodup := by
  rw [List.nodup_append]
  refine ⟨h, List.nodup_singleton k, fun a ha b hb => ?_⟩
  exact List.mem_singleton.mp hb ▸ ne_of_mem_of_not_mem ha hk

theorem value_unique {v' : ν} (h : (keys m).Nodup) (hv : (k, v) ∈ m) (hv' : (k, v') ∈ m) : v = v' :=
  congrArg Prod.snd (List.inj_on_of_nodup_map h hv hv' rfl)

variable [DecidableEq κ]

def erase (m : List (κ × ν)) (k : κ) : List (κ × ν) :=
  m.filter (·.1 ≠ k)

def set (m : List (κ × ν)) (k : κ) (v : ν) : List (κ × ν) :=
  if k ∈ keys m then m.map fun p => if p.1 = k then (k, v) else p else m ++ [(k, v)]

-- Appends a value to the list of values of a key.
def push (m : List (κ × List ν)) (k : κ) (v : ν) : List (κ × List ν) :=
  if k ∈ keys m then
    m.map fun p => if p.1 = k then (k, p.2 ++ [v]) else p
  else
    m ++ [(k, [v])]

theorem mem_erase : p ∈ erase m k ↔ p ∈ m ∧ p.1 ≠ k := by
  simp [erase]

theorem mem_foldl_erase {ks : List κ} : p ∈ ks.foldl erase m ↔ p ∈ m ∧ p.1 ∉ ks := by
  induction ks generalizing m
  case nil => simp
  case cons k ks hi =>
    rw [List.foldl_cons, hi, mem_erase, List.mem_cons, not_or, and_assoc]

theorem foldl_erase {ks : List κ} : ks.foldl erase m = m.filter (·.1 ∉ ks) := by
  induction ks generalizing m
  case nil => simp
  case cons k ks hi =>
    rw [List.foldl_cons, hi, erase, List.filter_filter]
    refine List.filter_congr fun p _ => ?_
    simp [Bool.and_comm, not_or]

theorem mem_set : p ∈ set m k v ↔ p = (k, v) ∨ (p ∈ m ∧ p.1 ≠ k) := by
  rw [set]
  split
  case isTrue h =>
    obtain ⟨w, hw⟩ := mem_keys.mp h
    rw [List.mem_map]
    constructor
    case mp =>
      rintro ⟨q, hq, rfl⟩
      split
      case isTrue     => exact .inl rfl
      case isFalse hn => exact .inr ⟨hq, hn⟩
    case mpr =>
      intro hp
      cases hp
      case inl hp => exact ⟨(k, w), hw, by simp [hp]⟩
      case inr hp => exact ⟨p, hp.1, by simp [hp.2]⟩
  case isFalse h =>
    rw [List.mem_append, List.mem_singleton, or_comm]
    refine or_congr_right ⟨fun hp => ⟨hp, ?_⟩, fun hp => hp.1⟩
    exact fun he => h (he ▸ mem_keys_of_mem hp)

theorem keys_erase : keys (erase m k) = (keys m).filter (· ≠ k) := by
  simp [keys, erase, List.filter_map, Function.comp_def]

theorem nodup_foldl_erase {ks : List κ} (h : (keys m).Nodup) : (keys (ks.foldl erase m)).Nodup := by
  induction ks generalizing m
  case nil          => exact h
  case cons k ks hi =>
    refine hi ?_
    rw [keys_erase]
    exact h.filter _

theorem nodup_erase (h : (keys m).Nodup) : (keys (erase m k)).Nodup := by
  rw [keys_erase]
  exact h.filter _

theorem keys_map_set : keys (m.map fun p => if p.1 = k then (k, v) else p) = keys m := by
  simp only [keys, List.map_map, List.map_inj_left, Function.comp_apply]
  intro p _
  split
  case isTrue hp => exact hp.symm
  case isFalse   => rfl

theorem keys_set : keys (set m k v) = if k ∈ keys m then keys m else keys m ++ [k] := by
  rw [set]
  split
  case isTrue  => exact keys_map_set
  case isFalse => simp [keys]

theorem mem_keys_set : k' ∈ keys (set m k v) ↔ k' = k ∨ k' ∈ keys m := by
  rw [keys_set]
  split
  case isTrue hk => exact ⟨.inr, fun h => h.elim (· ▸ hk) id⟩
  case isFalse   => simp [or_comm]

theorem nodup_set (h : (keys m).Nodup) : (keys (set m k v)).Nodup := by
  rw [keys_set]
  split
  case isTrue     => exact h
  case isFalse hk => exact nodup_concat h hk

theorem foldl_set {xs : List α} {f : α → κ} {g : α → ν} (h : (keys m ++ xs.map f).Nodup) :
    xs.foldl (fun m x => set m (f x) (g x)) m = m ++ xs.map fun x => (f x, g x) := by
  induction xs generalizing m
  case nil => simp
  case cons x xs hi =>
    have hk : f x ∉ keys m := by
      have := (List.nodup_append.mp h).2.2
      exact fun hm => this _ hm _ List.mem_cons_self rfl
    rw [List.foldl_cons, set, if_neg hk, hi]
    · simp
    · simpa [keys] using h

theorem lookup_cons : (p :: m).lookup k = if k = p.1 then some p.2 else m.lookup k := by
  obtain ⟨l, v⟩ := p
  by_cases h : k = l
  case pos => simp [h]
  case neg => simp [List.lookup_cons, beq_eq_false_iff_ne.mpr h, h]

theorem mem_of_lookup (h : m.lookup k = some v) : (k, v) ∈ m := by
  obtain ⟨l₁, l₂, rfl, _⟩ := List.lookup_eq_some_iff.mp h
  simp

theorem lookup_of_mem (h : (keys m).Nodup) (hv : (k, v) ∈ m) : m.lookup k = some v := by
  cases he : m.lookup k
  case none =>
    have := List.lookup_eq_none_iff.mp he (k, v) hv
    simp at this
  case some w => rw [value_unique h (mem_of_lookup he) hv]

def find (m : List (κ × ν)) (k : κ) : Option ν :=
  m.lookup k

theorem find_eq_none_iff : find m k = none ↔ k ∉ keys m := by
  rw [find, List.lookup_eq_none_iff]
  simp only [keys, List.mem_map, not_exists, not_and, bne_iff_ne]
  exact forall₂_congr fun p _ => ne_comm

theorem find_set : find (set m k v) k' = if k' = k then some v else find m k' := by
  have hm (m : List (κ × ν)) : find (m.map fun p => if p.1 = k then (k, v) else p) k' =
      if k' = k then (find m k).map fun _ => v else find m k' := by
    induction m
    case nil => simp [find]
    case cons p m hi =>
      rw [find, find, find] at hi
      rw [find, find, find, List.map_cons, lookup_cons, lookup_cons, lookup_cons, hi]
      by_cases hl : p.1 = k
      case pos => by_cases hk : k' = k <;> simp [hl, hk]
      case neg => by_cases hk : k' = p.1 <;> simp [hl, Ne.symm hl, hk]
  rw [set]
  split
  case isTrue h =>
    obtain ⟨w, hw⟩ := Option.ne_none_iff_exists'.mp fun hn => find_eq_none_iff.mp hn h
    rw [hm, hw]
    rfl
  case isFalse h =>
    rw [find, List.lookup_append, ← find, ← find]
    by_cases hk : k' = k
    case pos =>
      rw [hk, find_eq_none_iff.mpr h]
      simp [find]
    case neg => simp [find, lookup_cons, hk]

theorem erase_of_not_mem (h : k ∉ keys m) : erase m k = m :=
  List.filter_eq_self.mpr fun p hp => by simpa using fun he : p.1 = k => h (he ▸ mem_keys_of_mem hp)

theorem erase_of_find (h : find m k = none) : erase m k = m :=
  erase_of_not_mem (find_eq_none_iff.mp h)

theorem erase_set : erase (set m k v) k = erase m k := by
  have hm (m : List (κ × ν)) : erase (m.map fun p => if p.1 = k then (k, v) else p) k = erase m k := by
    induction m
    case nil => rfl
    case cons p m hi =>
      simp only [erase] at hi ⊢
      by_cases hp : p.1 = k
      case pos => simpa [hp] using hi
      case neg => simpa [hp] using hi
  rw [set]
  split
  case isTrue  => exact hm m
  case isFalse => simp [erase]

theorem map_snd_erase_perm (hn : (keys m).Nodup) (h : find m k = some v) :
    (v :: (erase m k).map (·.2)).Perm (m.map (·.2)) := by
  induction m
  case nil => simp [find] at h
  case cons p m hi =>
    have ⟨hp, hm⟩ := List.nodup_cons.mp hn
    rw [find, lookup_cons] at h
    by_cases he : k = p.1
    case pos =>
      rw [if_pos he] at h
      have hf : erase (p :: m) k = erase m k := by simp [erase, he]
      rw [hf, erase_of_not_mem (he ▸ hp), List.map_cons, Option.some.inj h]
    case neg =>
      rw [if_neg he] at h
      have hf : erase (p :: m) k = p :: erase m k := by simp [erase, Ne.symm he]
      rw [hf, List.map_cons, List.map_cons]
      exact (List.Perm.swap _ _ _).trans ((hi hm h).cons p.2)

theorem map_snd_set_perm (hn : (keys m).Nodup) : (v :: (erase m k).map (·.2)).Perm ((set m k v).map (·.2)) := by
  have h := map_snd_erase_perm (k := k) (v := v) (nodup_set hn) (by rw [find_set, if_pos rfl])
  rwa [erase_set] at h

section Push

variable {m : List (κ × List ν)} {q : κ × List ν}

theorem keys_push : keys (push m k v) = if k ∈ keys m then keys m else keys m ++ [k] := by
  rw [push]
  split
  case isTrue =>
    simp only [keys, List.map_map, List.map_inj_left, Function.comp_apply]
    intro p _
    split
    case isTrue hp => exact hp.symm
    case isFalse   => rfl
  case isFalse => simp [keys]

theorem nodup_push (h : (keys m).Nodup) : (keys (push m k v)).Nodup := by
  rw [keys_push]
  split
  case isTrue     => exact h
  case isFalse hk => exact nodup_concat h hk

theorem mem_push (h : q ∈ push m k v) :
    (q ∈ m ∧ q.1 ≠ k) ∨ (q.1 = k ∧ ((q.2 = [v] ∧ k ∉ keys m) ∨ ∃ vs, (k, vs) ∈ m ∧ q.2 = vs ++ [v])) := by
  rw [push] at h
  split at h
  case isTrue hk =>
    obtain ⟨p, hp, rfl⟩ := List.mem_map.mp h
    split
    case isTrue he  => exact .inr ⟨rfl, .inr ⟨p.2, he ▸ hp, rfl⟩⟩
    case isFalse he => exact .inl ⟨hp, he⟩
  case isFalse hk =>
    cases List.mem_append.mp h
    case inl hq => exact .inl ⟨hq, fun he => hk (he ▸ mem_keys_of_mem hq)⟩
    case inr hq =>
      obtain rfl := List.mem_singleton.mp hq
      exact .inr ⟨rfl, .inl ⟨rfl, hk⟩⟩

-- The values of every key are related to it.
structure Grouped (R : κ → ν → Prop) (m : List (κ × List ν)) : Prop where
  nodup    : (keys m).Nodup
  nonempty : ∀ q ∈ m, q.2 ≠ []
  rel      : ∀ q ∈ m, ∀ v ∈ q.2, R q.1 v

namespace Grouped

variable {R : κ → ν → Prop}

omit [DecidableEq κ] in
theorem nil : Grouped R [] :=
  ⟨List.nodup_nil, by simp, by simp⟩

theorem push (h : Grouped R m) (hv : R k v) : Grouped R (push m k v) where
  nodup := nodup_push h.nodup
  nonempty q hq := by
    cases mem_push hq
    case inl hq => exact h.nonempty q hq.1
    case inr hq =>
      cases hq.2
      case inl hq => simp [hq.1]
      case inr hq =>
        obtain ⟨_, _, hq⟩ := hq
        simp [hq]
  rel q hq w hw := by
    cases mem_push hq
    case inl hq => exact h.rel q hq.1 w hw
    case inr hq =>
      obtain ⟨rfl, hq⟩ := hq
      cases hq
      case inl hq => exact List.mem_singleton.mp (hq.1 ▸ hw) ▸ hv
      case inr hq =>
        obtain ⟨vs, hvs, hq⟩ := hq
        rw [hq, List.mem_append, List.mem_singleton] at hw
        cases hw
        case inl hw => exact h.rel _ hvs w hw
        case inr hw => exact hw ▸ hv

omit [DecidableEq κ] in
theorem tail (h : Grouped R (q :: m)) : Grouped R m :=
  ⟨(List.nodup_cons.mp h.nodup).2, fun p hp => h.nonempty p (.tail _ hp),
    fun p hp => h.rel p (.tail _ hp)⟩

omit [DecidableEq κ] in
theorem imp {R' : κ → ν → Prop} (h : Grouped R m) (hr : ∀ q ∈ m, ∀ v, R q.1 v → R' q.1 v) :
    Grouped R' m :=
  ⟨h.nodup, h.nonempty, fun q hq v hv => hr q hq v (h.rel q hq v hv)⟩

omit [DecidableEq κ] in
theorem head_ne {p : κ × List ν} (h : Grouped R (q :: m)) (hp : p ∈ m) : p.1 ≠ q.1 := by
  intro he
  have := mem_keys_of_mem hp
  rw [he] at this
  exact (List.nodup_cons.mp h.nodup).1 this

end Grouped
end Push

section Values

variable {m : List (κ × List ν)}

theorem lookup_push : (push m k v).lookup k' = if k' = k then some ((m.lookup k).getD [] ++ [v]) else m.lookup k' := by
  have hm (m : List (κ × List ν)) : (m.map fun p => if p.1 = k then (k, p.2 ++ [v]) else p).lookup k' =
      if k' = k then (m.lookup k).map (· ++ [v]) else m.lookup k' := by
    induction m
    case nil => simp
    case cons p m hi =>
      rw [List.map_cons, lookup_cons, lookup_cons, lookup_cons, hi]
      by_cases hl : p.1 = k
      case pos => by_cases hk : k' = k <;> simp [hl, hk]
      case neg => by_cases hk : k' = p.1 <;> simp [hl, Ne.symm hl, hk]
  rw [push]
  split
  case isTrue h =>
    obtain ⟨vs, hvs⟩ := mem_keys.mp h
    have hs : (m.lookup k).isSome := by
      rw [Option.isSome_iff_ne_none, Ne, List.lookup_eq_none_iff]
      intro hn
      have := hn _ hvs
      simp at this
    obtain ⟨ws, hws⟩ := Option.isSome_iff_exists.mp hs
    rw [hm, hws]
    rfl
  case isFalse h =>
    have hn : m.lookup k = none :=
      List.lookup_eq_none_iff.mpr fun p hp => by simpa using fun he : k = p.1 => h (he ▸ mem_keys_of_mem hp)
    rw [List.lookup_append, hn]
    by_cases hk : k' = k
    case pos => simp [hk, hn]
    case neg => simp [lookup_cons, hk]

theorem lookup_erase : (erase m k).lookup k' = if k' = k then none else m.lookup k' := by
  induction m
  case nil => simp [erase]
  case cons p m hi =>
    rw [erase] at hi ⊢
    by_cases hp : p.1 = k
    case pos =>
      rw [List.filter_cons_of_neg (by simpa using hp), hi, lookup_cons, hp]
      by_cases hk : k' = k <;> simp [hk]
    case neg =>
      rw [List.filter_cons_of_pos (by simpa using hp), lookup_cons, lookup_cons, hi]
      by_cases hk : k' = p.1 <;> simp [hk, hp]

theorem find_push : find (push m k v) k' = if k' = k then some ((find m k).getD [] ++ [v]) else find m k' :=
  lookup_push

theorem find_erase : find (erase m k) k' = if k' = k then none else find m k' :=
  lookup_erase

theorem values_push_perm (h : (keys m).Nodup) : ((push m k v).flatMap Prod.snd).Perm (m.flatMap Prod.snd ++ [v]) := by
  rw [push]
  split
  case isTrue hk =>
    induction m
    case nil => simp [keys] at hk
    case cons p m hi =>
      have ⟨hp, hm⟩ := List.nodup_cons.mp h
      by_cases he : p.1 = k
      case pos =>
        have hr : (m.map fun p => if p.1 = k then (k, p.2 ++ [v]) else p) = m := by
          conv_rhs => rw [← List.map_id m]
          refine List.map_congr_left fun q hq => if_neg fun hqk => hp ?_
          exact List.mem_map.mpr ⟨q, hq, hqk.trans he.symm⟩
        rw [List.map_cons, if_pos he, hr, List.flatMap_cons, List.flatMap_cons, List.append_assoc, List.append_assoc]
        exact (List.perm_append_comm).append_left p.2
      case neg =>
        have hk : k ∈ keys m := by simpa [keys, Ne.symm he] using hk
        rw [List.map_cons, if_neg he, List.flatMap_cons, List.flatMap_cons, List.append_assoc]
        exact (hi hm hk).append_left p.2
  case isFalse => simp

theorem values_erase_perm (h : (keys m).Nodup) :
    ((find m k).getD [] ++ (erase m k).flatMap Prod.snd).Perm (m.flatMap Prod.snd) := by
  induction m
  case nil => simp [find, erase]
  case cons p m hi =>
    obtain ⟨l, vs⟩ := p
    have ⟨hp, hm⟩ := List.nodup_cons.mp h
    rw [find, List.lookup_cons, erase, List.flatMap_cons]
    by_cases hl : k = l
    case pos =>
      subst hl
      have he : m.filter (·.1 ≠ k) = m := List.filter_eq_self.mpr fun q hq => by
        simpa using fun hqk : q.1 = k => hp (List.mem_map.mpr ⟨q, hq, hqk⟩)
      rw [List.filter_cons_of_neg (by simp), he]
      simp
    case neg =>
      rw [List.filter_cons_of_pos (by simpa using Ne.symm hl), beq_eq_false_iff_ne.mpr hl, List.flatMap_cons]
      refine .trans ?_ ((hi hm).append_left vs)
      rw [← List.append_assoc, ← List.append_assoc]
      exact (List.perm_append_comm).append_right _

theorem mem_values (h : (keys m).Nodup) : v ∈ m.flatMap Prod.snd ↔ ∃ k, v ∈ (find m k).getD [] := by
  rw [List.mem_flatMap]
  constructor
  · rintro ⟨⟨k, vs⟩, hp, hv⟩
    exact ⟨k, by rwa [find, lookup_of_mem h hp]⟩
  · rintro ⟨k, hv⟩
    rw [find] at hv
    cases he : m.lookup k
    case none    => simp [he] at hv
    case some vs => exact ⟨_, mem_of_lookup he, by simpa [he] using hv⟩

end Values
end MapVector
