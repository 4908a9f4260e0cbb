import Mathlib.Data.List.Sort
import Mathlib.Data.List.TakeWhile
import Mathlib.Order.Lex
import Mathlib.Tactic
import XlaModel.Lib.MapVector

-- Maps whose entries are sorted by their keys, as association lists.
namespace SortedMap

variable {κ : Type u} {ν : Type v} [LinearOrder κ] {m : List (κ × ν)} {k k' : κ} {v : ν} {p : κ × ν}

def Sorted (m : List (κ × ν)) : Prop :=
  m.Pairwise fun p q => p.1 < q.1

def find (m : List (κ × ν)) (k : κ) : Option ν :=
  m.lookup k

def set : List (κ × ν) → κ → ν → List (κ × ν)
  | [],     k, v => [(k, v)]
  | p :: m, k, v =>
    if k < p.1 then (k, v) :: p :: m
    else if k = p.1 then (k, v) :: m
    else p :: set m k v

def erase (m : List (κ × ν)) (k : κ) : List (κ × ν) :=
  m.filter (·.1 ≠ k)

theorem find_cons : find (p :: m) k = if k = p.1 then some p.2 else find m k :=
  MapVector.lookup_cons

theorem find_set : find (set m k v) k' = if k' = k then some v else find m k' := by
  induction m
  case nil => simp [set, find_cons]
  case cons p m hi =>
    rw [set]
    split_ifs <;> simp_all [find_cons]

theorem mem_set (h : p ∈ set m k v) : p = (k, v) ∨ p ∈ m := by
  induction m
  case nil => simpa [set] using h
  case cons q m hi =>
    rw [set] at h
    split_ifs at h
    case pos => simpa using h
    case pos => exact (List.mem_cons.mp h).imp_right (List.mem_cons_of_mem _)
    case neg =>
      obtain rfl | h := List.mem_cons.mp h
      case inl => simp
      case inr => exact (hi h).imp_right (List.mem_cons_of_mem _)

theorem Sorted.set (h : Sorted m) : Sorted (set m k v) := by
  induction m
  case nil => simp [SortedMap.set, Sorted]
  case cons p m hi =>
    obtain ⟨hp, hm⟩ := List.pairwise_cons.mp h
    rw [SortedMap.set]
    split_ifs with hlt heq
    case pos =>
      refine List.pairwise_cons.mpr ⟨fun q hq => ?_, h⟩
      obtain rfl | hq := List.mem_cons.mp hq
      case inl => exact hlt
      case inr => exact hlt.trans (hp q hq)
    case pos => exact List.pairwise_cons.mpr ⟨fun q hq => heq ▸ hp q hq, hm⟩
    case neg =>
      refine List.pairwise_cons.mpr ⟨fun q hq => ?_, hi hm⟩
      obtain rfl | hq := mem_set hq
      case inl => exact lt_of_le_of_ne (not_lt.mp hlt) (Ne.symm heq)
      case inr => exact hp q hq

theorem find_filter (f : κ → Prop) [DecidablePred f] : find (m.filter (f ·.1)) k = if f k then find m k else none := by
  induction m
  case nil => simp [find]
  case cons p m hi =>
    by_cases hf : f p.1
    case pos =>
      rw [List.filter_cons_of_pos (by simpa), find_cons, find_cons, hi]
      split_ifs <;> simp_all
    case neg =>
      rw [List.filter_cons_of_neg (by simpa), find_cons, hi]
      split_ifs <;> simp_all

theorem find_erase : find (erase m k) k' = if k' = k then none else find m k' := by
  rw [erase, find_filter (· ≠ k)]
  by_cases h : k' = k <;> simp [h]

theorem Sorted.filter (h : Sorted m) (f : κ × ν → Bool) : Sorted (m.filter f) :=
  List.Pairwise.filter f h

-- A predicate on the keys that holds from a lower bound on for a while.
theorem eq_filter_not {f g : κ → Bool} (h : Sorted m) (hlow : ∀ k, f k = true → g k = false)
    (hmono : ∀ k k', f k = true → k' ≤ k → f k' = true)
    (hconv : ∀ k k', f k = false → g k = false → k < k' → g k' = false) :
    (m.takeWhile (f ·.1)) ++ (m.dropWhile (f ·.1)).dropWhile (g ·.1) = m.filter fun p => !g p.1 := by
  have hrest {m : List (κ × ν)} (h : Sorted m) (hf : ∀ p ∈ m, f p.1 = false) :
      m.dropWhile (g ·.1) = m.filter fun p => !g p.1 := by
    induction m
    case nil => rfl
    case cons p m hi =>
      obtain ⟨hp, hm⟩ := List.pairwise_cons.mp h
      cases hg : g p.1
      case true  => simpa [List.dropWhile_cons, hg] using hi hm fun q hq => hf q (.tail _ hq)
      case false =>
        rw [List.dropWhile_cons_of_neg (by simp [hg]), List.filter_cons_of_pos (by simp [hg]), List.filter_eq_self.mpr]
        exact fun q hq => by simpa using hconv p.1 q.1 (hf p (.head _)) hg (hp q hq)
  induction m
  case nil => rfl
  case cons p m hi =>
    obtain ⟨hp, hm⟩ := List.pairwise_cons.mp h
    cases hf : f p.1
    case true =>
      rw [List.filter_cons_of_pos (by simp [hlow _ hf]), ← hi hm]
      simp only [List.takeWhile_cons, List.dropWhile_cons, hf, if_true, List.cons_append]
    case false =>
      rw [List.takeWhile_cons_of_neg (by simp [hf]), List.dropWhile_cons_of_neg (by simp [hf]), List.nil_append]
      refine hrest h fun q hq => ?_
      obtain rfl | hq := List.mem_cons.mp hq
      case inl => exact hf
      case inr =>
        cases hfq : f q.1
        case false => rfl
        case true  => exact absurd (hmono _ _ hfq (hp q hq).le) (by simp [hf])

theorem eq_filter {f g : κ → Bool} (h : Sorted m) (hlow : ∀ k, f k = true → g k = false)
    (hmono : ∀ k k', f k = true → k' ≤ k → f k' = true)
    (hconv : ∀ k k', f k = false → g k = false → k < k' → g k' = false) :
    (m.dropWhile (f ·.1)).takeWhile (g ·.1) = m.filter (g ·.1) := by
  have hnot := eq_filter_not h hlow hmono hconv
  have hg {p : κ × ν} (hp : p ∈ (m.takeWhile (f ·.1)) ++ (m.dropWhile (f ·.1)).dropWhile (g ·.1)) : g p.1 = false := by
    rw [hnot] at hp
    simpa using (List.mem_filter.mp hp).2
  have hm : m = m.takeWhile (f ·.1) ++
      ((m.dropWhile (f ·.1)).takeWhile (g ·.1) ++ (m.dropWhile (f ·.1)).dropWhile (g ·.1)) := by
    rw [List.takeWhile_append_dropWhile, List.takeWhile_append_dropWhile]
  have hleft : (m.takeWhile (f ·.1)).filter (g ·.1) = [] :=
    List.filter_eq_nil_iff.mpr fun p hp => by simp [hg (List.mem_append_left _ hp)]
  have hright : ((m.dropWhile (f ·.1)).dropWhile (g ·.1)).filter (g ·.1) = [] :=
    List.filter_eq_nil_iff.mpr fun p hp => by simp [hg (List.mem_append_right _ hp)]
  have hmid : ((m.dropWhile (f ·.1)).takeWhile (g ·.1)).filter (g ·.1) = (m.dropWhile (f ·.1)).takeWhile (g ·.1) :=
    List.filter_eq_self.mpr fun p hp => List.all_eq_true.mp List.all_takeWhile p hp
  conv_rhs => rw [hm]
  rw [List.filter_append, List.filter_append, hleft, hmid, hright, List.nil_append, List.append_nil]

end SortedMap

-- Maps that are sorted by descending keys, as lists of their values. The key of a value is a part of it.
namespace DescendingMap

variable {κ : Type u} {ν : Type v} [LinearOrder κ] {key : ν → κ} {m vs : List ν} {k : κ} {v w : ν}

def Descending (key : ν → κ) (m : List ν) : Prop :=
  m.Pairwise fun v w => key w < key v

-- The values from the first one on whose key is at most `k`.
def lowerBound (key : ν → κ) (m : List ν) (k : κ) : List ν :=
  m.dropWhile (k < key ·)

-- A value is not replaced.
def insert (key : ν → κ) : List ν → ν → List ν
  | [],     v => [v]
  | w :: m, v =>
    if key w < key v then v :: w :: m
    else if key w = key v then w :: m
    else w :: insert key m v

def erase (key : ν → κ) (m : List ν) (k : κ) : List ν :=
  m.filter (key · ≠ k)

def insertAll (key : ν → κ) (m vs : List ν) : List ν :=
  vs.foldl (insert key) m

theorem Descending.sublist (h : Descending key m) (hs : vs.Sublist m) : Descending key vs :=
  List.Pairwise.sublist hs h

theorem Descending.nodup_keys (h : Descending key m) : (m.map key).Nodup := by
  apply List.Pairwise.map key _ h
  intro _ _ hlt
  exact hlt.ne'

theorem Descending.key_injective (h : Descending key m) (hv : v ∈ m) (hw : w ∈ m) (hk : key v = key w) : v = w :=
  List.inj_on_of_nodup_map h.nodup_keys hv hw hk

theorem lowerBound_sublist : (lowerBound key m k).Sublist m :=
  List.dropWhile_sublist _

theorem lt_of_not_mem_lowerBound (hv : v ∈ m) (h : v ∉ lowerBound key m k) : k < key v := by
  rw [←List.takeWhile_append_dropWhile (p := (k < key ·)) (l := m)] at hv
  obtain hv | hv := List.mem_append.mp hv
  case inl => simpa using List.mem_takeWhile_imp hv
  case inr => exact absurd hv h

theorem lowerBound_head_le (h : lowerBound key m k = v :: vs) : key v ≤ k := by
  rw [lowerBound] at h
  have hne : m.dropWhile (k < key ·) ≠ [] := h ▸ List.cons_ne_nil v vs
  have hh := List.head_dropWhile_not _ hne
  simpa [h] using hh

theorem mem_of_lowerBound_eq (h : lowerBound key m k = v :: vs) : v ∈ m := by
  have hs : (lowerBound key m k).Sublist m := lowerBound_sublist
  exact hs.subset (h ▸ List.mem_cons_self)

theorem filter_lowerBound {P : ν → Prop} [DecidablePred P] (h : ∀ v ∈ m, P v → key v ≤ k) :
    (lowerBound key m k).filter P = m.filter P := by
  induction m
  case nil => rfl
  case cons v m hi =>
    rw [lowerBound, List.dropWhile_cons]
    split_ifs with hlt
    case pos =>
      have hv : ¬P v := fun hv => not_lt_of_ge (h v (.head _) hv) (by simpa using hlt)
      rw [List.filter_cons_of_neg (by simpa), ←hi fun w hw => h w (.tail _ hw), lowerBound]
    case neg => rfl

theorem mem_of_mem_insert (h : w ∈ insert key m v) : w = v ∨ w ∈ m := by
  induction m
  case nil => simpa [insert] using h
  case cons u m hi =>
    rw [insert] at h
    split_ifs at h
    case pos => simpa using h
    case pos => exact .inr h
    case neg =>
      obtain rfl | h := List.mem_cons.mp h
      case inl => simp
      case inr => exact (hi h).imp_right (List.mem_cons_of_mem _)

theorem insert_perm (h : key v ∉ m.map key) : (insert key m v).Perm (v :: m) := by
  induction m
  case nil => exact .refl _
  case cons u m hi =>
    obtain ⟨hu, hm⟩ : ¬key v = key u ∧ key v ∉ m.map key := by simpa using h
    rw [insert, if_neg (Ne.symm hu)]
    split_ifs
    case pos => exact .refl _
    case neg => exact ((hi hm).cons u).trans (.swap v u m)

theorem insert_eq_concat (h : ∀ w ∈ m, key v < key w) : insert key m v = m ++ [v] := by
  induction m
  case nil => rfl
  case cons u m hi =>
    have ⟨hu, hm⟩ := List.forall_mem_cons.mp h
    rw [insert, if_neg hu.not_gt, if_neg hu.ne', hi hm, List.cons_append]

theorem Descending.insert (h : Descending key m) : Descending key (insert key m v) := by
  induction m
  case nil => exact List.pairwise_singleton _ _
  case cons u m hi =>
    obtain ⟨hu, hm⟩ := List.pairwise_cons.mp h
    rw [DescendingMap.insert]
    split_ifs with hlt heq
    case pos =>
      apply List.pairwise_cons.mpr ⟨fun w hw => ?_, h⟩
      obtain rfl | hw := List.mem_cons.mp hw
      case inl => exact hlt
      case inr => exact (hu w hw).trans hlt
    case pos => exact h
    case neg =>
      apply List.pairwise_cons.mpr ⟨fun w hw => ?_, hi hm⟩
      obtain rfl | hw := mem_of_mem_insert hw
      case inl => exact lt_of_le_of_ne (not_lt.mp hlt) (Ne.symm heq)
      case inr => exact hu w hw

theorem Descending.insertAll (h : Descending key m) : Descending key (insertAll key m vs) := by
  induction vs generalizing m
  case nil => exact h
  case cons v vs hi => exact hi h.insert

-- No value is lost if the keys are distinct.
theorem insertAll_perm (h : ((m ++ vs).map key).Nodup) : (insertAll key m vs).Perm (m ++ vs) := by
  induction vs generalizing m
  case nil => simp [DescendingMap.insertAll]
  case cons v vs hi =>
    have hm : (m ++ v :: vs).Perm (v :: m ++ vs) := List.perm_middle
    have hv : key v ∉ m.map key := by
      have := (hm.map key).nodup_iff.mp h
      simp_all
    have hp : (DescendingMap.insert key m v ++ vs).Perm (v :: m ++ vs) := (insert_perm hv).append_right vs
    exact (hi <| (hp.trans hm.symm).map key |>.nodup_iff.mpr h).trans (hp.trans hm.symm)

theorem insertAll_of_descending (h : Descending key (m ++ vs)) : insertAll key m vs = m ++ vs := by
  apply (insertAll_perm h.nodup_keys).eq_of_pairwise _ (h.sublist (List.sublist_append_left m vs)).insertAll h
  intro v w _ _ hvw hwv
  exact absurd hvw (not_lt_of_gt hwv)

end DescendingMap
