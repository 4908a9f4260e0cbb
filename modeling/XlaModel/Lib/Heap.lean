import Mathlib.Data.Multiset.AddSub
import Mathlib.Order.Defs.LinearOrder
import Mathlib.Tactic

-- Binary heaps in arrays, whose keys do not increase from a node to its children.
namespace Heap

variable {α β : Type} [LinearOrder β] {key : α → β} {a : Array α} {c i j k : Nat} {x : α}

section Tree

def parent (i : Nat) : Nat :=
  (i - 1) / 2

theorem parent_lt (h : 0 < i) : parent i < i := by
  rw [parent]
  omega

theorem parent_eq_iff (h : 0 < j) : parent j = i ↔ j = 2 * i + 1 ∨ j = 2 * i + 2 := by
  rw [parent]
  omega

variable (key)

def siftUp (a : Array α) (i : Nat) : Array α :=
  if h : 0 < i ∧ i < a.size then
    have hp : parent i < a.size := (parent_lt h.1).trans h.2
    if key a[parent i] < key a[i] then
      siftUp (a.swap i (parent i) h.2 hp) (parent i)
    else
      a
  else
    a
termination_by i
decreasing_by exact parent_lt h.1

def largerChild (a : Array α) (i : Nat) : Option Nat :=
  if hl : 2 * i + 1 < a.size then
    if hr : 2 * i + 2 < a.size then
      if key a[2 * i + 1] < key a[2 * i + 2] then some (2 * i + 2) else some (2 * i + 1)
    else
      some (2 * i + 1)
  else
    none

variable {key} in
theorem largerChild_bounds (h : largerChild key a i = some c) : i < c ∧ c < a.size := by
  rw [largerChild] at h
  split_ifs at h with hl hr hlt
  case pos => cases h; omega
  case neg => cases h; omega
  case neg => cases h; omega

def siftDown (a : Array α) (i : Nat) : Array α :=
  match h : largerChild key a i with
  | none   => a
  | some c =>
    have hc := largerChild_bounds h
    have hi : i < a.size := hc.1.trans hc.2
    have hc' : c < a.size := hc.2
    if key a[i] < key a[c] then
      siftDown (a.swap i c hi hc') c
    else
      a
termination_by a.size - i
decreasing_by
  rw [Array.size_swap]
  omega

end Tree

section Permutation

theorem siftUp_perm : (siftUp key a i).Perm a := by
  fun_induction siftUp key a i
  case case1 hi => exact hi.trans (Array.swap_perm _ _)
  case case2    => exact .refl _
  case case3    => exact .refl _

theorem siftDown_perm : (siftDown key a i).Perm a := by
  fun_induction siftDown key a i
  case case1    => exact .refl _
  case case2 hi => exact hi.trans (Array.swap_perm _ _)
  case case3    => exact .refl _

end Permutation

section Order

variable (key)

-- The nodes from `k` on are in order with their children.
def OrderedFrom (k : Nat) (a : Array α) : Prop :=
  ∀ j (hj : j < a.size) (hp : parent j < a.size), 0 < j → k ≤ parent j → key a[j] ≤ key a[parent j]

-- Only the node `i` can be larger than its parent.
structure UpOrder (a : Array α) (i : Nat) : Prop where
  except : ∀ j (hj : j < a.size) (hp : parent j < a.size), 0 < j → j ≠ i → key a[j] ≤ key a[parent j]
  grand  : ∀ j (hj : j < a.size) (hp : parent i < a.size), 0 < j → 0 < i → parent j = i → key a[j] ≤ key a[parent i]

-- Only the node `i` can be smaller than its children.
structure DownOrder (k : Nat) (a : Array α) (i : Nat) : Prop where
  except : ∀ j (hj : j < a.size) (hp : parent j < a.size), 0 < j → k ≤ parent j → parent j ≠ i → key a[j] ≤ key a[parent j]
  grand  : ∀ j (hj : j < a.size) (hp : parent i < a.size), 0 < j → 0 < i → k ≤ parent i → parent j = i →
    key a[j] ≤ key a[parent i]

variable {key}

theorem UpOrder.swap (h : UpOrder key a i) (h₀ : 0 < i) (hi : i < a.size) (hp : parent i < a.size)
    (hlt : key a[parent i] < key a[i]) : UpOrder key (a.swap i (parent i) hi hp) (parent i) where
  except j hj hpj hj₀ hne := by
    have := parent_lt h₀
    have := parent_lt hj₀
    have he := h.except j (by simpa using hj) (by simpa using hpj) hj₀
    have hg := h.grand j (by simpa using hj) hp hj₀ h₀
    grind
  grand j hj hpp hj₀ hp₀ he := by
    have := parent_lt h₀
    have := parent_lt hj₀
    have := parent_lt hp₀
    have hpp' := h.except (parent i) hp (by simpa using hpp) hp₀ (by omega)
    have hj := h.except j (by simpa using hj) (by simpa [he] using hp) hj₀
    grind

theorem siftUp_ordered (h : UpOrder key a i) : OrderedFrom key 0 (siftUp key a i) := by
  fun_induction siftUp key a i
  case case1 a i hi hp hlt ih => exact ih (h.swap hi.1 hi.2 hp hlt)
  case case2 a i hi hp hlt =>
    intro j hj hpj hj₀ _
    by_cases hji : j = i
    case pos => subst hji; exact not_lt.mp hlt
    case neg => exact h.except j hj hpj hj₀ hji
  case case3 a i hi =>
    intro j hj hpj hj₀ _
    exact h.except j hj hpj hj₀ (by rintro rfl; exact hi ⟨hj₀, hj⟩)

theorem largerChild_parent (h : largerChild key a i = some c) : parent c = i := by
  have hc := largerChild_bounds h
  rw [parent_eq_iff (Nat.zero_lt_of_lt hc.1)]
  rw [largerChild] at h
  split_ifs at h with hl hr hlt
  case pos => exact .inr (Option.some.inj h).symm
  case neg => exact .inl (Option.some.inj h).symm
  case neg => exact .inl (Option.some.inj h).symm

-- No child is larger.
theorem le_largerChild (h : largerChild key a i = some c) (hc : c < a.size) (hj : j < a.size) (h₀ : 0 < j)
    (hp : parent j = i) : key a[j] ≤ key a[c] := by
  have hj' := (parent_eq_iff h₀).mp hp
  rw [largerChild] at h
  grind

theorem size_le_of_largerChild_eq_none (h : largerChild key a i = none) (h₀ : 0 < j) (hp : parent j = i) : a.size ≤ j := by
  have hj' := (parent_eq_iff h₀).mp hp
  rw [largerChild] at h
  grind

theorem DownOrder.swap (h : DownOrder key k a i) (hk : k ≤ i) (hc : largerChild key a i = some c) (hi : i < a.size)
    (hcs : c < a.size) (hlt : key a[i] < key a[c]) : DownOrder key k (a.swap i c hi hcs) c where
  except j hj hpj hj₀ hkp hne := by
    have hci := largerChild_parent hc
    have hb := (largerChild_bounds hc).1
    have := parent_lt hj₀
    have he := h.except j (by simpa using hj) (by simpa using hpj) hj₀ hkp
    have hl := le_largerChild (j := j) hc hcs (by simpa using hj) hj₀
    have hg := h.grand c hcs 
    grind
  grand j hj hpc hj₀ hc₀ hkp he := by
    have hci := largerChild_parent hc
    have hb := (largerChild_bounds hc).1
    have := parent_lt hj₀
    have hj := h.except j (by simpa using hj) (by simpa [he] using hcs) hj₀
    grind

theorem siftDown_ordered (hk : k ≤ i) (h : DownOrder key k a i) : OrderedFrom key k (siftDown key a i) := by
  fun_induction siftDown key a i
  case case1 a i hc => 
    intro j hj hpj hj₀ hkp
    exact h.except j hj hpj hj₀ hkp fun hp => absurd hj (Nat.not_lt.mpr (size_le_of_largerChild_eq_none hc hj₀ hp))
  case case2 a i c hc _ hi hc' hlt ih => exact ih (by have := (largerChild_bounds hc).1; omega) (h.swap hk hc hi hc' hlt)
  case case3 a i c hc _ hi hc' hlt =>
    intro j hj hpj hj₀ hkp
    by_cases hp : parent j = i
    case pos => 
      have hl := le_largerChild hc hc' hj hj₀ hp
      subst hp
      exact hl.trans (not_lt.mp hlt)
    case neg => exact h.except j hj hpj hj₀ hkp hp

end Order

section Build

theorem OrderedFrom.le_top (h : OrderedFrom key 0 a) (h₀ : 0 < a.size) (hi : i < a.size) : key a[i] ≤ key a[0] := by
  induction i using Nat.strong_induction_on
  case h i ih =>
    by_cases hi₀ : i = 0
    case pos => subst hi₀; exact le_rfl
    case neg =>
      have hp := parent_lt (Nat.pos_of_ne_zero hi₀)
      exact (h i hi (hp.trans hi) (Nat.pos_of_ne_zero hi₀) (Nat.zero_le _)).trans (ih _ hp (hp.trans hi))

variable (key)

-- Orders the nodes below `k`, given that the others are in order with their children.
def heapify : Nat → Array α → Array α
  | 0,     a => a
  | k + 1, a => heapify k (siftDown key a k)

variable {key}

theorem heapify_perm : (heapify key k a).Perm a := by
  induction k generalizing a
  case zero      => exact .refl _
  case succ k hi => exact hi.trans siftDown_perm

theorem heapify_ordered (h : OrderedFrom key k a) : OrderedFrom key 0 (heapify key k a) := by
  induction k generalizing a
  case zero => exact h
  case succ k hi =>
    refine hi (siftDown_ordered le_rfl ⟨?except, ?grand⟩)
    case except =>
      intro j hj hp h₀ hk hne
      exact h j hj hp h₀ (by omega)
    case grand =>
      intro _ _ _ _ h₀ hk
      exact absurd hk (Nat.not_le.mpr (parent_lt h₀))

theorem orderedFrom_half : OrderedFrom key (a.size / 2) a := by
  intro j hj _ h₀ hk
  rw [parent] at hk
  omega

end Build

-- The top of the queue has the largest key (`std::priority_queue`).
structure PriorityQueue (key : α → β) where
  container : Array α
  ordered   : OrderedFrom key 0 container

namespace PriorityQueue

variable {q : PriorityQueue key}

def ofList (xs : List α) : PriorityQueue key where
  container := heapify key (xs.toArray.size / 2) xs.toArray
  ordered   := heapify_ordered orderedFrom_half

def size (q : PriorityQueue key) : Nat :=
  q.container.size

def isEmpty (q : PriorityQueue key) : Bool :=
  q.size = 0

def top? (q : PriorityQueue key) : Option α :=
  q.container[0]?

theorem upOrder_push (q : PriorityQueue key) (x : α) : UpOrder key (q.container.push x) q.container.size where
  except j hj hp h₀ hne := by
    have := parent_lt h₀
    have hj' : j < q.container.size := by
      rw [Array.size_push] at hj
      omega
    have ho := q.ordered j hj' (by omega) h₀ (Nat.zero_le _)
    rwa [Array.getElem_push_lt hj', Array.getElem_push_lt]
  grand j hj _ h₀ _ he := by
    have := parent_lt h₀
    rw [Array.size_push] at hj
    omega

def push (q : PriorityQueue key) (x : α) : PriorityQueue key where
  container := siftUp key (q.container.push x) q.container.size
  ordered   := siftUp_ordered (q.upOrder_push x)

theorem downOrder_pop (q : PriorityQueue key) (h₀ : 0 < q.container.size) (hl : q.container.size - 1 < q.container.size) :
    DownOrder key 0 (q.container.swap 0 (q.container.size - 1) h₀ hl).pop 0 where
  except j hj hp h hk hne := by
    have hj' : j < q.container.size - 1 := by simpa using hj
    have := parent_lt h
    have ho := q.ordered j (by omega) (by omega) h hk
    rw [Array.getElem_pop, Array.getElem_pop, Array.getElem_swap_of_ne (by omega) (by omega),
      Array.getElem_swap_of_ne (by omega) (by omega)]
    exact ho
  grand _ _ _ _ h := absurd h (Nat.lt_irrefl 0)

def pop (q : PriorityQueue key) : PriorityQueue key :=
  if h₀ : 0 < q.container.size then
    have hl : q.container.size - 1 < q.container.size := Nat.sub_one_lt_of_lt h₀
    {
      container := siftDown key (q.container.swap 0 (q.container.size - 1) h₀ hl).pop 0
      ordered   := siftDown_ordered le_rfl (q.downOrder_pop h₀ hl)
    }
  else
    q

def content (q : PriorityQueue key) : Multiset α :=
  q.container.toList

theorem card_content : q.content.card = q.size := by
  simp [content, size]

theorem content_ofList (xs : List α) : (ofList xs : PriorityQueue key).content = xs :=
  Multiset.coe_eq_coe.mpr (Array.perm_iff_toList_perm.mp heapify_perm)

theorem content_push : (q.push x).content = x ::ₘ q.content := by
  have hp : (siftUp key (q.container.push x) q.container.size).Perm _ := siftUp_perm
  rw [content, push, Multiset.coe_eq_coe.mpr (Array.perm_iff_toList_perm.mp hp), Array.toList_push, content]
  exact Multiset.coe_eq_coe.mpr List.perm_append_comm

theorem content_pop (h : q.top? = some x) : q.content = x ::ₘ q.pop.content := by
  obtain ⟨h₀, hx⟩ := Array.getElem?_eq_some_iff.mp h
  have hl : q.container.size - 1 < q.container.size := Nat.sub_one_lt_of_lt h₀
  generalize hb : q.container.swap 0 (q.container.size - 1) h₀ hl = b
  have hs : b.toList.Perm q.container.toList := Array.perm_iff_toList_perm.mp (hb ▸ Array.swap_perm h₀ hl)
  have hd : (siftDown key b.pop 0).toList.Perm b.pop.toList := Array.perm_iff_toList_perm.mp siftDown_perm
  -- The top is moved to the end.
  have he : b.pop.push x = b := by
    refine Array.ext (by grind) fun i _ _ => ?_
    grind
  have hc : (q.pop.content : Multiset α) = (siftDown key b.pop 0).toList := by
    rw [pop, dif_pos h₀, content]
    simp only [hb]
  rw [hc, content, ← Multiset.coe_eq_coe.mpr hs, Multiset.coe_eq_coe.mpr hd, ← he, Array.pop_push, Array.toList_push]
  exact Multiset.coe_eq_coe.mpr List.perm_append_comm

theorem le_top (h : q.top? = some x) : ∀ y ∈ q.content, key y ≤ key x := by
  obtain ⟨h₀, rfl⟩ := Array.getElem?_eq_some_iff.mp h
  intro y hy
  obtain ⟨i, hi, rfl⟩ := List.mem_iff_getElem.mp (Multiset.mem_coe.mp hy)
  exact q.ordered.le_top h₀ hi

end PriorityQueue

end Heap
