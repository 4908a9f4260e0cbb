import Mathlib.Data.List.GetD
import Mathlib.Data.List.Infix
import Mathlib.Data.List.Nodup
import Mathlib.Data.List.Sort
import Mathlib.Order.Basic
import Mathlib.Tactic

-- Vectors are modelled by lists that are read with a default value and modified in place.
namespace List

theorem getD_modify {l : List α} {f : α → α} {d : α} (h : n < l.length) :
    (l.modify n f).getD m d = if m = n then f (l.getD m d) else l.getD m d := by
  simp only [getD_eq_getElem?_getD, getElem?_modify]
  by_cases hm : n = m
  case pos =>
    subst hm
    simp [h]
  case neg => cases l[m]? <;> simp [hm, Ne.symm hm]

theorem getD_modify_of_le {l : List α} {f : α → α} {d : α} (h : l.length ≤ n) :
    (l.modify n f).getD m d = l.getD m d := by
  rw [modify_eq_self h]

-- The values are written to distinct positions.
theorem getElem?_foldl_set {perm : List Nat} {ts xs : List α} (h : perm.Nodup) (hl : ts.length = perm.length) (d : Nat) :
    ((perm.zip ts).foldl (fun xs (p, t) => xs.set p t) xs)[d]? =
      if d ∈ perm ∧ d < xs.length then ts[perm.idxOf d]? else xs[d]? := by
  induction perm generalizing ts xs
  case nil => simp
  case cons p perm hi =>
    cases ts
    case nil => simp at hl
    case cons t ts =>
      rw [List.nodup_cons] at h
      rw [List.zip_cons_cons, List.foldl_cons, hi h.2 (by simpa using hl)]
      by_cases hd : d = p
      case pos =>
        subst hd
        by_cases hlt : d < xs.length <;> simp [h.1, hlt]
      case neg =>
        have : p ≠ d := Ne.symm hd
        simp [hd, this, List.idxOf_cons_ne, List.getElem?_set_ne]

-- The entries at the given positions are removed from the last one to the first one.
theorem foldr_eraseIdx_filter {p : Nat → Bool} {q : α → Bool} {l : List α} (ys : List α)
    (h : ∀ i (hi : i < l.length), q l[i] = !p i) :
    ((range l.length).filter p).foldr (fun i zs => zs.eraseIdx i) (l ++ ys) = l.filter q ++ ys := by
  induction l using reverseRecOn generalizing ys
  case nil => rfl
  case append_singleton xs x hi =>
    have hi := fun ys => hi ys fun i hlt => by
      have := h i (by simp; omega)
      rwa [getElem_append_left hlt] at this
    have hx : q x = !p xs.length := by simpa using h xs.length (by simp)
    rw [length_append, length_singleton, range_succ, filter_append, foldr_append,
      filter_append, append_assoc, append_assoc, singleton_append]
    cases hp : p xs.length
    case false => simpa [hx, hp] using hi (x :: ys)
    case true  => simpa [hx, hp, eraseIdx_append_of_length_le] using hi ys

end List

namespace List

variable {α : Type*} {xs ys zs : List α} {x : α}

theorem IsInfix.eq_append_of_head (hn : (x :: xs).Nodup) (h : ys <:+: x :: xs) (hx : x ∈ ys) : ∃ zs, x :: xs = ys ++ zs := by
  obtain ⟨us, zs, h⟩ := h
  cases us
  case nil       => exact ⟨zs, h.symm⟩
  case cons u us =>
    obtain ⟨rfl, rfl⟩ := cons.inj h
    exact absurd (mem_append_left _ (mem_append_right _ hx)) (nodup_cons.mp hn).1

theorem IsInfix.of_append (h : ys <:+: xs ++ zs) (hn : ys ≠ []) (hd : ys.Disjoint xs) : ys <:+: zs := by
  induction xs
  case nil => exact h
  case cons x xs hi =>
    obtain ⟨y, ys, rfl⟩ := exists_cons_of_ne_nil hn
    obtain h | h := infix_cons_iff.mp h
    case inl =>
      obtain ⟨rfl, -⟩ := cons_prefix_cons.mp h
      exact absurd (mem_cons_self) (disjoint_left.mp hd mem_cons_self)
    case inr => exact hi h fun y hy hx => hd hy (.tail _ hx)

-- A list that is covered by blocks is a sequence of the blocks.
theorem exists_flatMap_of_infix {block : Nat → List α} {ks : List Nat} (hn : xs.Nodup)
    (h : ∀ x ∈ xs, ∃ k ∈ ks, x ∈ block k ∧ block k <:+: xs)
    (hd : ∀ j ∈ ks, ∀ k ∈ ks, j ≠ k → (block j).Disjoint (block k)) :
    ∃ js : List Nat, js.Nodup ∧ (∀ j ∈ js, j ∈ ks) ∧ xs = js.flatMap block := by
  induction hl : xs.length using Nat.strong_induction_on generalizing xs
  case h n hi =>
    subst hl
    cases xs
    case nil => exact ⟨[], nodup_nil, by simp, rfl⟩
    case cons x xs =>
      obtain ⟨k, hk, hx, hb⟩ := h x (.head _)
      obtain ⟨ys, hs⟩ := hb.eq_append_of_head hn hx
      rw [hs] at hn h hi ⊢
      obtain ⟨-, hn', hdis⟩ := nodup_append'.mp hn
      have hlt : ys.length < (block k ++ ys).length := by
        rw [length_append]
        exact Nat.lt_add_of_pos_left (length_pos_of_mem hx)
      have hys (y) (hy : y ∈ ys) : ∃ j ∈ ks, y ∈ block j ∧ block j <:+: ys := by
        obtain ⟨j, hj, hy', hb⟩ := h y (mem_append_right _ hy)
        have hjk : j ≠ k := by
          rintro rfl
          exact hdis hy' hy
        exact ⟨j, hj, hy', hb.of_append (ne_nil_of_mem hy') (hd j hj k hk hjk)⟩
      obtain ⟨js, hj, hks, rfl⟩ := hi _ hlt hn' hys rfl
      refine ⟨k :: js, nodup_cons.mpr ⟨fun hkj => ?_, hj⟩, forall_mem_cons.mpr ⟨hk, hks⟩, rfl⟩
      exact hdis hx (mem_flatMap.mpr ⟨k, hkj, hx⟩)

end List

-- Positions of the elements of a sublist in a strictly sorted list.
namespace List

variable {α : Type u} [LinearOrder α] {l₁ l₂ : List α} {a b : α} {i j : Nat}

theorem Pairwise.le_of_getElem? (h : l₁.Pairwise (· < ·)) (hij : i ≤ j)
    (ha : l₁[i]? = some a) (hb : l₁[j]? = some b) : a ≤ b := by
  rcases hij.eq_or_lt with rfl | hij
  · exact le_of_eq <| Option.some.inj (ha.symm.trans hb)
  · obtain ⟨hi, rfl⟩ := List.getElem?_eq_some_iff.mp ha
    obtain ⟨hj, rfl⟩ := List.getElem?_eq_some_iff.mp hb
    exact le_of_lt <| List.pairwise_iff_getElem.mp h i j hi hj hij

theorem Sublist.getElem?_le (h : l₁ <+ l₂) (hs : l₂.Pairwise (· < ·))
    (h₁ : l₁[i]? = some a) (h₂ : l₂[i]? = some b) : b ≤ a := by
  induction h generalizing i b
  case slnil => simp at h₁
  case cons l₁ l₂ c h hi =>
    have ⟨hc, hs⟩ := pairwise_cons.mp hs
    cases i
    case zero =>
      simp only [getElem?_cons_zero, Option.some.injEq] at h₂
      exact h₂ ▸ le_of_lt (hc a <| h.subset <| mem_of_getElem? h₁)
    case succ i =>
      have hl := (getElem?_eq_some_iff.mp h₁).1.trans_le h.length_le
      rw [getElem?_cons_succ] at h₂
      calc
        b ≤ l₂[i + 1] := hs.le_of_getElem? (Nat.le_succ i) h₂ (getElem?_eq_getElem hl)
        _ ≤ a         := hi hs h₁ (getElem?_eq_getElem hl)
  case cons_cons l₁ l₂ c h hi =>
    cases i
    case zero   => simp_all
    case succ i => exact hi (pairwise_cons.mp hs).2 (by simpa using h₁) (by simpa using h₂)

theorem Sublist.le_getElem? (h : l₁ <+ l₂) (hs : l₂.Pairwise (· < ·))
    (h₁ : l₁[j]? = some a) (h₂ : l₂[l₂.length - l₁.length + j]? = some b) : a ≤ b := by
  induction h generalizing j b
  case slnil => simp at h₁
  case cons l₁ l₂ c h hi =>
    have hl := h.length_le
    rw [length_cons, Nat.sub_add_comm hl, Nat.add_right_comm, getElem?_cons_succ] at h₂
    exact hi (pairwise_cons.mp hs).2 h₁ h₂
  case cons_cons l₁ l₂ c h hi =>
    rw [length_cons, length_cons, Nat.add_sub_add_right] at h₂
    cases j
    case zero =>
      rw [getElem?_cons_zero, Option.some.injEq] at h₁
      exact hs.le_of_getElem? (Nat.zero_le _) (by simpa using h₁) h₂
    case succ j =>
      rw [←Nat.add_assoc, getElem?_cons_succ] at h₂
      exact hi (pairwise_cons.mp hs).2 (by simpa using h₁) h₂

end List

-- Lists as sequences of groups of equal size.
namespace List

variable {α : Type*} {xs ys xs' ys' : List α} {g i n : Nat}

def group (g : Nat) (xs : List α) (i : Nat) : List α :=
  (xs.drop (i * g)).take g

theorem group_zero (xs : List α) : group g xs 0 = xs.take g := by
  simp [group]

theorem group_succ (xs : List α) : group g xs (i + 1) = group g (xs.drop g) i := by
  rw [group, group, drop_drop, Nat.succ_mul, Nat.add_comm g]

theorem group_zero_append (h : xs.length = g) : group g (xs ++ ys) 0 = xs := by
  rw [group_zero, take_left' h]

theorem group_succ_append (h : xs.length = g) : group g (xs ++ ys) (i + 1) = group g ys i := by
  rw [group_succ, drop_left' h]

theorem getElem?_group (hi : i < g) : (group g xs n)[i]? = xs[n * g + i]? := by
  rw [group, getElem?_take_of_lt hi, getElem?_drop]

theorem group_map (f : α → β) : group g (xs.map f) i = (group g xs i).map f := by
  rw [group, group, map_take, map_drop]

theorem group_flatMap {f : β → List α} {bs : List β} (h : ∀ b ∈ bs, (f b).length = g) :
    group g (bs.flatMap f) i = (bs[i]?.map f).getD [] := by
  induction bs generalizing i
  case nil => simp [group]
  case cons b bs hi =>
    have hb := h b (.head _)
    rw [flatMap_cons]
    cases i
    case zero   => exact group_zero_append hb
    case succ i => exact (group_succ_append hb).trans (hi fun b hb => h b (.tail _ hb))

-- A list is determined by its groups.
theorem eq_of_group_eq (hg : 0 < g) (h : ∀ i, group g xs i = group g ys i) : xs = ys := by
  apply ext_getElem?
  intro k
  have hk : k / g * g + k % g = k := by
    rw [Nat.mul_comm]
    exact Nat.div_add_mod k g
  have hm := Nat.mod_lt k hg
  calc xs[k]?
    _ = (group g xs (k / g))[k % g]? := by rw [getElem?_group hm, hk]
    _ = (group g ys (k / g))[k % g]? := by rw [h]
    _ = ys[k]?                       := by rw [getElem?_group hm, hk]

-- Reordering the elements within the groups reorders what is computed of them and of their group.
theorem mapIdx_perm_of_group {f : Nat → α → β} (hg : 0 < g) (hl : xs.length = ys.length)
    (h : ∀ i, (group g xs i).Perm (group g ys i)) :
    (xs.mapIdx fun k x => f (k / g) x).Perm (ys.mapIdx fun k y => f (k / g) y) := by
  have hs (f : Nat → α → β) (xs : List α) : xs.mapIdx (fun k x => f (k / g) x) =
      (xs.take g).map (f 0) ++ (xs.drop g).mapIdx fun k x => f (k / g + 1) x := by
    refine ext_getElem? fun k => ?_
    rw [getElem?_mapIdx, getElem?_append, length_map, length_take]
    split_ifs with hk
    case pos =>
      rw [getElem?_map, getElem?_take_of_lt (by omega), Nat.div_eq_of_lt (by omega)]
    case neg =>
      by_cases hx : k < xs.length
      case pos =>
        have hk : g ≤ k := by omega
        rw [getElem?_mapIdx, getElem?_drop, Nat.min_eq_left (by omega), Nat.add_sub_cancel' hk,
          ← Nat.add_div_right _ hg, Nat.sub_add_cancel hk]
      case neg => rw [getElem?_eq_none (by omega), getElem?_eq_none (by simp; omega)]; rfl
  induction hn : xs.length using Nat.strong_induction_on generalizing xs ys f
  case h n hi =>
    rw [hs f xs, hs f ys]
    have h₀ := h 0
    rw [group_zero, group_zero] at h₀
    refine .append (h₀.map _) ?_
    obtain rfl | hx := eq_or_ne xs []
    case inl =>
      obtain rfl := length_eq_zero_iff.mp hl.symm
      exact .refl _
    case inr =>
      have := length_pos_iff.mpr hx
      apply @hi (xs.drop g).length (by rw [length_drop]; omega) (xs.drop g) (ys.drop g) (fun i x => f (i + 1) x)
        (by rw [length_drop, length_drop, hl]) ?_ rfl
      intro i
      rw [← group_succ, ← group_succ]
      exact h (i + 1)

section Sorted

variable [LinearOrder α]

-- The groups of `ys` are the groups of `xs` in ascending order.
structure GroupsSorted (g : Nat) (xs ys : List α) : Prop where
  length : ys.length = xs.length
  perm   : ∀ i, (group g ys i).Perm (group g xs i)
  sorted : ∀ i, (group g ys i).Pairwise (· ≤ ·)

namespace GroupsSorted

-- Reordering the elements within the groups does not change the sorted groups.
theorem unique (h : GroupsSorted g xs ys) (h' : GroupsSorted g xs' ys') (hg : 0 < g)
    (hp : ∀ i, (group g xs i).Perm (group g xs' i)) : ys = ys' := by
  apply eq_of_group_eq hg
  intro i
  have hp := ((h.perm i).trans (hp i)).trans (h'.perm i).symm
  exact hp.eq_of_pairwise (fun _ _ _ _ => le_antisymm) (h.sorted i) (h'.sorted i)

theorem refl (h : ∀ i, (group g xs i).Pairwise (· ≤ ·)) : GroupsSorted g xs xs where
  length := rfl
  perm _ := .refl _
  sorted := h

theorem one : GroupsSorted 1 xs xs := by
  apply refl
  intro i
  have hl : (group 1 xs i).length ≤ 1 := length_take_le ..
  cases hn : group 1 xs i
  case nil => exact .nil
  case cons x ys =>
    rw [hn, length_cons] at hl
    obtain rfl := length_eq_zero_iff.mp (Nat.le_zero.mp (Nat.le_of_succ_le_succ hl))
    exact pairwise_singleton ..

theorem map [LinearOrder β] {f : α → β} (h : GroupsSorted g xs ys) (hf : Monotone f) :
    GroupsSorted g (xs.map f) (ys.map f) where
  length := by rw [length_map, length_map, h.length]
  perm i := by
    rw [group_map, group_map]
    exact (h.perm i).map f
  sorted i := by
    rw [group_map]
    exact pairwise_map.mpr ((h.sorted i).imp fun h => hf h)

theorem nil : GroupsSorted g ([] : List α) [] :=
  refl fun i => by simp [group]

theorem append (hx : xs.length = g) (hy : ys.length = g) (hp : ys.Perm xs) (hs : ys.Pairwise (· ≤ ·))
    (h : GroupsSorted g xs' ys') : GroupsSorted g (xs ++ xs') (ys ++ ys') where
  length := by rw [length_append, length_append, hx, hy, h.length]
  perm i := by
    cases i
    case zero   => rwa [group_zero_append hx, group_zero_append hy]
    case succ i =>
      rw [group_succ_append hx, group_succ_append hy]
      exact h.perm i
  sorted i := by
    cases i
    case zero   => rwa [group_zero_append hy]
    case succ i =>
      rw [group_succ_append hy]
      exact h.sorted i

end GroupsSorted

end Sorted
end List
