import Mathlib.Data.List.Sort
import Mathlib.Data.List.SplitBy
import XlaModel.Lib.PermutedView

-- The maximal runs of consecutive ascending numbers of a list.
namespace Runs

variable {α : Type} {xs ys g g' : List Nat} {gs : List (List Nat)} {n a x y s : Nat}

def runs (xs : List Nat) : List (List Nat) :=
  xs.splitBy fun a b => b == a + 1

theorem flatten_runs : (runs xs).flatten = xs :=
  List.flatten_splitBy ..

theorem ne_nil_of_mem_runs (h : g ∈ runs xs) : g ≠ [] :=
  List.ne_nil_of_mem_splitBy h

theorem runs_cons_cons : runs (x :: y :: xs) =
    if y = x + 1 then (x :: (runs (y :: xs)).headD []) :: (runs (y :: xs)).tail else [x] :: runs (y :: xs) := by
  split_ifs with h
  case pos =>
    obtain ⟨hf, hn, hc, hb⟩ := List.splitBy_eq_iff.mp (rfl : runs (y :: xs) = runs (y :: xs))
    match hr : runs (y :: xs) with
    | []            => simp [hr] at hf
    | [] :: gs      => simp [hr] at hn
    | (z :: g) :: gs =>
      rw [hr] at hf hn hc hb
      obtain ⟨rfl, -⟩ : y = z ∧ xs = g ++ gs.flatten := by simpa using hf
      refine List.splitBy_eq_iff.mpr ⟨?flatten, ?nonempty, ?chains, ?boundaries⟩
      case flatten => rw [hf]; simp
      case nonempty => simpa using hn
      case chains =>
        simp only [List.headD_cons, List.tail_cons, List.forall_mem_cons] at hc ⊢
        exact ⟨by simpa [h] using hc.1, hc.2⟩
      case boundaries =>
        cases gs
        case nil         => simp
        case cons g' gs' => simpa using hb
  case neg =>
    exact List.splitBy_append_cons (l := [x]) xs (by simpa using h)

theorem eq_range'_of_isChain (h : g.IsChain fun a b => b = a + 1) : g = List.range' (g.headD 0) g.length := by
  induction g
  case nil => rfl
  case cons a g hi =>
    cases g
    case nil => rfl
    case cons b g =>
      obtain ⟨rfl, hg⟩ := List.isChain_cons_cons.mp h
      have he := hi hg
      rw [List.headD_cons, List.length_cons, List.range'_succ]
      exact congrArg (a :: ·) he

theorem eq_range'_of_mem_runs (h : g ∈ runs xs) : g = List.range' (g.headD 0) g.length :=
  eq_range'_of_isChain <| (List.isChain_of_mem_splitBy h).imp fun _ _ h => by simpa using h

theorem mem_run (h : g ∈ runs xs) : x ∈ g ↔ g.headD 0 ≤ x ∧ x < g.headD 0 + g.length := by
  conv_lhs => rw [eq_range'_of_mem_runs h]
  exact List.mem_range'_1

theorem headD_mem (h : g ∈ runs xs) : g.headD 0 ∈ xs := by
  have hp : 0 < g.length := List.length_pos_iff.mpr (ne_nil_of_mem_runs h)
  rw [← @flatten_runs xs]
  exact List.mem_flatten.mpr ⟨g, h, (mem_run h).mpr ⟨Nat.le_refl _, Nat.lt_add_of_pos_right hp⟩⟩

-- Neighbouring runs are not consecutive.
theorem isChain_runs : (runs xs).IsChain fun g g' => g'.headD 0 ≠ g.headD 0 + g.length := by
  refine (List.isChain_getLast_head_splitBy _ xs).imp_of_mem_imp fun g g' hg hg' => ?_
  rintro ⟨hn, hn', hb⟩ he
  have hp : 0 < g.length := List.length_pos_iff.mpr hn
  have hl : g.getLast hn = g.headD 0 + g.length - 1 := by
    have := congrArg List.getLast? (eq_range'_of_mem_runs hg)
    rw [List.getLast?_eq_some_getLast hn, List.getLast?_range', if_neg hp.ne'] at this
    simpa using this
  have hh : g'.head hn' = g'.headD 0 := by
    cases g'
    case nil  => exact absurd rfl hn'
    case cons => rfl
  rw [hl, hh, he] at hb
  simp only [beq_eq_false_iff_ne] at hb
  omega

section Sorted

-- The runs in ascending order.
def sortedRuns (xs : List Nat) : List (List Nat) :=
  (runs xs).mergeSort fun g g' => g.headD 0 ≤ g'.headD 0

theorem sortedRuns_perm : (sortedRuns xs).Perm (runs xs) :=
  List.mergeSort_perm ..

theorem mem_sortedRuns : g ∈ sortedRuns xs ↔ g ∈ runs xs :=
  sortedRuns_perm.mem_iff

theorem flatten_sortedRuns_perm : (sortedRuns xs).flatten.Perm xs := by
  conv_rhs => rw [← @flatten_runs xs]
  exact sortedRuns_perm.flatten

theorem sortedRuns_pairwise (h : xs.Nodup) :
    (sortedRuns xs).Pairwise fun g g' => g.headD 0 + g.length ≤ g'.headD 0 := by
  have hs : (sortedRuns xs).Pairwise fun g g' => g.headD 0 ≤ g'.headD 0 := by
    rw [sortedRuns]
    have := @List.pairwise_mergeSort _ (fun g g' : List Nat => decide (g.headD 0 ≤ g'.headD 0))
      (fun a b c => by simpa using Nat.le_trans) (fun a b => by simpa using Nat.le_total _ _) (runs xs)
    exact this.imp fun h => of_decide_eq_true h
  have hd := (List.nodup_flatten.mp (flatten_sortedRuns_perm.nodup_iff.mpr h)).2
  refine (hs.and hd).imp_of_mem fun {g g'} hg hg' hgg => ?_
  obtain ⟨hle, hd⟩ := hgg
  rw [mem_sortedRuns] at hg hg'
  have hp : 0 < g'.length := List.length_pos_iff.mpr (ne_nil_of_mem_runs hg')
  have hn : ¬g'.headD 0 ∈ g := fun hm => hd hm ((mem_run hg').mpr (by omega))
  rw [mem_run hg] at hn
  omega

theorem flatten_sortedRuns (h : xs.Perm (List.range n)) : (sortedRuns xs).flatten = List.range n := by
  refine @List.Perm.eq_of_pairwise _ (· < ·) _ _ (fun a b _ _ h₁ h₂ => absurd h₁ h₂.asymm) ?_ List.pairwise_lt_range
    (flatten_sortedRuns_perm.trans h)
  refine List.pairwise_flatten.mpr ⟨fun g hg => ?group, ?groups⟩
  case group =>
    rw [eq_range'_of_mem_runs (mem_sortedRuns.mp hg)]
    exact List.pairwise_lt_range' ..
  case groups =>
    refine (sortedRuns_pairwise (h.nodup_iff.mpr List.nodup_range)).imp_of_mem fun hg hg' hgg x hx y hy => ?_
    have := (mem_run (mem_sortedRuns.mp hg)).mp hx
    have := (mem_run (mem_sortedRuns.mp hg')).mp hy
    omega

theorem map_head_sortedRuns (h : xs.Perm (List.range n)) :
    (sortedRuns xs).map (·.headD 0) = (List.range n).filter (· ∈ (runs xs).map (·.headD 0)) := by
  have hn : xs.Nodup := h.nodup_iff.mpr List.nodup_range
  have hs : ((sortedRuns xs).map (·.headD 0)).Pairwise (· < ·) := by
    refine List.pairwise_map.mpr ((sortedRuns_pairwise hn).imp_of_mem fun hg _ hgg => ?_)
    have := List.length_pos_iff.mpr (ne_nil_of_mem_runs (mem_sortedRuns.mp hg))
    omega
  have hf : ((List.range n).filter (· ∈ (runs xs).map (·.headD 0))).Pairwise (· < ·) := List.pairwise_lt_range.filter _
  refine List.Perm.eq_of_pairwise (fun a b _ _ h₁ h₂ => absurd h₁ h₂.asymm) hs hf ?_
  refine (List.perm_ext_iff_of_nodup (hs.imp Nat.ne_of_lt) (hf.imp Nat.ne_of_lt)).mpr fun x => ?_
  rw [(sortedRuns_perm.map _).mem_iff, List.mem_filter, decide_eq_true_eq, List.mem_range, iff_and_self]
  intro hx
  obtain ⟨g, hg, rfl⟩ := List.mem_map.mp hx
  exact List.mem_range.mp (h.mem_iff.mp (headD_mem hg))

end Sorted

section Order

theorem map_idxOf_self [BEq α] [LawfulBEq α] {xs : List α} (h : xs.Nodup) : xs.map xs.idxOf = List.range xs.length :=
  List.ext_getElem (by simp) fun i _ _ => by simp [h.idxOf_getElem]

-- The position of each run in the ascending order.
def runOrder (xs : List Nat) : List Nat :=
  (runs xs).map ((sortedRuns xs).idxOf ·)

theorem sortedRuns_nodup (h : xs.Nodup) : (sortedRuns xs).Nodup := by
  refine (sortedRuns_pairwise h).imp_of_mem fun {g g'} hg _ hgg => ?_
  rintro rfl
  have := List.length_pos_iff.mpr (ne_nil_of_mem_runs (mem_sortedRuns.mp hg))
  omega

theorem runOrder_perm (h : xs.Nodup) : (runOrder xs).Perm (List.range (runs xs).length) := by
  have hp : (runOrder xs).Perm ((sortedRuns xs).map ((sortedRuns xs).idxOf ·)) := sortedRuns_perm.symm.map _
  have hm := map_idxOf_self (sortedRuns_nodup h)
  rw [hm, sortedRuns_perm.length_eq] at hp
  exact hp

theorem map_getD_runOrder : (runOrder xs).map ((sortedRuns xs).getD · []) = runs xs := by
  rw [runOrder, List.map_map]
  refine (List.map_congr_left fun g hg => ?_).trans (List.map_id _)
  have : (sortedRuns xs).idxOf g < (sortedRuns xs).length := List.idxOf_lt_length_of_mem (mem_sortedRuns.mpr hg)
  simp [this]

theorem idxOf_filter_range {p : Nat → Bool} (hx : x < n) (hp : p x) :
    ((List.range n).filter p).idxOf x = (List.range x).countP p := by
  obtain ⟨k, rfl⟩ := Nat.exists_eq_add_of_lt hx
  have hn : x ∉ (List.range x).filter p := fun hm => by simpa using List.mem_of_mem_filter hm
  rw [Nat.add_assoc, List.range_add, List.range_succ_eq_map, List.filter_append, List.idxOf_append_of_notMem hn,
    List.map_cons, Nat.add_zero, List.filter_cons_of_pos hp, List.idxOf_cons_self, List.countP_eq_length_filter,
    Nat.add_zero]

-- The position of a run is the number of runs that start before it.
theorem runOrder_eq (h : xs.Perm (List.range n)) :
    runOrder xs = (runs xs).map fun g => (List.range (g.headD 0)).countP (· ∈ (runs xs).map (·.headD 0)) := by
  refine List.map_congr_left fun g hg => ?_
  have hi : (sortedRuns xs).idxOf g < (sortedRuns xs).length := List.idxOf_lt_length_of_mem (mem_sortedRuns.mpr hg)
  have hm := map_head_sortedRuns h
  have hg' : g.headD 0 ∈ (List.range n).filter (· ∈ (runs xs).map (·.headD 0)) := by
    rw [← hm]
    exact List.mem_map_of_mem (mem_sortedRuns.mpr hg)
  obtain ⟨hn, hp⟩ := List.mem_filter.mp hg'
  have hd : ((sortedRuns xs).map (·.headD 0)).Nodup := hm ▸ List.nodup_range.filter _
  rw [← idxOf_filter_range (List.mem_range.mp hn) hp, ← hm]
  have := hd.idxOf_getElem ((sortedRuns xs).idxOf g) (by simpa using hi)
  simpa using this.symm

theorem isChain_of_flatten (h : gs.flatten = List.range' s n) (hn : ∀ g ∈ gs, g ≠ []) :
    gs.IsChain fun g g' => g'.headD 0 = g.headD 0 + g.length := by
  induction gs generalizing s n
  case nil => exact .nil
  case cons g gs hi =>
    rw [List.flatten_cons] at h
    obtain ⟨k, -, hg, hgs⟩ := List.range'_eq_append_iff.mp h.symm
    cases gs
    case nil => exact .singleton _
    case cons g' gs =>
      have hc := hi hgs fun c hc => hn c (.tail _ hc)
      rw [List.flatten_cons] at hgs
      obtain ⟨k', -, hg', -⟩ := List.range'_eq_append_iff.mp hgs.symm
      have hne := hn g (.head _)
      have hne' := hn g' (.tail _ (.head _))
      refine .cons_cons ?_ hc
      subst hg hg'
      cases k <;> cases k' <;> simp_all [List.range'_succ]

-- No two neighbouring runs are neighbours in the ascending order.
theorem isChain_runOrder (h : xs.Perm (List.range n)) : (runOrder xs).IsChain fun p q => q ≠ p + 1 := by
  have hf := flatten_sortedRuns h
  rw [List.range_eq_range'] at hf
  have hs := isChain_of_flatten hf fun g hg => ne_nil_of_mem_runs (mem_sortedRuns.mp hg)
  refine (List.isChain_map _).mpr (isChain_runs.imp_of_mem_imp fun g g' hg hg' hne he => hne ?_)
  have hi : (sortedRuns xs).idxOf g < (sortedRuns xs).length := List.idxOf_lt_length_of_mem (mem_sortedRuns.mpr hg)
  have hi' : (sortedRuns xs).idxOf g' < (sortedRuns xs).length := List.idxOf_lt_length_of_mem (mem_sortedRuns.mpr hg')
  have := List.isChain_iff_getElem.mp hs ((sortedRuns xs).idxOf g) (he ▸ hi')
  simpa [← he] using this

end Order

end Runs
