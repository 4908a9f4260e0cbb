import XlaModel.Shape.Theorems.ForEachIndex

namespace Shape

open Fuel ForEachIndexInternalParallel ForEachState Odometer RowMajor View

variable {τ : Type} {shape : Shape τ} {base count incr : List Int} {xs : List Int} {d n q : Nat}

section Partition

variable {p : List (Nat × Nat)} {j : Nat}

-- The adjusted base and count in a dimension depend on whether it is partitioned.
theorem adjust_foldl (hn : n ≤ shape.rank) :
    let r := (List.range n).foldl (adjust shape count incr p) (base, count)
    r.1.length = base.length ∧ r.2.length = count.length ∧
    (base.length = shape.rank → count.length = shape.rank → ∀ j < shape.rank,
      r.1.getD (shape.major j) 0 =
        base.getD (shape.major j) 0 + (if j < n then (p.getD j (0, 0)).1 else 0 : Nat) * incr.getD (shape.major j) 0 ∧
      r.2.getD (shape.major j) 0 = if j < n then
        min (count.getD (shape.major j) 0 - (p.getD j (0, 0)).1 * incr.getD (shape.major j) 0)
          ((p.getD j (0, 0)).2 * incr.getD (shape.major j) 0)
      else count.getD (shape.major j) 0) := by
  induction n
  case zero => simp
  case succ n hi =>
    obtain ⟨h₁, h₂, h⟩ := hi (Nat.le_of_succ_le hn)
    rw [List.range_succ, List.foldl_append, List.foldl_cons, List.foldl_nil]
    generalize (List.range n).foldl (adjust shape count incr p) (base, count) = r at *
    obtain ⟨partitionBase, partitionCount⟩ := r
    refine ⟨by simpa [adjust] using h₁, by simpa [adjust] using h₂, fun hb hc j hj => ?_⟩
    obtain ⟨hbj, hcj⟩ := h hb hc j hj
    have hlt := major_lt hj
    by_cases hjn : j = n
    case pos =>
      subst hjn
      have hb' : shape.major j < partitionBase.length := by
        rw [h₁, hb]
        exact hlt
      have hc' : shape.major j < partitionCount.length := by
        rw [h₂, hc]
        exact hlt
      rw [if_neg (Nat.lt_irrefl j), Nat.cast_zero, Int.zero_mul, Int.add_zero] at hbj
      simp only [adjust, hbj, List.getD_eq_getElem?_getD, List.getElem?_set_self hb', List.getElem?_set_self hc',
        Option.getD_some, if_pos (Nat.lt_succ_self j), and_self]
    case neg =>
      have hne : shape.major n ≠ shape.major j := fun he => hjn (major_inj hj hn he.symm)
      have hiff : j < n + 1 ↔ j < n := by omega
      simp only [hiff, adjust, List.getD_eq_getElem?_getD, List.getElem?_set_ne hne] at hbj hcj ⊢
      exact ⟨hbj, hcj⟩

variable (hb : base.length = shape.rank) (hc : count.length = shape.rank) (hcp : ∀ d < shape.rank, 0 < count.getD d 0)
  (hip : ∀ d < shape.rank, 0 < incr.getD d 0)

-- The index at the given numbers of steps.
def indexAt (base incr : List Int) (ws : List Nat) : List Int :=
  ws.mapIdx fun d w => stepTo base incr d w

include hip in
theorem indexAt_inj {ws vs : List Nat} (hw : ws.length = shape.rank) (h : indexAt base incr ws = indexAt base incr vs) :
    ws = vs := by
  have hl : ws.length = vs.length := by simpa [indexAt] using congrArg List.length h
  refine List.ext_getElem hl fun d h₁ h₂ => ?_
  have hd := congrArg (·[d]?) h
  have hne := (hip d (hw ▸ h₁)).ne'
  simp only [indexAt, List.getElem?_mapIdx, List.getElem?_eq_getElem h₁, List.getElem?_eq_getElem h₂, Option.map_some,
    Option.some_inj] at hd
  exact Nat.cast_injective (mul_right_cancel₀ hne (Int.add_left_cancel hd))

theorem forall_stepTo_iff {P : Nat → Nat → Prop} : (xs.length = shape.rank ∧
      ∀ d < shape.rank, ∃ q, P d q ∧ xs[d]? = some (stepTo base incr d q)) ↔
    ∃ ws : List Nat, ws.length = shape.rank ∧ (∀ d < shape.rank, P d (ws.getD d 0)) ∧ indexAt base incr ws = xs := by
  constructor
  case mp =>
    rintro ⟨hl, h⟩
    choose! q hq hx using h
    refine ⟨(List.range shape.rank).map q, by simp, fun d hd => by simpa [hd] using hq d hd, ?_⟩
    refine List.ext_getElem? fun d => ?_
    by_cases hd : d < shape.rank
    case pos => simp [indexAt, hd, hx d hd]
    case neg => simp [indexAt, hd, hl]
  case mpr =>
    rintro ⟨ws, hl, hp, rfl⟩
    refine ⟨by simpa [indexAt] using hl, fun d hd => ⟨_, hp d hd, ?_⟩⟩
    simp [indexAt, hl, hd]

theorem workShape_dimension (hd : d < shape.rank) : (workShape shape count incr).dimension d = steps count incr d := by
  have hd : d < shape.dimensions.length := hd
  simp [dimension, workShape, workDims, steps, hd]

theorem inBounds_workDims {ws : List Nat} : InBounds (workShape shape count incr).dimensions ws ↔
    ws.length = shape.rank ∧ ∀ d < shape.rank, ws.getD d 0 < steps count incr d := by
  rw [InBounds, List.forall₂_iff_get]
  simp only [workShape, workDims, List.length_map, List.length_range]
  refine and_congr_right fun hl => ⟨fun h d hd => ?mp, fun h d h₁ h₂ => ?mpr⟩
  case mp =>
    have h₁ : d < ws.length := hl ▸ hd
    simpa [h₁, steps] using h d h₁ hd
  case mpr =>
    have := h d h₂
    simpa [h₁, steps] using this

include hb in
theorem mem_visited_iff : xs ∈ visited shape base count incr ↔
    ∃ ws, InBounds (workShape shape count incr).dimensions ws ∧ indexAt base incr ws = xs := by
  rw [mem_visited hb, forall_stepTo_iff]
  simp only [inBounds_workDims, and_assoc]

-- The partition is a nonempty part of the work in each of its dimensions.
def InWork (shape : Shape τ) (count incr : List Int) (p : List (Nat × Nat)) : Prop :=
  ∀ j < p.length,
    0 < (p.getD j (0, 0)).2 ∧ (p.getD j (0, 0)).1 + (p.getD j (0, 0)).2 ≤ steps count incr (shape.major j)

-- The indices of the work that are in a partition are visited once.
structure VisitsPart (shape : Shape τ) (base count incr : List Int) (p : List (Nat × Nat)) (v : List (List Int)) : Prop where
  nodup : v.Nodup
  mem   : ∀ xs, xs ∈ v ↔ ∃ ws,
    (InBounds (workShape shape count incr).dimensions ws ∧ Contains (workShape shape count incr) p ws) ∧
      indexAt base incr ws = xs

section Adjusted

variable {partitionBase partitionCount : List Int}
  (hle : p.length ≤ shape.rank)
  (hp : InWork shape count incr p)
  (hr : (List.range p.length).foldl (adjust shape count incr p) (base, count) = (partitionBase, partitionCount))
include hb hle hr

theorem partitionBase_length : partitionBase.length = shape.rank := by
  have := (@adjust_foldl _ shape base count incr p.length p hle).1
  rw [hr] at this
  exact this.trans hb

include hc

theorem partitionBase_getD (hj : j < shape.rank) : stepTo partitionBase incr (shape.major j) q =
    stepTo base incr (shape.major j) ((if j < p.length then (p.getD j (0, 0)).1 else 0) + q) := by
  have := ((@adjust_foldl _ shape base count incr p.length p hle).2.2 hb hc j hj).1
  rw [hr] at this
  rw [stepTo, stepTo, this]
  push_cast
  ring

include hcp hip hp

theorem partitionCount_pos (hj : j < shape.rank) : 0 < partitionCount.getD (shape.major j) 0 := by
  have := ((@adjust_foldl _ shape base count incr p.length p hle).2.2 hb hc j hj).2
  rw [hr] at this
  have hcj := hcp _ (major_lt hj)
  have hij := hip _ (major_lt hj)
  rw [this]
  split_ifs with hlt
  case neg => exact hcj
  case pos =>
    obtain ⟨hs, hs'⟩ := hp j hlt
    have hst := (lt_ceilOfRatio hcj.le hij).mp (by rw [← steps]; omega : (p.getD j (0, 0)).1 < _)
    exact lt_min (Int.sub_pos_of_lt hst) (Int.mul_pos (by exact_mod_cast hs) hij)

theorem steps_partitionCount (hj : j < shape.rank) : steps partitionCount incr (shape.major j) =
    if j < p.length then (p.getD j (0, 0)).2 else steps count incr (shape.major j) := by
  have hpos := partitionCount_pos hb hc hcp hip hle hp hr hj
  have := ((@adjust_foldl _ shape base count incr p.length p hle).2.2 hb hc j hj).2
  rw [hr] at this
  have hcj := hcp _ (major_lt hj)
  have hij := hip _ (major_lt hj)
  rw [this] at hpos
  split_ifs at this hpos ⊢ with hlt
  case neg => rw [steps, steps, this]
  case pos =>
    obtain ⟨hs, hs'⟩ := hp j hlt
    refine eq_of_forall_lt_iff fun q => ?_
    rw [steps, this, lt_ceilOfRatio hpos.le hij, lt_min_iff, mul_lt_mul_iff_left₀ hij, Nat.cast_lt]
    refine and_iff_right_of_imp fun hq => ?_
    have hst := (lt_ceilOfRatio hcj.le hij).mp (by rw [← steps]; omega : (p.getD j (0, 0)).1 + q < _)
    push_cast at hst
    linarith

-- The partition visits the indices whose numbers of steps are in it.
theorem mem_visited_partition : xs ∈ visited shape partitionBase partitionCount incr ↔
    ∃ ws, (InBounds (workShape shape count incr).dimensions ws ∧ Contains (workShape shape count incr) p ws) ∧
      indexAt base incr ws = xs := by
  have hd : ∀ d < shape.rank,
      (∃ q < steps partitionCount incr d, xs[d]? = some (stepTo partitionBase incr d q)) ↔
      ∃ w, (w < steps count incr d ∧ ∀ j < p.length, shape.major j = d →
          (p.getD j (0, 0)).1 ≤ w ∧ w < (p.getD j (0, 0)).1 + (p.getD j (0, 0)).2) ∧
        xs[d]? = some (stepTo base incr d w) := by
    refine forall_major.mpr fun j hj => ?_
    simp only [partitionBase_getD hb hc hle hr hj, steps_partitionCount hb hc hcp hip hle hp hr hj]
    have hu (i : Nat) (hi : i < p.length) (he : shape.major i = shape.major j) : i = j :=
      major_inj (hi.trans_le hle) hj he
    split_ifs with hlt
    case pos =>
      obtain ⟨hs, hs'⟩ := hp j hlt
      constructor
      case mp =>
        rintro ⟨q, hq, hx⟩
        refine ⟨_, ⟨by omega, fun i hi he => ?_⟩, hx⟩
        obtain rfl := hu i hi he
        omega
      case mpr =>
        rintro ⟨w, ⟨-, hw⟩, hx⟩
        have := hw j hlt rfl
        exact ⟨w - (p.getD j (0, 0)).1, by omega, by rwa [Nat.add_sub_cancel' this.1]⟩
    case neg =>
      simp only [Nat.zero_add]
      refine exists_congr fun w => and_congr_left fun _ => (and_iff_left fun i hi he => ?_).symm
      exact absurd (hu i hi he ▸ hi) hlt
  rw [mem_visited (partitionBase_length hb hle hr), forall₂_congr hd, forall_stepTo_iff]
  simp only [inBounds_workDims, contains_iff]
  refine exists_congr fun ws => ?_
  constructor
  case mp =>
    rintro ⟨hl, h, hx⟩
    exact ⟨⟨⟨hl, fun d hd => (h d hd).1⟩, fun j hj => (h _ (major_lt (hj.trans_le hle))).2 j hj rfl⟩, hx⟩
  case mpr =>
    rintro ⟨⟨⟨hl, h⟩, hw⟩, hx⟩
    refine ⟨hl, fun d hd => ⟨h d hd, ?_⟩, hx⟩
    rintro j hj rfl
    exact hw j hj

end Adjusted

end Partition

section Main

-- The vectors have an entry for each dimension, and the counts and increments are positive. The sums of
-- the loops and the size of the work do not exceed an `int64_t`, as is the case within a shape.
structure Iterable (shape : Shape τ) (base count incr : List Int) : Prop where
  length_base  : base.length = shape.rank
  length_count : count.length = shape.rank
  length_incr  : incr.length = shape.rank
  count_pos    : ∀ c ∈ count, 0 < c
  incr_pos     : ∀ i ∈ incr, 0 < i
  sums_fit     : ∀ d < shape.rank, max (base.getD d 0) 0 + count.getD d 0 + incr.getD d 0 ≤ int64Max
  work_fits    : (workShape shape count incr).elementsIn ≤ int64Max

theorem ForEachState.make_eq (hb : base.length = shape.rank) (hc : count.length = shape.rank)
    (hi : incr.length = shape.rank) :
    ForEachState.make shape base count incr = some ⟨shape, base, count, incr, base⟩ := by
  have hb' : shape.dimensions.length = base.length := hb.symm
  simp [ForEachState.make, hb', hi.trans hb.symm, hc.trans hb.symm]

namespace Iterable

variable (h : Iterable shape base count incr)
include h

theorem count_getD (d : Nat) (hd : d < shape.rank) : 0 < count.getD d 0 := by
  have hd : d < count.length := h.length_count ▸ hd
  rw [List.getD_eq_getElem _ _ hd]
  exact h.count_pos _ (List.getElem_mem hd)

theorem incr_getD (d : Nat) (hd : d < shape.rank) : 0 < incr.getD d 0 := by
  have hd : d < incr.length := h.length_incr ▸ hd
  rw [List.getD_eq_getElem _ _ hd]
  exact h.incr_pos _ (List.getElem_mem hd)

theorem make_eq : ForEachState.make shape base count incr = some ⟨shape, base, count, incr, base⟩ :=
  ForEachState.make_eq h.length_base h.length_count h.length_incr

theorem forEachIndexInternal : Returns (fun fuel => forEachIndexInternal fuel shape base count incr fun _ => true)
    (if isZeroElementArray shape then [] else visited shape base count incr) := by
  simp only [Shape.forEachIndexInternal, h.make_eq, Option.bind_eq_bind, Option.bind_some]
  split_ifs
  case pos => exact .of_forall fun _ => rfl
  case neg => exact visit_base h.length_base h.count_getD h.incr_getD

theorem workShape_pos (d : Nat) : 0 < (workShape shape count incr).dimension d := by
  by_cases hd : d < shape.rank
  case pos =>
    rw [workShape_dimension hd, steps, lt_ceilOfRatio (h.count_getD d hd).le (h.incr_getD d hd), Nat.cast_zero,
      Int.zero_mul]
    exact h.count_getD d hd
  case neg =>
    have hd : ¬d < shape.dimensions.length := hd
    simp [dimension, workShape, workDims, hd]

theorem processPartition {p : List (Nat × Nat)} (hle : p.length ≤ shape.rank)
    (hp : InWork shape count incr p) :
    ∃ v, Returns (fun fuel => processPartition fuel shape base count incr p) v ∧ VisitsPart shape base count incr p v := by
  rcases hr : (List.range p.length).foldl (adjust shape count incr p) (base, count) with ⟨partitionBase, partitionCount⟩
  have hb := partitionBase_length h.length_base hle hr
  have hpos : ∀ d < shape.rank, 0 < partitionCount.getD d 0 := forall_major.mpr fun j hj =>
    partitionCount_pos h.length_base h.length_count h.count_getD h.incr_getD hle hp hr hj
  have hc : partitionCount.length = shape.rank := by
    have := (@adjust_foldl _ shape base count incr p.length p hle).2.1
    rw [hr] at this
    exact this.trans h.length_count
  have hm := ForEachState.make_eq hb hc h.length_incr
  refine ⟨visited shape partitionBase partitionCount incr, ?_, visited_nodup hb h.incr_getD, fun xs =>
    mem_visited_partition h.length_base h.length_count h.count_getD h.incr_getD hle hp hr⟩
  simp only [ForEachIndexInternalParallel.processPartition, hr, hm, Option.bind_eq_bind, Option.bind_some]
  exact visit_base hb hpos h.incr_getD

section Partitioned

open ShapePartitionAssigner ShapePartitionIterator

variable {outer counts order : List Nat} {target : Nat} (hf : Feasible (workShape shape count incr) outer target counts)
  (ho : outer <+: shape.minorToMajor.reverse)
include hf ho

theorem processParts {i : Nat} (hi : i < counts.prod) :
    let p := parts (workShape shape count incr) outer counts (digits counts i)
    ∃ v, Returns (fun fuel => ForEachIndexInternalParallel.processPartition fuel shape base count incr p) v ∧
      VisitsPart shape base count incr p v := by
  have hl : (parts (workShape shape count incr) outer counts (digits counts i)).length = counts.length :=
    hf.length_parts hi
  have hle : counts.length ≤ shape.rank := by
    have := ho.length_le
    rw [List.length_reverse, length_eq_of_perm shape.perm] at this
    exact hf.length.trans_le this
  refine h.processPartition (hl.trans_le hle) fun j hj => ?_
  obtain ⟨-, hw⟩ := List.forall₂_iff_get.mp (parts_within hf.forall₂ (digits_inBounds hi))
  have hj' : j < outer.length := hf.length ▸ hl ▸ hj
  have hjr : j < shape.rank := (hl ▸ hj).trans_le hle
  have hm : outer[j] = shape.major j := by
    have := List.getElem_of_eq (hf.map_major ho).symm hj'
    rw [List.getElem_map, List.getElem_range] at this
    exact this
  have := hw j hj hj'
  rw [List.get_eq_getElem, List.get_eq_getElem, hm, workShape_dimension (major_lt hjr)] at this
  simpa [hj] using this

-- The partitions visit every index once, in whatever order they are processed.
theorem visits_perm (hp : order.Perm (List.range counts.prod)) {v : Nat → List (List Int)}
    (hv : ∀ i < counts.prod,
      VisitsPart shape base count incr (parts (workShape shape count incr) outer counts (digits counts i)) (v i)) :
    (order.map v).flatten.Perm (visited shape base count incr) := by
  have hm {i : Nat} (hi : i ∈ order) : i < counts.prod := List.mem_range.mp (hp.mem_iff.mp hi)
  have hnodup : (order.map v).flatten.Nodup := by
    refine List.nodup_flatten.mpr ⟨List.forall_mem_map.mpr fun i hi => (hv i (hm hi)).nodup, List.pairwise_map.mpr ?_⟩
    have hne : order.Pairwise (· ≠ ·) := hp.nodup_iff.mpr List.nodup_range
    refine hne.imp_of_mem fun {i j} hi hj hne xs hxi hxj => hne ?_
    obtain ⟨ws, ⟨hb, hc⟩, rfl⟩ := ((hv i (hm hi)).mem xs).mp hxi
    obtain ⟨ws', ⟨hb', hc'⟩, he⟩ := ((hv j (hm hj)).mem _).mp hxj
    obtain rfl := indexAt_inj h.incr_getD (inBounds_workDims.mp hb').1 he
    exact (hf.existsUnique ho hb).unique ⟨hm hi, hc⟩ ⟨hm hj, hc'⟩
  refine (List.perm_ext_iff_of_nodup hnodup (visited_nodup h.length_base h.incr_getD)).mpr fun xs => ?_
  rw [mem_visited_iff h.length_base, List.mem_flatten]
  constructor
  case mp =>
    rintro ⟨l, hl, hx⟩
    obtain ⟨i, hi, rfl⟩ := List.mem_map.mp hl
    obtain ⟨ws, ⟨hb, -⟩, he⟩ := ((hv i (hm hi)).mem xs).mp hx
    exact ⟨ws, hb, he⟩
  case mpr =>
    rintro ⟨ws, hb, he⟩
    obtain ⟨i, ⟨hi, hc⟩, -⟩ := hf.existsUnique ho hb
    have hm : i ∈ order := hp.mem_iff.mpr (List.mem_range.mpr hi)
    exact ⟨v i, List.mem_map_of_mem hm, ((hv i hi).mem xs).mpr ⟨ws, ⟨hb, hc⟩, he⟩⟩

theorem partitionVisits (hn : counts ≠ []) (hp : order.Perm (List.range counts.prod)) :
    ∃ iterator vs, ShapePartitionIterator.make (workShape shape count incr) counts = some iterator ∧
      Returns (fun fuel => order.mapM fun i => do
        let partition ← iterator.getPartition i
        ForEachIndexInternalParallel.processPartition fuel shape base count incr partition) vs ∧
      vs.flatten.Perm (visited shape base count incr) := by
  obtain ⟨iterator, hi, -, hg⟩ := hf.getPartition ho hn
  choose! v hr hv using fun i hi => h.processParts hf ho (i := i) hi
  refine ⟨iterator, order.map v, hi, Returns.mapM fun i hi => ?_, h.visits_perm hf ho hp hv⟩
  have hi : i < counts.prod := List.mem_range.mp (hp.mem_iff.mp hi)
  simp only [hg i hi, Option.bind_eq_bind, Option.bind_some]
  exact hr i hi

end Partitioned

end Iterable

open ShapePartitionAssigner

-- The work is cut into at most as many partitions as there are threads. No check fails for any of them, they tile the
-- work, and together they visit what the sequential iteration visits.
def VisitsInParallel (threadCount r : Nat) (parallelFor : Nat → List Nat) (shape : Shape τ)
    (base count incr : List Int) : Prop :=
  let work := workShape shape count incr
  let counts := run r work threadCount
  getTotalPartitionCount counts ≤ threadCount ∧
  (0 < shape.rank → ∃ iterator ps, ShapePartitionIterator.make work counts = some iterator ∧
    partitions iterator = some ps ∧ ps.length = getTotalPartitionCount counts ∧ Tiles work ps) ∧
  ∃ sequential parallel,
    Returns (fun fuel => forEachIndexInternal fuel shape base count incr fun _ => true) sequential ∧
    Returns (fun fuel => forEachIndexInternalParallel fuel threadCount r parallelFor shape base count incr) parallel ∧
    parallel.Perm sequential

end Main

end Shape
