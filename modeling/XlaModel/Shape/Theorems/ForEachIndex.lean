import XlaModel.Lib.Fallible
import XlaModel.Shape.ForEachIndex
import XlaModel.Shape.Theorems.DecomposeBitcast
import XlaModel.Lib.Odometer

namespace Shape

open Fallible RowMajor View

variable {τ : Type} {s : Shape τ} {ds dims counts outer qs ws : List Nat} {c d i n q q' r size target w : Nat}

namespace ShapePartitionAssigner

theorem getTotalPartitionCount_eq : getTotalPartitionCount counts = counts.prod := by
  rw [getTotalPartitionCount, List.prod_eq_foldl]

section OuterDims

theorem outerDims_prefix : (outerDims s target ds size).1 <+: ds := by
  induction ds generalizing size
  case nil => exact List.prefix_refl _
  case cons d ds hi =>
    rw [outerDims]
    split_ifs
    case pos => exact List.prefix_append [d] ds
    case neg => exact List.cons_prefix_cons.mpr ⟨rfl, hi⟩

theorem outerDims_size :
    (outerDims s target ds size).2 = size * ((outerDims s target ds size).1.map s.dimension).prod := by
  induction ds generalizing size
  case nil => simp [outerDims]
  case cons d ds hi =>
    rw [outerDims]
    split_ifs
    case pos => simp
    case neg => simp only [hi, List.map_cons, List.prod_cons, Nat.mul_assoc]

theorem outerDims_ne_nil (h : ds ≠ []) : (outerDims s target ds size).1 ≠ [] := by
  cases ds
  case nil => exact absurd rfl h
  case cons d ds =>
    rw [outerDims]
    split_ifs <;> exact List.cons_ne_nil _ _

end OuterDims

-- Every dimension is cut into at least one and at most as many partitions as it has elements.
structure Feasible (s : Shape τ) (outer : List Nat) (target : Nat) (counts : List Nat) : Prop where
  length : counts.length = outer.length
  bounds : ∀ i < outer.length, 0 < counts.getD i 0 ∧ counts.getD i 0 ≤ s.dimension (outer.getD i 0)
  total  : counts.prod ≤ target

theorem prod_map_min_le (f : Nat → Nat) (r : Nat) :
    (outer.map fun d => min (f d) r).prod ≤ (outer.map f).prod ∧
      (outer.map fun d => min (f d) r).prod ≤ r ^ outer.length := by
  induction outer
  case nil => simp
  case cons d outer hi =>
    simp only [List.map_cons, List.prod_cons, List.length_cons, Nat.pow_succ']
    exact ⟨Nat.mul_le_mul (Nat.min_le_left ..) hi.1, Nat.mul_le_mul (Nat.min_le_right ..) hi.2⟩

theorem exists_prod_set (h : i < counts.length) :
    ∃ other, counts.prod = other * counts.getD i 0 ∧ ∀ c, (counts.set i c).prod = other * c := by
  refine ⟨(counts.take i).prod * (counts.drop (i + 1)).prod, ?prod, fun c => ?set⟩
  case prod =>
    conv_lhs => rw [← List.prod_take_mul_prod_drop counts i, List.drop_eq_getElem_cons h, List.prod_cons]
    simp only [List.getD_eq_getElem _ _ h]
    ring
  case set =>
    rw [List.prod_set, if_pos h]
    ring

theorem Feasible.assignAdditional (h : Feasible s outer target counts) (hi : i < outer.length) :
    Feasible s outer target (assignAdditional s outer target counts i) := by
  obtain ⟨hp, hle⟩ := h.bounds i hi
  obtain ⟨other, ho, hs⟩ := exists_prod_set (h.length.symm ▸ hi)
  have hd : counts.prod / counts.getD i 0 = other := by rw [ho, Nat.mul_div_cancel _ hp]
  rw [ShapePartitionAssigner.assignAdditional, getTotalPartitionCount_eq, hd]
  split_ifs with ha
  case neg => exact h
  case pos =>
    have hl := h.length
    have hmin : min (s.dimension (outer.getD i 0) - counts.getD i 0) (target / other - counts.getD i 0) ≤
        target / other - counts.getD i 0 := Nat.min_le_right ..
    have hmin' : min (s.dimension (outer.getD i 0) - counts.getD i 0) (target / other - counts.getD i 0) ≤
        s.dimension (outer.getD i 0) - counts.getD i 0 := Nat.min_le_left ..
    generalize min (s.dimension (outer.getD i 0) - counts.getD i 0) (target / other - counts.getD i 0) = additional at *
    refine ⟨by simpa using hl, fun j hj => ?bounds, ?sum⟩
    case bounds =>
      have hb := h.bounds j hj
      by_cases hji : i = j
      case pos =>
        subst hji
        have : i < counts.length := hl ▸ hi
        simp only [List.getD_eq_getElem?_getD, List.getElem?_set, this] at hb hmin' ⊢
        simp only [if_true, Option.getD_some]
        omega
      case neg => simpa [List.getD_eq_getElem?_getD, List.getElem?_set, hji] using hb
    case sum =>
      rw [hs]
      calc other * (counts.getD i 0 + additional)
        _ ≤ other * (target / other) := Nat.mul_le_mul_left _ (by omega)
        _ ≤ target                   := Nat.mul_div_le ..

theorem Feasible.foldl (h : Feasible s outer target counts) (hi : ∀ i ∈ ds, i < outer.length) :
    Feasible s outer target (ds.foldl (ShapePartitionAssigner.assignAdditional s outer target) counts) := by
  induction ds generalizing counts
  case nil           => exact h
  case cons i ds hi' => exact hi' (h.assignAdditional (hi i (.head _))) fun j hj => hi j (.tail _ hj)

theorem feasible_initial (hs : ∀ d, 0 < s.dimension d) (hr : 0 < r) (hn : r ^ outer.length ≤ target) :
    Feasible s outer (min (outer.map s.dimension).prod target) (outer.map fun d => min (s.dimension d) r) where
  length := List.length_map _
  bounds i hi := by
    have := hs outer[i]
    simp [hi, hr, this]
  total := by
    obtain ⟨h₁, h₂⟩ := @prod_map_min_le outer s.dimension r
    exact Nat.le_min.mpr ⟨h₁, h₂.trans hn⟩

theorem feasible_run (hs : ∀ d, 0 < s.dimension d) (hr : 0 < r)
    (hn : r ^ (outerDims s target s.minorToMajor.reverse 1).1.length ≤ target) :
    Feasible s (outerDims s target s.minorToMajor.reverse 1).1 target (run r s target) := by
  have hsize := @outerDims_size _ s s.minorToMajor.reverse 1 target
  rw [run]
  generalize outerDims s target s.minorToMajor.reverse 1 = o at *
  obtain ⟨outer, outerSize⟩ := o
  obtain rfl : outerSize = (outer.map s.dimension).prod := hsize.trans (Nat.one_mul _)
  have hf := feasible_initial hs hr hn
  have hf' := hf.foldl fun i (hi : i ∈ List.range outer.length) => List.mem_range.mp hi
  have hle : min (outer.map s.dimension).prod target ≤ target := Nat.min_le_right ..
  simp only [List.length_map]
  split_ifs with he
  case pos =>
    subst he
    exact ⟨rfl, fun i hi => absurd hi (Nat.not_lt_zero _), by simpa using hn⟩
  case pos => exact ⟨hf'.length, hf'.bounds, hf'.total.trans hle⟩
  case neg => exact ⟨hf.length, hf.bounds, hf.total.trans hle⟩

end ShapePartitionAssigner

namespace ShapePartitionIterator

open ShapePartitionAssigner

theorem strides_cons : strides (c :: counts) = counts.prod :: strides counts := by
  induction counts generalizing c
  case nil => rfl
  case cons c' counts hi => rw [strides, hi, List.headD_cons, List.prod_cons, Nat.mul_comm]

section Part

-- The part with the number `q` of a dimension of size `d` that is cut into `c` parts.
def part (d c q : Nat) : Nat × Nat :=
  (q * (d / c), if q + 1 = c then d - q * (d / c) else d / c)

theorem part_le (hq : q < c) : (part d c q).1 + (part d c q).2 ≤ d := by
  have hqc : q * (d / c) + d / c ≤ d := calc q * (d / c) + d / c
    _ = (q + 1) * (d / c) := (Nat.succ_mul ..).symm
    _ ≤ c * (d / c)       := Nat.mul_le_mul_right _ hq
    _ ≤ d                 := Nat.mul_div_le ..
  rw [part]
  generalize d / c = z at *
  split_ifs
  case pos => exact (Nat.add_sub_of_le (by omega)).le
  case neg => exact hqc

theorem part_before (hq : q < q') (hq' : q' < c) : (part d c q).1 + (part d c q).2 ≤ (part d c q').1 := by
  have hne : q + 1 ≠ c := by omega
  rw [part, part, if_neg hne, ← Nat.succ_mul]
  exact Nat.mul_le_mul_right _ hq

variable (hc : 0 < c) (hcd : c ≤ d)
include hc hcd

theorem part_pos (hq : q < c) : 0 < (part d c q).2 := by
  have hp : 0 < d / c := Nat.div_pos hcd hc
  rw [part]
  split_ifs with hl
  case neg => exact hp
  case pos =>
    have hm : d / c * c ≤ d := Nat.div_mul_le_self ..
    subst hl
    have : q * (d / (q + 1)) + d / (q + 1) ≤ d := by rw [← Nat.succ_mul, Nat.mul_comm]; exact hm
    dsimp only
    omega

-- Every position of the dimension is in exactly one part.
theorem existsUnique_part (hw : w < d) : ∃! q, q < c ∧ (part d c q).1 ≤ w ∧ w < (part d c q).1 + (part d c q).2 := by
  have hz : 0 < d / c := Nat.div_pos hcd hc
  refine existsUnique_of_exists_of_unique ?existence fun q q' hq hq' => ?uniqueness
  case existence =>
    have hdiv : w / (d / c) * (d / c) ≤ w := Nat.div_mul_le_self ..
    by_cases hl : w / (d / c) + 1 < c
    case pos =>
      have := Nat.lt_div_mul_add hz (a := w)
      refine ⟨w / (d / c), Nat.lt_of_succ_lt hl, ?_⟩
      rw [part, if_neg hl.ne]
      exact ⟨hdiv, this⟩
    case neg =>
      have hle : (c - 1) * (d / c) ≤ w := (Nat.mul_le_mul_right _ (by omega)).trans hdiv
      refine ⟨c - 1, by omega, ?_⟩
      rw [part, if_pos (by omega)]
      exact ⟨hle, by omega⟩
  case uniqueness =>
    obtain hlt | heq | hlt := Nat.lt_trichotomy q q'
    case inl => have := @part_before c d _ _ hlt hq'.1; omega
    case inr.inl => exact heq
    case inr.inr => have := @part_before c d _ _ hlt hq.1; omega

end Part

-- The parts of the dimensions with the given numbers.
def parts (s : Shape τ) : List Nat → List Nat → List Nat → List (Nat × Nat)
  | d :: dims, c :: counts, q :: qs => part (s.dimension d) c q :: parts s dims counts qs
  | _,         _,           _       => []

theorem getPartition_loop (h : List.Forall₂ (fun c d => 0 < c ∧ c ≤ s.dimension d) counts dims) (hi : i < counts.prod) :
    getPartition.loop s dims counts (List.zipWith (fun d count => max 1 (s.dimension d / count)) dims counts)
      (strides counts) i = some (parts s dims counts (digits counts i)) := by
  induction h generalizing i
  case nil => rfl
  case cons c d counts dims hcd _ hi' =>
    obtain ⟨hc, hcd⟩ := hcd
    rw [List.prod_cons] at hi
    have hp : 0 < counts.prod := Nat.pos_of_mul_pos_left (Nat.zero_lt_of_lt hi)
    have hq : i / counts.prod < c := (Nat.div_lt_iff_lt_mul hp).mpr hi
    have hz : max 1 (s.dimension d / c) = s.dimension d / c := Nat.max_eq_right (Nat.div_pos hcd hc)
    have hm : i - i / counts.prod * counts.prod = i % counts.prod := by
      have := Nat.div_add_mod' i counts.prod
      omega
    have hpos := part_pos hc hcd hq
    rw [part] at hpos
    rw [strides_cons, List.zipWith_cons_cons, getPartition.loop, hz, hm, hi' (Nat.mod_lt _ hp), digits, parts, part]
    simp only [hpos, guard_true, Option.pure_def, Option.bind_eq_bind, Option.bind_some]

-- The positions that are in a partition.
def Covers (partition : List (Nat × Nat)) (ws : List Nat) : Prop :=
  List.Forall₂ (fun p w => p.1 ≤ w ∧ w < p.1 + p.2) partition ws

theorem existsUnique_parts (h : List.Forall₂ (fun c d => 0 < c ∧ c ≤ s.dimension d) counts dims)
    (hw : InBounds (dims.map s.dimension) ws) : ∃! qs, InBounds counts qs ∧ Covers (parts s dims counts qs) ws := by
  induction h generalizing ws
  case nil =>
    obtain rfl := List.forall₂_nil_right_iff.mp hw
    exact ⟨[], ⟨.nil, .nil⟩, fun qs hqs => List.forall₂_nil_right_iff.mp hqs.1⟩
  case cons c d counts dims hcd _ hi =>
    obtain ⟨w, ws, hlt, hws, rfl⟩ := List.forall₂_cons_right_iff.mp hw
    obtain ⟨q, ⟨hq, hqw⟩, hu⟩ := existsUnique_part hcd.1 hcd.2 hlt
    obtain ⟨qs, ⟨hqs, hqsw⟩, hus⟩ := hi hws
    refine ⟨q :: qs, ⟨.cons hq hqs, .cons hqw hqsw⟩, fun ps hps => ?_⟩
    obtain ⟨p, ps, hp, hb, rfl⟩ := List.forall₂_cons_right_iff.mp hps.1
    obtain ⟨hc, hcs⟩ := List.forall₂_cons.mp hps.2
    rw [hu p ⟨hp, hc⟩, hus ps ⟨hb, hcs⟩]

theorem parts_within (h : List.Forall₂ (fun c d => 0 < c ∧ c ≤ s.dimension d) counts dims) (hq : InBounds counts qs) :
    List.Forall₂ (fun p d => 0 < p.2 ∧ p.1 + p.2 ≤ s.dimension d) (parts s dims counts qs) dims := by
  induction h generalizing qs
  case nil =>
    obtain rfl := List.forall₂_nil_right_iff.mp hq
    exact .nil
  case cons c d counts dims hcd _ hi =>
    obtain ⟨q, qs, hlt, hqs, rfl⟩ := List.forall₂_cons_right_iff.mp hq
    exact .cons ⟨part_pos hcd.1 hcd.2 hlt, part_le hlt⟩ (hi hqs)

end ShapePartitionIterator

section Tiles

open ShapePartitionAssigner ShapePartitionIterator

-- The partitions of a shape, in order.
def partitions (iterator : ShapePartitionIterator τ) : Option (List (List (Nat × Nat))) :=
  (List.range (getTotalPartitionCount iterator.dimensionPartitionCounts)).mapM iterator.getPartition

-- The most major dimensions of an index are in the partition.
def Contains (s : Shape τ) (partition : List (Nat × Nat)) (ws : List Nat) : Prop :=
  Covers partition ((List.range partition.length).map fun i => ws.getD (s.major i) 0)

-- Every partition is a nonempty part of the shape, and every index is in exactly one partition.
structure Tiles (s : Shape τ) (partitions : List (List (Nat × Nat))) : Prop where
  within : ∀ p ∈ partitions, List.Forall₂ (fun part d => 0 < part.2 ∧ part.1 + part.2 ≤ s.dimension d) p
    ((List.range p.length).map s.major)
  unique : ∀ ws, InBounds s.dimensions ws → ∃! i : Nat, ∃ p, partitions[i]? = some p ∧ Contains s p ws

theorem map_major_range (h : n ≤ s.rank) : (List.range n).map s.major = s.minorToMajor.reverse.take n := by
  have hl := length_eq_of_perm s.perm
  have h : n ≤ s.dimensions.length := h
  refine List.ext_getElem (by simp [hl, h]) fun i h₁ h₂ => ?_
  have h₁ : i < n := by simpa using h₁
  have : s.minorToMajor.length - 1 - i < s.minorToMajor.length := by omega
  simp [major, this]

end Tiles

namespace ShapePartitionAssigner

open ShapePartitionIterator

variable (hf : Feasible s outer target counts) (ho : outer <+: s.minorToMajor.reverse)
include hf

theorem Feasible.forall₂ : List.Forall₂ (fun c d => 0 < c ∧ c ≤ s.dimension d) counts outer := by
  refine List.forall₂_iff_get.mpr ⟨hf.length, fun i h₁ h₂ => ?_⟩
  have := hf.bounds i h₂
  simpa [h₁, h₂] using this

include ho

theorem Feasible.map_major : (List.range counts.length).map s.major = outer := by
  have hle : counts.length ≤ s.rank := by
    have := ho.length_le
    rw [List.length_reverse, length_eq_of_perm s.perm] at this
    exact hf.length.trans_le this
  rw [map_major_range hle, hf.length]
  exact (List.prefix_iff_eq_take.mp ho).symm

theorem Feasible.getPartition (hn : counts ≠ []) : ∃ iterator, ShapePartitionIterator.make s counts = some iterator ∧
    iterator.dimensionPartitionCounts = counts ∧
    ∀ i < counts.prod, iterator.getPartition i = some (parts s outer counts (digits counts i)) := by
  let dimensions := (List.range counts.length).map s.major
  let sizes := List.zipWith (fun d count => max 1 (s.dimension d / count)) dimensions counts
  refine ⟨⟨s, counts, dimensions, sizes, strides counts⟩, ?make, rfl, fun i hi => ?_⟩
  case make => simp [ShapePartitionIterator.make, hn, dimensions, sizes]
  simp only [ShapePartitionIterator.getPartition, sizes, dimensions, hf.map_major ho]
  exact getPartition_loop hf.forall₂ hi

omit ho in
theorem Feasible.length_parts (hi : i < counts.prod) :
    (parts s outer counts (digits counts i)).length = counts.length := by
  rw [(parts_within hf.forall₂ (digits_inBounds hi)).length_eq, hf.length]

theorem Feasible.existsUnique (hw : InBounds s.dimensions ws) :
    ∃! i, i < counts.prod ∧ Contains s (parts s outer counts (digits counts i)) ws := by
  have hb : InBounds (outer.map s.dimension) (outer.map (ws.getD · 0)) := by
    rw [InBounds, List.forall₂_map_left_iff, List.forall₂_map_right_iff, List.forall₂_same]
    intro d hd
    have hd : d < s.dimensions.length := mem_minorToMajor.mp (List.mem_reverse.mp (ho.subset hd))
    obtain ⟨hl, hb⟩ := List.forall₂_iff_get.mp hw
    have := hb d (hl ▸ hd) hd
    simpa [dimension, hl ▸ hd, hd] using this
  have hc {i : Nat} (hi : i < counts.prod) : Contains s (parts s outer counts (digits counts i)) ws ↔
      Covers (parts s outer counts (digits counts i)) (outer.map (ws.getD · 0)) := by
    have hm := congrArg (List.map (ws.getD · 0)) (hf.map_major ho)
    rw [List.map_map] at hm
    rw [Contains, hf.length_parts hi, ← hm]
    rfl
  obtain ⟨qs, ⟨hq, hcov⟩, hu⟩ := existsUnique_parts hf.forall₂ hb
  refine ⟨ravel counts qs, ⟨hq.ravel_lt, (hc hq.ravel_lt).mpr (hq.digits_ravel.symm ▸ hcov)⟩, fun i hi => ?_⟩
  have := hu _ ⟨digits_inBounds hi.1, (hc hi.1).mp hi.2⟩
  rw [← this, ravel_digits hi.1]

theorem Feasible.tiles (hn : counts ≠ []) : ∃ iterator ps, ShapePartitionIterator.make s counts = some iterator ∧
    partitions iterator = some ps ∧ ps.length = counts.prod ∧ Tiles s ps := by
  obtain ⟨iterator, hi, hc, hp⟩ := hf.getPartition ho hn
  refine ⟨iterator, (List.range counts.prod).map fun i => parts s outer counts (digits counts i), hi, ?partitions,
      by simp,
    ?bounds, ?covered⟩
  case partitions =>
    rw [partitions, hc, getTotalPartitionCount_eq, mapM_eq_some, List.forall₂_map_right_iff, List.forall₂_same]
    exact fun i hi => hp i (List.mem_range.mp hi)
  case bounds =>
    intro p hp
    obtain ⟨i, hi, rfl⟩ := List.mem_map.mp hp
    have hi := List.mem_range.mp hi
    rw [hf.length_parts hi, hf.map_major ho]
    exact parts_within hf.forall₂ (digits_inBounds hi)
  case covered =>
    intro ws hw
    obtain ⟨i, ⟨hi, hc⟩, hu⟩ := hf.existsUnique ho hw
    refine ⟨i, ⟨parts s outer counts (digits counts i), by simp [hi], hc⟩, ?_⟩
    rintro j ⟨p, hp, hc⟩
    obtain ⟨j', hj, rfl⟩ := List.getElem?_eq_some_iff.mp hp
    refine hu j ⟨by simpa using j', ?_⟩
    simpa using hc

end ShapePartitionAssigner

end Shape

namespace Shape

open Fuel ForEachIndexInternalParallel ForEachState Odometer RowMajor View

variable {τ : Type} {shape : Shape τ} {base count incr : List Int} {ds : List Nat} {xs : List Int} {d k q : Nat}

-- The number of steps of the increment within the count.
def steps (count incr : List Int) (d : Nat) : Nat :=
  (ceilOfRatio (count.getD d 0) (incr.getD d 0)).toNat

def stepTo (base incr : List Int) (d q : Nat) : Int :=
  base.getD d 0 + q * incr.getD d 0

theorem lt_ceilOfRatio {c i : Int} (hc : 0 ≤ c) (hi : 0 < i) : q < (ceilOfRatio c i).toNat ↔ q * i < c := by
  have hz := Int.ediv_mul_le c hi.ne'
  have hz' := Int.lt_ediv_add_one_mul_self c hi
  have hn : 0 ≤ c / i := Int.ediv_nonneg hc hi.le
  rw [ceilOfRatio, Int.tdiv_eq_ediv_of_nonneg hc]
  generalize c / i = z at *
  have hneg : ¬(i < 0 ∧ c < z * i) := fun h => absurd h.1 hi.asymm
  simp only [hn, gt_iff_lt, hi, true_and, hneg, or_false]
  rw [Int.lt_toNat]
  split_ifs with ha
  case pos =>
    refine ⟨fun h => ?mp, fun h => ?mpr⟩
    case mp =>
      have := Int.mul_le_mul_of_nonneg_right (Int.lt_add_one_iff.mp h) hi.le
      omega
    case mpr => exact lt_of_mul_lt_mul_right (h.trans hz') hi.le
  case neg =>
    obtain rfl : c = z * i := by omega
    rw [Int.add_zero]
    exact (mul_lt_mul_iff_left₀ hi).symm

section Increment

variable (hc : ∀ d ∈ ds, 0 ≤ count.getD d 0) (hi : ∀ d ∈ ds, 0 < incr.getD d 0) (hn : ds.Nodup)
include hc hi hn

-- One step of the odometer, which starts again after its last reading.
variable (base) in
theorem incrementDim_loop (hl : ∀ d ∈ ds, d < xs.length) (hk : k < (ds.map (steps count incr)).prod) :
    ∃ n, incrementDim.loop base count incr ds (reading (steps count incr) (stepTo base incr) ds xs k) =
        (n, reading (steps count incr) (stepTo base incr) ds xs ((k + 1) % (ds.map (steps count incr)).prod)) ∧
      (n < ds.length ↔ k + 1 < (ds.map (steps count incr)).prod) := by
  induction ds generalizing xs k
  case nil =>
    obtain rfl : k = 0 := by simpa using hk
    exact ⟨0, rfl, by simp⟩
  case cons d ds hi' =>
    obtain ⟨hd, hn⟩ := List.nodup_cons.mp hn
    have hdl := hl d (.head _)
    have hs : steps count incr d = (ceilOfRatio (count.getD d 0) (incr.getD d 0)).toNat := rfl
    have hlt (q : Nat) : q < steps count incr d ↔ q * incr.getD d 0 < count.getD d 0 :=
      lt_ceilOfRatio (hc d (.head _)) (hi d (.head _))
    rw [List.map_cons, List.prod_cons] at hk ⊢
    have hr : 0 < steps count incr d := Nat.pos_of_mul_pos_right (Nat.zero_lt_of_lt hk)
    have hq := Nat.div_lt_of_lt_mul hk
    have hm := Nat.div_add_mod k (steps count incr d)
    have hml := Nat.mod_lt k hr
    have hx : (reading (steps count incr) (stepTo base incr) (d :: ds) xs k).getD d 0 =
        stepTo base incr d (k % steps count incr d) := by
      simp [reading, hdl]
    have hnext : stepTo base incr d (k % steps count incr d) + incr.getD d 0 =
        stepTo base incr d (k % steps count incr d + 1) := by
      simp only [stepTo]
      push_cast
      ring
    have hcond : stepTo base incr d (k % steps count incr d + 1) < base.getD d 0 + count.getD d 0 ↔
        k % steps count incr d + 1 < steps count incr d := by
      rw [hlt, stepTo, Int.add_lt_add_iff_left]
    generalize hrd : steps count incr d = r at *
    by_cases hlast : k % r + 1 < r
    case pos =>
      have hlt' : k + 1 < r * (ds.map (steps count incr)).prod := calc k + 1
        _ < r * (k / r) + r                        := by omega
        _ = r * (k / r + 1)                        := (Nat.mul_succ ..).symm
        _ ≤ r * (ds.map (steps count incr)).prod := Nat.mul_le_mul_left _ hq
      have hk' : k + 1 = r * (k / r) + (k % r + 1) := by omega
      have hd' : (k + 1) / r = k / r := by
        rw [hk', Nat.mul_add_div hr, Nat.div_eq_of_lt hlast, Nat.add_zero]
      have hm' : (k + 1) % r = k % r + 1 := by rw [hk', Nat.mul_add_mod, Nat.mod_eq_of_lt hlast]
      refine ⟨0, ?_, iff_of_true (Nat.succ_pos _) hlt'⟩
      rw [incrementDim.loop, hx, hnext]
      simp only [if_pos (hcond.mpr hlast), Nat.mod_eq_of_lt hlt', reading, hrd, hd', hm', List.set_set]
    case neg =>
      have hk' : k + 1 = r * (k / r + 1) := by rw [Nat.mul_succ]; omega
      have hz : stepTo base incr d 0 = base.getD d 0 := by simp [stepTo]
      obtain ⟨n, he, hn'⟩ := @hi' (xs.set d (base.getD d 0)) (k / r) (fun e he => hc e (.tail _ he))
        (fun e he => hi e (.tail _ he)) hn (fun e he => by simpa using hl e (.tail _ he)) hq
      refine ⟨n + 1, ?loop, ?steps⟩
      case loop =>
        rw [incrementDim.loop, hx, hnext]
        simp only [if_neg (mt hcond.mp hlast)]
        rw [hk', Nat.mul_mod_mul_left, reading, reading, hrd, Nat.mul_div_cancel_left _ hr, Nat.mul_mod_right, hz,
          List.set_set, ← reading_set hd, ← reading_set hd, he]
      case steps =>
        rw [List.length_cons, Nat.succ_lt_succ_iff, hn', hk', Nat.mul_lt_mul_left hr]

end Increment

section Visit

-- The indices of an iteration, in order.
def visited (shape : Shape τ) (base count incr : List Int) : List (List Int) :=
  readings (steps count incr) (stepTo base incr) shape.minorToMajor base

theorem mem_minorToMajor_lt (hb : base.length = shape.rank) (hd : d ∈ shape.minorToMajor) : d < base.length :=
  hb ▸ mem_minorToMajor.mp hd

variable (hb : base.length = shape.rank) (hc : ∀ d < shape.rank, 0 < count.getD d 0)
  (hi : ∀ d < shape.rank, 0 < incr.getD d 0)
include hb hc hi

theorem visit_eq {fuel : Nat} (hk : k < (shape.minorToMajor.map (steps count incr)).prod)
    (hf : (shape.minorToMajor.map (steps count incr)).prod - k ≤ fuel) :
    visit (fun _ => true) fuel
        ⟨shape, base, count, incr, reading (steps count incr) (stepTo base incr) shape.minorToMajor base k⟩ =
      some ((List.range' k ((shape.minorToMajor.map (steps count incr)).prod - k)).map
        (reading (steps count incr) (stepTo base incr) shape.minorToMajor base)) := by
  induction fuel generalizing k
  case zero => omega
  case succ fuel hi' =>
    obtain ⟨n, he, hn⟩ := incrementDim_loop base (fun d hd => (hc d (mem_minorToMajor.mp hd)).le)
      (fun d hd => hi d (mem_minorToMajor.mp hd)) shape.minorToMajor_nodup (fun d hd => mem_minorToMajor_lt hb hd) hk
    rw [visit, if_pos rfl, incrementDim]
    simp only [he]
    split_ifs with hlt
    case pos =>
      have hlt := hn.mp hlt
      have hs : (shape.minorToMajor.map (steps count incr)).prod - k =
          (shape.minorToMajor.map (steps count incr)).prod - (k + 1) + 1 := by omega
      rw [Nat.mod_eq_of_lt hlt, hi' hlt (by omega), hs, List.range'_succ, List.map_cons]
      rfl
    case neg =>
      have hlt := mt hn.mpr hlt
      have hs : (shape.minorToMajor.map (steps count incr)).prod - k = 1 := by omega
      rw [hs]
      rfl

theorem visit_base : Returns (fun fuel => visit (fun _ => true) fuel ⟨shape, base, count, incr, base⟩)
    (visited shape base count incr) := by
  have hp : 0 < (shape.minorToMajor.map (steps count incr)).prod := by
    refine List.prod_pos (List.forall_mem_map.mpr fun d hd => ?_)
    have hd := mem_minorToMajor.mp hd
    rw [steps, lt_ceilOfRatio (hc d hd).le (hi d hd), Nat.cast_zero, Int.zero_mul]
    exact hc d hd
  have hz : reading (steps count incr) (stepTo base incr) shape.minorToMajor base 0 = base := by
    refine reading_zero fun d hd => ?_
    have := mem_minorToMajor_lt hb hd
    simp [stepTo, this]
  refine Returns.iff_exists.mpr ⟨(shape.minorToMajor.map (steps count incr)).prod, fun fuel hf => ?_⟩
  have := visit_eq hb hc hi hp hf
  rw [hz] at this
  rw [this, visited, readings, List.range_eq_range', Nat.sub_zero]

omit hc in
theorem visited_nodup : (visited shape base count incr).Nodup := by
  refine readings_nodup shape.minorToMajor_nodup (fun d hd => mem_minorToMajor_lt hb hd) fun d hd p q he => ?_
  have hne := (hi d (mem_minorToMajor.mp hd)).ne'
  exact Nat.cast_injective (mul_right_cancel₀ hne (Int.add_left_cancel he))

omit hc hi in
theorem mem_visited : xs ∈ visited shape base count incr ↔ xs.length = shape.rank ∧
    ∀ d < shape.rank, ∃ q < steps count incr d, xs[d]? = some (stepTo base incr d q) := by
  rw [visited, mem_readings shape.minorToMajor_nodup (fun d hd => mem_minorToMajor_lt hb hd), hb]
  refine and_congr_right fun _ => forall₂_congr fun d hd => ?_
  rw [if_pos (mem_minorToMajor.mpr hd)]

end Visit

section Major

variable {s : Shape τ} {i j : Nat}

theorem map_major_rank : (List.range s.rank).map s.major = s.minorToMajor.reverse := by
  have hl : s.minorToMajor.reverse.length = s.rank := by
    rw [List.length_reverse]
    exact length_eq_of_perm s.perm
  rw [map_major_range (Nat.le_refl _), ← hl, List.take_length]

theorem major_lt (hj : j < s.rank) : s.major j < s.rank := by
  have : s.major j ∈ s.minorToMajor.reverse := map_major_rank ▸ List.mem_map_of_mem (List.mem_range.mpr hj)
  exact mem_minorToMajor.mp (List.mem_reverse.mp this)

theorem major_inj (hi : i < s.rank) (hj : j < s.rank) (h : s.major i = s.major j) : i = j := by
  have hn : ((List.range s.rank).map s.major).Nodup := by
    rw [map_major_rank]
    exact List.nodup_reverse.mpr s.minorToMajor_nodup
  exact List.inj_on_of_nodup_map hn (List.mem_range.mpr hi) (List.mem_range.mpr hj) h

theorem forall_major {P : Nat → Prop} : (∀ d < s.rank, P d) ↔ ∀ j < s.rank, P (s.major j) := by
  refine ⟨fun h j hj => h _ (major_lt hj), fun h d hd => ?_⟩
  have hm : d ∈ (List.range s.rank).map s.major := by
    rw [map_major_rank]
    exact List.mem_reverse.mpr (mem_minorToMajor.mpr hd)
  obtain ⟨j, hj, rfl⟩ := List.mem_map.mp hm
  exact h j (List.mem_range.mp hj)

theorem contains_iff {p : List (Nat × Nat)} {ws : List Nat} : Contains s p ws ↔
    ∀ j < p.length, (p.getD j (0, 0)).1 ≤ ws.getD (s.major j) 0 ∧
      ws.getD (s.major j) 0 < (p.getD j (0, 0)).1 + (p.getD j (0, 0)).2 := by
  rw [Contains, ShapePartitionIterator.Covers, List.forall₂_iff_get]
  simp only [List.length_map, List.length_range, true_and]
  refine forall₂_congr fun j hj => ?_
  simp [hj]

end Major

end Shape
