import Mathlib.Data.List.Sort
import XlaModel.Shape.Theorems.DimensionsUnmodifiedByReshape

namespace Shape

open CommonFactors dimensionsUnmodifiedByReshape InsertedOrDeleted1SizedDimensions

variable {τ : Type} {shapePre shapePost : Shape τ} {a b p xs : List Nat} {k n x : Nat} {bounds us : List (Nat × Nat)}
  {d : EqualityDescriptor}

-- The positions from `start` on that are not in the list.
def outside (xs : List Nat) (start n : Nat) : List Nat :=
  (List.range' start (n - start)).filter (· ∉ xs)

section Outside

variable {start x : Nat}

theorem outside_nil : outside [] start n = List.range' start (n - start) :=
  List.filter_eq_self.mpr fun _ _ => by simp

theorem outside_cons (hs : start ≤ x) (hx : x < n) (h : ∀ y ∈ xs, x < y) :
    outside (x :: xs) start n = List.range' start (x - start) ++ outside xs (x + 1) n := by
  have hr : List.range' start (n - start) =
      List.range' start (x - start) ++ x :: List.range' (x + 1) (n - (x + 1)) := by
    have hn : n - start = (x - start) + (n - (x + 1) + 1) := by omega
    rw [hn, ← List.range'_append_1, List.range'_succ, Nat.add_sub_cancel' hs]
  have hl : (List.range' start (x - start)).filter (· ∉ x :: xs) = List.range' start (x - start) := by
    refine List.filter_eq_self.mpr fun y hy => ?_
    obtain ⟨-, hy⟩ := List.mem_range'_1.mp hy
    have hne : y ≠ x := by omega
    have hm : y ∉ xs := fun hm => absurd (h y hm) (by omega)
    simp [hne, hm]
  have hg : (List.range' (x + 1) (n - (x + 1))).filter (· ∉ x :: xs) = outside xs (x + 1) n := by
    refine List.filter_congr fun y hy => ?_
    obtain ⟨hy, -⟩ := List.mem_range'_1.mp hy
    have hne : y ≠ x := by omega
    simp [hne]
  rw [outside, hr, List.filter_append, List.filter_cons_of_neg (by simp), hl, hg]

theorem mem_outside_zero : x ∈ outside xs 0 n ↔ x < n ∧ x ∉ xs := by
  simp [outside, List.mem_range'_1]

-- What is left are the positions in the list.
theorem filter_notMem_outside (hs : xs.Pairwise (· < ·)) (hn : ∀ x ∈ xs, x < n) :
    (List.range n).filter (· ∉ outside xs 0 n) = xs := by
  refine (List.pairwise_lt_range.filter _).eq_of_mem_iff hs fun x => ?_
  rw [List.mem_filter, List.mem_range, decide_eq_true_eq, mem_outside_zero, not_and, not_not]
  exact ⟨fun h => h.2 h.1, fun h => ⟨hn x h, fun _ => h⟩⟩

theorem outside_diagonal (h : ∀ x, x ∈ xs ↔ x < k) : outside xs 0 n = List.range' k (n - k) := by
  have hs {start n : Nat} : (List.range' start n).Pairwise (· < ·) := List.pairwise_lt_range'
  refine (hs.filter _).eq_of_mem_iff hs fun x => ?_
  rw [← outside, mem_outside_zero, List.mem_range'_1, h x]
  omega

end Outside

section Gaps

theorem checkModifiedDims_eq {start u : Nat × Nat} : checkModifiedDims shapePre shapePost d start u =
    if (∀ x ∈ List.range' start.1 (u.1 - start.1), shapePre.dimension x ≤ 1) ∧
        (∀ x ∈ List.range' start.2 (u.2 - start.2), shapePost.dimension x ≤ 1) then
      some ⟨d.deletedDimensions ++ List.range' start.1 (u.1 - start.1),
        d.insertedDimensions ++ List.range' start.2 (u.2 - start.2)⟩
    else
      none := by
  have h {s : Shape τ} {xs : List Nat} : xs.any (1 < s.dimension ·) = false ↔ ∀ x ∈ xs, s.dimension x ≤ 1 := by
    simp only [List.any_eq_false, decide_eq_true_eq, not_lt]
  simp only [checkModifiedDims, ← h]
  cases (List.range' start.1 (u.1 - start.1)).any (1 < shapePre.dimension ·)
  case true  => simp
  case false => cases (List.range' start.2 (u.2 - start.2)).any (1 < shapePost.dimension ·) <;> simp

-- All dimensions that are not in the list are inserted or deleted.
theorem checkGaps_spec {start : Nat × Nat} (h : Ascending shapePre.rank shapePost.rank us)
    (hs : ∀ p ∈ us, start.1 ≤ p.1 ∧ start.2 ≤ p.2) :
    checkGaps shapePre shapePost d start us =
      if (∀ x ∈ outside (us.map Prod.fst) start.1 shapePre.rank, shapePre.dimension x ≤ 1) ∧
          (∀ x ∈ outside (us.map Prod.snd) start.2 shapePost.rank, shapePost.dimension x ≤ 1) then
        some ⟨d.deletedDimensions ++ outside (us.map Prod.fst) start.1 shapePre.rank,
          d.insertedDimensions ++ outside (us.map Prod.snd) start.2 shapePost.rank⟩
      else
        none := by
  induction us generalizing d start
  case nil =>
    rw [checkGaps, checkModifiedDims_eq]
    simp only [List.map_nil, outside_nil]
  case cons u us hi =>
    obtain ⟨hu, hsorted⟩ := List.pairwise_cons.mp h.sorted
    obtain ⟨hn, hb⟩ := List.forall_mem_cons.mp h.bounds
    have hs := hs u (.head _)
    have hi (d) := @hi d (u.1 + 1, u.2 + 1) ⟨hsorted, hb⟩ fun p hp => hu p hp
    have h₁ : ∀ y ∈ us.map Prod.fst, u.1 < y := by
      simpa using fun x y hxy => (hu (x, y) hxy).1
    have h₂ : ∀ y ∈ us.map Prod.snd, u.2 < y := by
      simpa using fun x y hxy => (hu (y, x) hxy).2
    rw [List.map_cons, List.map_cons, outside_cons hs.1 hn.1 h₁, outside_cons hs.2 hn.2 h₂, checkGaps,
      checkModifiedDims_eq]
    simp only [List.forall_mem_append]
    by_cases hm : (∀ x ∈ List.range' start.1 (u.1 - start.1), shapePre.dimension x ≤ 1) ∧
      ∀ x ∈ List.range' start.2 (u.2 - start.2), shapePost.dimension x ≤ 1
    case neg =>
      rw [if_neg hm, if_neg fun h => hm ⟨h.1.1, h.2.1⟩]
      rfl
    case pos =>
      rw [if_pos hm, Option.bind_eq_bind, Option.bind_some, hi]
      simp only [List.append_assoc]
      exact if_congr ⟨fun h => ⟨⟨hm.1, h.1⟩, hm.2, h.2⟩, fun h => ⟨h.1.2, h.2.2⟩⟩ rfl rfl

end Gaps

section Descriptor

def withoutOnes (dims : List Nat) : List Nat :=
  dims.filter (· ≠ 1)

def removeDimensions (dims indices : List Nat) : List Nat :=
  ((List.range dims.length).filter (· ∉ indices)).map (dims.getD · 1)

-- The dimensions of the descriptor have size one, and without them the shapes have the same dimensions.
structure EqualityDescriptor.Describes (d : EqualityDescriptor) (a b : List Nat) : Prop where
  deleted  : ∀ x ∈ d.deletedDimensions, a[x]? = some 1
  inserted : ∀ x ∈ d.insertedDimensions, b[x]? = some 1
  removed  : removeDimensions a d.deletedDimensions = removeDimensions b d.insertedDimensions

-- There is a descriptor if and only if the shapes differ by ones, and then it describes them.
def DecidesDegenerate (shapePre shapePost : Shape τ) : Prop :=
  ∃ d?, insertedOrDeleted1SizedDimensions shapePre shapePost = .ok d? ∧
    (d?.isSome ↔ withoutOnes shapePre.dimensions = withoutOnes shapePost.dimensions) ∧
    ∀ d, d? = some d → d.Describes shapePre.dimensions shapePost.dimensions

def descriptor (a b : List Nat) (us : List (Nat × Nat)) : EqualityDescriptor where
  deletedDimensions  := outside (us.map Prod.fst) 0 a.length
  insertedDimensions := outside (us.map Prod.snd) 0 b.length

theorem map_getD_one_range {dims : List Nat} : (List.range dims.length).map (dims.getD · 1) = dims := by
  refine List.ext_getElem (by simp) fun x hx _ => ?_
  have hx : x < dims.length := by simpa using hx
  simp [hx]

theorem withoutOnes_removeDimensions {dims indices : List Nat} (h : ∀ x ∈ indices, dims.getD x 1 = 1) :
    withoutOnes (removeDimensions dims indices) = withoutOnes dims := by
  conv_rhs => rw [← @map_getD_one_range dims]
  rw [withoutOnes, withoutOnes, removeDimensions, List.filter_map, List.filter_map, List.filter_filter]
  congr 1
  refine List.filter_congr fun x _ => ?_
  by_cases hx : x ∈ indices
  case pos =>
    have h₁ := h x hx
    rw [List.getD_eq_getElem?_getD] at h₁
    simp [h₁]
  case neg => simp [hx]

-- Shapes with a descriptor differ by ones.
theorem EqualityDescriptor.Describes.withoutOnes_eq (h : d.Describes a b) : withoutOnes a = withoutOnes b := by
  have hone {dims : List Nat} {x : Nat} (hx : dims[x]? = some 1) : dims.getD x 1 = 1 := by
    rw [List.getD_eq_getElem?_getD, hx]
    rfl
  rw [← withoutOnes_removeDimensions fun x hx => hone (h.deleted x hx), h.removed,
    withoutOnes_removeDimensions fun x hx => hone (h.inserted x hx)]

namespace IsUnmodified

variable (h : IsUnmodified a b us)
include h

theorem removeDimensions_eq :
    removeDimensions a (descriptor a b us).deletedDimensions =
      removeDimensions b (descriptor a b us).insertedDimensions := by
  have h₁ : (us.map Prod.fst).Pairwise (· < ·) := List.pairwise_map.mpr (h.ascending.sorted.imp fun h => h.1)
  have h₂ : (us.map Prod.snd).Pairwise (· < ·) := List.pairwise_map.mpr (h.ascending.sorted.imp fun h => h.2)
  have hb₁ : ∀ x ∈ us.map Prod.fst, x < a.length := by
    simpa using fun x y hxy => (h.ascending.bounds (x, y) hxy).1
  have hb₂ : ∀ x ∈ us.map Prod.snd, x < b.length := by
    simpa using fun x y hxy => (h.ascending.bounds (y, x) hxy).2
  rw [removeDimensions, removeDimensions, descriptor, filter_notMem_outside h₁ hb₁, filter_notMem_outside h₂ hb₂,
    List.map_map, List.map_map]
  refine List.map_congr_left fun p hp => ?_
  have he := h.same p hp
  simp only [Function.comp_apply, List.getD_eq_getElem?_getD, he]

theorem describes_iff : (descriptor a b us).Describes a b ↔
    (∀ x ∈ (descriptor a b us).deletedDimensions, a[x]? = some 1) ∧
      ∀ x ∈ (descriptor a b us).insertedDimensions, b[x]? = some 1 :=
  ⟨fun hd => ⟨hd.deleted, hd.inserted⟩, fun hd => ⟨hd.1, hd.2, h.removeDimensions_eq⟩⟩

end IsUnmodified

end Descriptor

section Decides

variable (hf : ProductsFit shapePre.dimensions shapePost.dimensions)
include hf

theorem insertedOrDeleted_eq (hc : commonFactors shapePre.dimensions shapePost.dimensions = .ok bounds)
    (h : IsUnmodified shapePre.dimensions shapePost.dimensions (unmodified bounds)) :
    insertedOrDeleted1SizedDimensions shapePre shapePost =
      .ok (if (∀ x ∈ (descriptor shapePre.dimensions shapePost.dimensions (unmodified bounds)).deletedDimensions,
          shapePre.dimension x ≤ 1) ∧
        (∀ x ∈ (descriptor shapePre.dimensions shapePost.dimensions (unmodified bounds)).insertedDimensions,
          shapePost.dimension x ≤ 1) then
        some (descriptor shapePre.dimensions shapePost.dimensions (unmodified bounds)) else none) := by
  rw [insertedOrDeleted1SizedDimensions, dimensionsUnmodifiedByReshape, commonFactorsInt64_of_fits hf, hc]
  change Except.ok (checkGaps shapePre shapePost ⟨[], []⟩ (0, 0) (unmodified bounds)) = _
  rw [checkGaps_spec h.ascending fun _ _ => ⟨Nat.zero_le _, Nat.zero_le _⟩]
  rfl

-- The dimensions that are modified are not empty, and they are ones if the shapes differ by ones.
theorem decides_of_unmodified (hp : shapePre.dimensions.prod = shapePost.dimensions.prod)
    (hc : commonFactors shapePre.dimensions shapePost.dimensions = .ok bounds)
    (h₀ : (∀ x ∈ outside ((unmodified bounds).map Prod.fst) 0 shapePre.rank, shapePre.dimension x ≠ 0) ∧
      ∀ x ∈ outside ((unmodified bounds).map Prod.snd) 0 shapePost.rank, shapePost.dimension x ≠ 0)
    (h₁ : withoutOnes shapePre.dimensions = withoutOnes shapePost.dimensions →
      (∀ x ∈ outside ((unmodified bounds).map Prod.fst) 0 shapePre.rank, shapePre.dimension x = 1) ∧
      ∀ x ∈ outside ((unmodified bounds).map Prod.snd) 0 shapePost.rank, shapePost.dimension x = 1) :
    DecidesDegenerate shapePre shapePost := by
  obtain ⟨bounds', hc', -, hu⟩ := exists_unmodified hp
  obtain rfl := Except.ok.inj (hc.symm.trans hc')
  have hone {s : Shape τ} {us : List Nat} {x : Nat} (hx : x ∈ outside us 0 s.rank) (h : s.dimension x = 1) :
      s.dimensions[x]? = some 1 := by
    have hx : x < s.dimensions.length := (mem_outside_zero.mp hx).1
    rwa [dimension, List.getD_eq_getElem _ _ hx, ← Option.some_inj, ← List.getElem?_eq_getElem hx] at h
  refine ⟨_, insertedOrDeleted_eq hf hc hu, ?_⟩
  split_ifs with hle
  case pos =>
    have hd : (descriptor shapePre.dimensions shapePost.dimensions (unmodified bounds)).Describes shapePre.dimensions
        shapePost.dimensions := hu.describes_iff.mpr
      ⟨fun x hx => hone hx (Nat.le_antisymm (hle.1 x hx) (Nat.pos_of_ne_zero (h₀.1 x hx))),
        fun x hx => hone hx (Nat.le_antisymm (hle.2 x hx) (Nat.pos_of_ne_zero (h₀.2 x hx)))⟩
    refine ⟨iff_of_true rfl hd.withoutOnes_eq, fun d he => ?_⟩
    obtain rfl := Option.some.inj he
    exact hd
  case neg =>
    refine ⟨iff_of_false (by simp) fun he => hle ?_, fun d he => by cases he⟩
    exact ⟨fun x hx => ((h₁ he).1 x hx).le, fun x hx => ((h₁ he).2 x hx).le⟩

-- The zero of the modified dimensions cannot be deleted.
theorem decides_iff_of_zero (hp : shapePre.dimensions.prod = shapePost.dimensions.prod)
    (hc : commonFactors shapePre.dimensions shapePost.dimensions = .ok bounds)
    (hz : ∃ x ∈ outside ((unmodified bounds).map Prod.fst) 0 shapePre.rank, shapePre.dimension x = 0) :
    DecidesDegenerate shapePre shapePost ↔ withoutOnes shapePre.dimensions ≠ withoutOnes shapePost.dimensions ∧
      ((∃ x ∈ outside ((unmodified bounds).map Prod.fst) 0 shapePre.rank, 1 < shapePre.dimension x) ∨
        ∃ x ∈ outside ((unmodified bounds).map Prod.snd) 0 shapePost.rank, 1 < shapePost.dimension x) := by
  obtain ⟨bounds', hc', -, hu⟩ := exists_unmodified hp
  obtain rfl := Except.ok.inj (hc.symm.trans hc')
  have he := insertedOrDeleted_eq hf hc hu
  split_ifs at he with hle
  case pos =>
    refine iff_of_false ?decides ?distinguishable
    case decides =>
      rintro ⟨d?, hd, -, hdesc⟩
      obtain rfl := Except.ok.inj (he.symm.trans hd)
      obtain ⟨x, hx, hz⟩ := hz
      have h₁ := (hdesc _ rfl).deleted x hx
      rw [dimension, List.getD_eq_getElem?_getD, h₁] at hz
      cases hz
    case distinguishable =>
      rintro ⟨-, ⟨x, hx, hlt⟩ | ⟨x, hx, hlt⟩⟩
      case inl => exact absurd (hle.1 x hx) (not_le.mpr hlt)
      case inr => exact absurd (hle.2 x hx) (not_le.mpr hlt)
  case neg =>
    have hlt : (∃ x ∈ outside ((unmodified bounds).map Prod.fst) 0 shapePre.rank, 1 < shapePre.dimension x) ∨
        ∃ x ∈ outside ((unmodified bounds).map Prod.snd) 0 shapePost.rank, 1 < shapePost.dimension x := by
      rw [not_and_or] at hle
      simp only [not_forall, not_le, exists_prop] at hle
      exact hle
    rw [and_iff_left hlt]
    constructor
    case mp =>
      rintro ⟨d?, hd, hiff, -⟩ hw
      obtain rfl := Except.ok.inj (he.symm.trans hd)
      exact absurd (hiff.mpr hw) (by simp)
    case mpr => exact fun hw => ⟨none, he, iff_of_false (by simp) hw, fun d h => by cases h⟩

end Decides

section Main

-- The dimensions after a prefix.
theorem exists_range'_iff {P : Nat → Prop} :
    (∃ x ∈ List.range' p.length ((p ++ a).length - p.length), P ((p ++ a).getD x 1)) ↔ ∃ d ∈ a, P d := by
  have hg (x : Nat) : (p ++ a).getD (p.length + x) 1 = a.getD x 1 := by
    rw [List.getD_append_right _ _ _ _ (Nat.le_add_right _ _), Nat.add_sub_cancel_left]
  constructor
  case mp =>
    rintro ⟨x, hx, hP⟩
    obtain ⟨hle, hlt⟩ := List.mem_range'_1.mp hx
    obtain ⟨x, rfl⟩ := Nat.exists_eq_add_of_le hle
    have hx : x < a.length := by simpa using hlt
    rw [hg, List.getD_eq_getElem _ _ hx] at hP
    exact ⟨_, List.getElem_mem hx, hP⟩
  case mpr =>
    rintro ⟨d, hd, hP⟩
    obtain ⟨x, hx, rfl⟩ := List.mem_iff_getElem.mp hd
    refine ⟨p.length + x, List.mem_range'_1.mpr ⟨Nat.le_add_right _ _, by simpa using hx⟩, ?_⟩
    rwa [hg, List.getD_eq_getElem _ _ hx]

-- The dimensions that can be modified: those after the common prefix, if they have the same number of elements.
def compared (a b : List Nat) : List Nat × List Nat :=
  let k := equalPrefix a b
  if (a.drop k).prod = (b.drop k).prod then (a.drop k, b.drop k) else (a, b)

-- The factors of these dimensions can be told apart, or the shapes differ and one of these dimensions shows it.
def Distinguishable (a b : List Nat) : Prop :=
  (compared a b).1.prod ≠ 0 ∨ withoutOnes a ≠ withoutOnes b ∧
    ((∃ d ∈ (compared a b).1, 1 < d) ∨ ∃ d ∈ (compared a b).2, 1 < d)

variable (hf : ProductsFit shapePre.dimensions shapePost.dimensions)
include hf

theorem decides_of_equal (he : shapePre.dimensions = shapePost.dimensions) : DecidesDegenerate shapePre shapePost := by
  have hc : commonFactors shapePre.dimensions shapePost.dimensions = .ok (diagonal (shapePre.dimensions.length + 1)) := by
    rw [he, commonFactors, check, if_pos (by simp)]
    simp only [pure_bind, if_true]
    rfl
  have hu : unmodified (diagonal (shapePre.dimensions.length + 1)) = diagonal shapePre.dimensions.length := by
    have hd := @unmodified_diagonal shapePre.dimensions.length 0 []
    rw [Nat.zero_add, unmodified_singleton, List.append_nil, ← diagonal_eq] at hd
    rw [← hd, diagonal, List.range_succ, List.map_append, ← diagonal]
    rfl
  have h₁ : outside ((unmodified (diagonal (shapePre.dimensions.length + 1))).map Prod.fst) 0 shapePre.rank = [] := by
    rw [hu, outside_diagonal fun _ => mem_diagonal_fst, rank, Nat.sub_self]
    rfl
  have h₂ : outside ((unmodified (diagonal (shapePre.dimensions.length + 1))).map Prod.snd) 0 shapePost.rank = [] := by
    rw [hu, outside_diagonal fun _ => mem_diagonal_snd, rank, ← he, Nat.sub_self]
    rfl
  refine decides_of_unmodified hf (by rw [he]) hc ?gaps fun _ => ?sets
  case gaps => rw [h₁, h₂]; simp
  case sets => rw [h₁, h₂]; simp

-- The rest of the dimensions is empty.
theorem decides_iff_of_diagonal (ha : shapePre.dimensions = p ++ a) (hb : shapePost.dimensions = p ++ b)
    (hz : a.prod = 0) (hz' : b.prod = 0) (hc : commonFactors (p ++ a) (p ++ b) = .ok bounds)
    (hu : unmodified bounds = diagonal p.length) :
    DecidesDegenerate shapePre shapePost ↔ withoutOnes (p ++ a) ≠ withoutOnes (p ++ b) ∧
      ((∃ d ∈ a, 1 < d) ∨ ∃ d ∈ b, 1 < d) := by
  have h₁ : outside ((unmodified bounds).map Prod.fst) 0 shapePre.rank =
      List.range' p.length ((p ++ a).length - p.length) := by
    rw [hu, outside_diagonal fun _ => mem_diagonal_fst, rank, ha]
  have h₂ : outside ((unmodified bounds).map Prod.snd) 0 shapePost.rank =
      List.range' p.length ((p ++ b).length - p.length) := by
    rw [hu, outside_diagonal fun _ => mem_diagonal_snd, rank, hb]
  have hp : shapePre.dimensions.prod = shapePost.dimensions.prod := by
    rw [ha, hb, List.prod_append, List.prod_append, hz, hz']
  have hzero : ∃ x ∈ outside ((unmodified bounds).map Prod.fst) 0 shapePre.rank, shapePre.dimension x = 0 := by
    rw [h₁]
    simp only [dimension, ha]
    exact (exists_range'_iff (P := (· = 0))).mpr ⟨0, List.prod_eq_zero_iff.mp hz, rfl⟩
  rw [decides_iff_of_zero hf hp (ha ▸ hb ▸ hc) hzero, h₁, h₂]
  simp only [dimension, ha, hb]
  rw [exists_range'_iff (P := (1 < ·)), exists_range'_iff (P := (1 < ·))]

-- The modified dimensions come after the prefix.
omit hf in
theorem getD_outside (h : ∀ y < p.length, y ∈ xs) {x : Nat} (hx : x ∈ outside xs 0 (p ++ a).length) :
    ∃ y, x = p.length + y ∧ a[y]? = some ((p ++ a).getD x 1) := by
  obtain ⟨hlt, hx⟩ := mem_outside_zero.mp hx
  obtain ⟨y, rfl⟩ := Nat.exists_eq_add_of_le (not_lt.mp fun hlt => hx (h x hlt))
  have hy : y < a.length := by simpa using hlt
  refine ⟨y, rfl, ?_⟩
  rw [List.getD_append_right _ _ _ _ (Nat.le_add_right _ _), Nat.add_sub_cancel_left, List.getD_eq_getElem _ _ hy,
    List.getElem?_eq_getElem hy]

-- The rest of the dimensions is positive.
theorem decides_of_pos (ha : shapePre.dimensions = p ++ a) (hb : shapePost.dimensions = p ++ b) (hn : a.prod = b.prod)
    (hpos : a.prod ≠ 0) (hl : equalPrefix (p ++ a) (p ++ b) = p.length) (hne : p ++ a ≠ p ++ b) :
    DecidesDegenerate shapePre shapePost := by
  have hA : ∀ d ∈ a, 0 < d := fun d hd => Nat.pos_of_ne_zero fun hz => hpos (List.prod_eq_zero (hz ▸ hd))
  have hB : ∀ d ∈ b, 0 < d := fun d hd => Nat.pos_of_ne_zero fun hz => hpos (hn ▸ List.prod_eq_zero (hz ▸ hd))
  have hp : (p ++ a).prod = (p ++ b).prod := by rw [List.prod_append, List.prod_append, hn]
  have hfuel : 2 * (a.length + b.length) + 2 ≤ 2 * ((p ++ a).length + (p ++ b).length) + 2 := by
    simp only [List.length_append]
    omega
  obtain ⟨bounds, hloop, hg⟩ := loop_start_isGrouping hA hB hn hfuel
  have hc := commonFactors_of_prefix hp hl hne
  rw [if_neg (not_not.mpr hn), if_neg hpos, hloop] at hc
  replace hc : commonFactors (p ++ a) (p ++ b) = .ok (diagonal p.length ++ shiftBounds p.length bounds) := hc
  have hu := unmodified_append (k := p.length) hg.first
  have h₁ (y : Nat) (hy : y < p.length) :
      y ∈ (unmodified (diagonal p.length ++ shiftBounds p.length bounds)).map Prod.fst := by
    rw [hu, List.map_append]
    exact List.mem_append_left _ (mem_diagonal_fst.mpr hy)
  have h₂ (y : Nat) (hy : y < p.length) :
      y ∈ (unmodified (diagonal p.length ++ shiftBounds p.length bounds)).map Prod.snd := by
    rw [hu, List.map_append]
    exact List.mem_append_left _ (mem_diagonal_snd.mpr hy)
  refine decides_of_unmodified hf (by rw [ha, hb, hp]) (ha ▸ hb ▸ hc)
      ⟨fun x hx => ?pre, fun x hx => ?post⟩ fun hw => ?sets
  case pre =>
    rw [rank, ha] at hx
    obtain ⟨y, -, hy⟩ := getD_outside h₁ hx
    rw [dimension, ha]
    exact (hA _ (List.mem_of_getElem? hy)).ne'
  case post =>
    rw [rank, hb] at hx
    obtain ⟨y, -, hy⟩ := getD_outside h₂ hx
    rw [dimension, hb]
    exact (hB _ (List.mem_of_getElem? hy)).ne'
  case sets =>
    rw [ha, hb, withoutOnes, withoutOnes, List.filter_append, List.filter_append] at hw
    have hsync : InSync a b ⟨0, 0, -1, -1, 1, 1, []⟩ :=
      ⟨Nat.zero_le _, Nat.zero_le _, rfl, List.append_cancel_left hw, .nil, .inl ⟨rfl, rfl, rfl, rfl⟩⟩
    obtain ⟨hfirst, hlast, hchain⟩ := loop_inSync hA hB hsync hloop
    obtain ⟨bounds, rfl⟩ := List.head?_eq_some_iff.mp hfirst
    obtain ⟨hunit₁, hunit₂⟩ := exists_unit_of_synced hchain hlast
    have hmem {x y : Nat} (h : [(x, y), (x + 1, y + 1)] <:+: (0, 0) :: bounds) :
        (p.length + x, p.length + y) ∈ unmodified (diagonal p.length ++ shiftBounds p.length ((0, 0) :: bounds)) := by
      have hs : [(p.length + x, p.length + y), (p.length + (x + 1), p.length + (y + 1))] <:+:
          shiftBounds p.length ((0, 0) :: bounds) := h.map fun (q : Nat × Nat) => (p.length + q.1, p.length + q.2)
      exact mem_unmodified (hs.trans (List.suffix_append _ _).isInfix)
    refine ⟨fun x hx => ?pre, fun x hx => ?post⟩
    case pre =>
      rw [rank, ha] at hx
      obtain ⟨y, rfl, hy⟩ := getD_outside h₁ hx
      rw [dimension, ha]
      by_contra hone
      obtain ⟨z, hz⟩ := hunit₁ y (Nat.zero_le _) (List.getElem?_eq_some_iff.mp hy).1 (by rw [hy]; simpa using hone)
      exact (mem_outside_zero.mp hx).2 (List.mem_map_of_mem (f := Prod.fst) (hmem hz))
    case post =>
      rw [rank, hb] at hx
      obtain ⟨y, rfl, hy⟩ := getD_outside h₂ hx
      rw [dimension, hb]
      by_contra hone
      obtain ⟨z, hz⟩ := hunit₂ y (Nat.zero_le _) (List.getElem?_eq_some_iff.mp hy).1 (by rw [hy]; simpa using hone)
      exact (mem_outside_zero.mp hx).2 (List.mem_map_of_mem (f := Prod.snd) (hmem hz))

-- A dimension of size zero is treated as a size that can be deleted or inserted, and none of the dimensions of an empty
-- rest is unmodified.
omit hf in
theorem decidesDegenerate_iff (h : shapePre.elementsIn = shapePost.elementsIn) :
    DecidesDegenerate shapePre shapePost ↔ ProductsFit shapePre.dimensions shapePost.dimensions ∧
      Distinguishable shapePre.dimensions shapePost.dimensions := by
  by_cases hf : ProductsFit shapePre.dimensions shapePost.dimensions
  case neg =>
    refine iff_of_false ?_ fun h => hf h.1
    rintro ⟨d?, hd, -⟩
    rw [insertedOrDeleted1SizedDimensions, dimensionsUnmodifiedByReshape, commonFactorsInt64_of_not_fits hf] at hd
    cases hd
  rw [and_iff_right hf]
  obtain ⟨p, a, b, ha, hb, hl⟩ := equalPrefix_spec shapePre.dimensions shapePost.dimensions
  have hp : (p ++ a).prod = (p ++ b).prod := by
    rw [← ha, ← hb, List.prod_eq_foldl, List.prod_eq_foldl]
    exact h
  have hcompared : compared (p ++ a) (p ++ b) = if a.prod = b.prod then (a, b) else (p ++ a, p ++ b) := by
    rw [ha, hb] at hl
    rw [compared, hl]
    simp only [List.drop_left]
  by_cases he : p ++ a = p ++ b
  case pos =>
    have hnil : a = [] := by
      rw [ha, hb, ← he, equalPrefix_self, List.length_append] at hl
      exact List.length_eq_zero_iff.mp (by omega)
    obtain rfl := List.append_cancel_left he
    refine iff_of_true (decides_of_equal hf (by rw [ha, hb])) (.inl ?_)
    rw [ha, hb, hcompared, if_pos rfl, hnil]
    exact Nat.one_ne_zero
  case neg =>
    have hc := commonFactors_of_prefix hp (ha ▸ hb ▸ hl) he
    rw [Distinguishable, ha, hb, hcompared]
    by_cases hn : a.prod = b.prod
    case neg =>
      have hz : (p ++ a).prod = 0 := by
        by_contra hz
        rw [List.prod_append, List.prod_append] at hp
        rw [List.prod_append] at hz
        exact hn (Nat.eq_of_mul_eq_mul_left (Nat.pos_of_ne_zero (left_ne_zero_of_mul hz)) hp)
      have hu := unmodified_whole hp he (k := 0)
      rw [Nat.zero_add, Nat.zero_add] at hu
      rw [if_pos hn] at hc
      rw [if_neg hn, decides_iff_of_diagonal hf (p := []) ha hb hz (hp ▸ hz) hc hu]
      exact ⟨.inr, fun h => h.resolve_left (not_not.mpr hz)⟩
    case pos =>
      rw [if_pos hn]
      by_cases hz : a.prod = 0
      case neg => exact iff_of_true (decides_of_pos hf ha hb hn hz (ha ▸ hb ▸ hl) he) (.inl hz)
      case pos =>
        have hu : unmodified (diagonal p.length ++ shiftBounds p.length [(0, 0), (a.length, b.length)]) =
            diagonal p.length := by
          rw [unmodified_append rfl, shiftBounds]
          have hw := @unmodified_whole a b hn (fun he' => he (by rw [he'])) p.length
          simp only [List.map_cons, List.map_nil, Nat.add_zero, hw, List.append_nil]
        rw [if_neg (not_not.mpr hn), if_pos hz] at hc
        rw [decides_iff_of_diagonal hf ha hb hz (hn ▸ hz) hc hu]
        exact ⟨.inr, fun h => h.resolve_left (not_not.mpr hz)⟩

end Main

theorem decidesDegenerate_iff_ones :
    DecidesDegenerate (makeShapeWithDescendingLayout () [2, 1, 3]) (makeShapeWithDescendingLayout () [1, 1, 2, 3]) ↔
      ProductsFit [2, 1, 3] [1, 1, 2, 3] ∧ Distinguishable [2, 1, 3] [1, 1, 2, 3] :=
  decidesDegenerate_iff (by decide)

theorem not_decidesDegenerate :
    insertedOrDeleted1SizedDimensions (makeShapeWithDescendingLayout () [0, 2]) (makeShapeWithDescendingLayout () [1, 0, 2]) =
      .ok none ∧
    ¬DecidesDegenerate (makeShapeWithDescendingLayout () [0, 2]) (makeShapeWithDescendingLayout () [1, 0, 2]) := by
  have he : insertedOrDeleted1SizedDimensions (makeShapeWithDescendingLayout () [0, 2])
      (makeShapeWithDescendingLayout () [1, 0, 2]) = .ok none := rfl
  refine ⟨he, ?_⟩
  rintro ⟨d?, hd, hiff, -⟩
  obtain rfl := Except.ok.inj (he.symm.trans hd)
  exact absurd (hiff.mpr (by decide)) (by simp)

end Shape
