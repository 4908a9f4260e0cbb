import XlaModel.Lib.DivisorInterval
import XlaModel.Sharding.SubDims

namespace Sharding

namespace ExtractCommonFactorSequence

open ConsecutiveFactors

variable {val c x y : Nat} {fs gs xs ys : List Nat}

def nonOnes (xs : List Nat) : List Nat :=
  xs.filter (· ≠ 1)

theorem nonOnes_one_cons : nonOnes (1 :: xs) = nonOnes xs := by
  simp [nonOnes]

theorem nonOnes_cons (h : x ≠ 1) : nonOnes (x :: xs) = x :: nonOnes xs := by
  simp [nonOnes, h]

theorem one_not_mem_nonOnes : 1 ∉ nonOnes xs := by
  simp [nonOnes]

section Next

theorem nonOnes_next : nonOnes ((next val xs).1 :: (next val xs).2) = nonOnes (val :: xs) := by
  fun_induction next val xs
  case case1      => rfl
  case case2 hi   => rw [hi, nonOnes_one_cons]
  case case3      => rfl

theorem next_pos (h : ∀ x ∈ val :: xs, 0 < x) : ∀ x ∈ (next val xs).1 :: (next val xs).2, 0 < x := by
  fun_induction next val xs
  case case1    => exact h
  case case2 hi => exact hi fun x hx => h x (.tail _ hx)
  case case3    => exact h

theorem next_eq_nil (h : (next val xs).1 = 1) : (next val xs).2 = [] := by
  fun_induction next val xs
  case case1      => rfl
  case case2 hi   => exact hi h
  case case3 hval => exact absurd h hval

end Next

section Step

-- A factor is put in front of the factors of the remaining value.
theorem groups_div (hc : c ∣ x) (hx : 0 < x) (h : Groups fs (nonOnes (x / c :: xs))) :
    Groups (c :: fs) (x :: nonOnes xs) := by
  obtain ⟨d, rfl⟩ := hc
  rw [Nat.mul_div_cancel_left _ (Nat.pos_of_mul_pos_right hx)] at h
  by_cases hd : d = 1
  case pos =>
    subst hd
    rw [nonOnes_one_cons] at h
    simpa using Groups.cons [c] h
  case neg =>
    rw [nonOnes_cons hd] at h
    simpa using Groups.append_left [c] h

theorem eq_nil_of_prod (h₁ : 1 ∉ xs) (h : xs.prod = 1) : xs = [] :=
  List.eq_nil_iff_forall_not_mem.mpr fun _ hx => h₁ (Nat.dvd_one.mp (h ▸ List.dvd_prod hx) ▸ hx)

theorem eq_nil_of_groups (h₁ : 1 ∉ xs) (h : Groups fs xs) (hf : fs.prod = 1) : fs = [] :=
  (eq_nil_of_prod h₁ (h.prod_eq ▸ hf) ▸ h).eq_nil

-- Factors without an effect belong to the next element.
theorem groups_append_left (h₁ : 1 ∉ xs) (h : Groups (fs ++ gs) xs) (hf : fs.prod = 1) (hg : Groups gs ys) :
    Groups (fs ++ gs) ys := by
  cases hg
  case nil =>
    rw [List.append_nil] at h ⊢
    rw [eq_nil_of_groups h₁ h hf]
    exact .nil
  case cons gs ys g hg =>
    rw [←List.append_assoc, show g.prod = (fs ++ g).prod by rw [List.prod_append, hf, one_mul]]
    exact .cons _ hg

-- The smaller one of the first elements is the product of the first factors.
theorem exists_append_of_le (hx : 0 < x) (hle : x ≤ y) (h : Groups fs (x :: nonOnes xs))
    (h' : Groups fs (y :: nonOnes ys)) :
    x ∣ y ∧ ∃ g gs, fs = g ++ gs ∧ g.prod = x ∧ Groups gs (nonOnes xs) ∧ Groups gs (nonOnes (y / x :: ys)) := by
  obtain ⟨g, gs, rfl, rfl, hg⟩ := h.exists_append
  obtain ⟨g', gs', he, rfl, hg'⟩ := h'.exists_append
  obtain ⟨r, rfl, rfl⟩ | ⟨r, rfl, rfl⟩ := List.append_eq_append_iff.mp he
  case inl =>
    rw [List.prod_append, Nat.mul_div_cancel_left _ hx]
    refine ⟨⟨_, rfl⟩, g, _, rfl, rfl, hg, ?_⟩
    by_cases hr : r.prod = 1
    case pos =>
      rw [hr, nonOnes_one_cons]
      exact groups_append_left one_not_mem_nonOnes hg hr hg'
    case neg =>
      rw [nonOnes_cons hr]
      exact .cons r hg'
  case inr =>
    rw [List.prod_append] at hx hle ⊢
    have hr : r.prod = 1 := by
      have := Nat.le_of_mul_le_mul_left (hle.trans_eq (mul_one _).symm) (Nat.pos_of_mul_pos_right hx)
      have := Nat.pos_of_mul_pos_left hx
      omega
    rw [hr, mul_one] at hx ⊢
    rw [Nat.div_self hx, nonOnes_one_cons, List.append_assoc]
    exact ⟨dvd_rfl, g', _, rfl, rfl, groups_append_left one_not_mem_nonOnes hg' hr hg, hg'⟩

end Step

section Loop

def Coarsest (xs ys : List Nat) : Option (List Nat) → Prop
  | some fs => IsCoarsest xs ys fs ∧ 1 ∉ fs
  | none    => ∀ fs, Groups fs xs → ¬Groups fs ys

theorem coarsest_nil : Coarsest [] [] (some []) :=
  ⟨⟨.nil, .nil, fun _ h _ => h⟩, List.not_mem_nil⟩

theorem coarsest_nil_cons (hy : y ≠ 1) : Coarsest [] (y :: ys) none := by
  intro fs h h'
  rw [h.eq_nil] at h'
  obtain ⟨g, gs, he, rfl, _⟩ := h'.exists_append
  exact hy (by simp [(List.append_eq_nil_iff.mp he.symm).1])

variable {result : Option (List Nat)}

theorem Coarsest.symm (h : Coarsest xs ys result) : Coarsest ys xs result := by
  cases result
  case none    => exact fun fs h' h'' => h fs h'' h'
  case some fs => exact ⟨⟨h.1.right, h.1.left, fun gs h' h'' => h.1.coarsest gs h'' h'⟩, h.2⟩

theorem coarsest_of_not_dvd (hx : 0 < x) (hle : x ≤ y) (h : ¬x ∣ y) :
    Coarsest (x :: nonOnes xs) (y :: nonOnes ys) none :=
  fun _ h' h'' => h (exists_append_of_le hx hle h' h'').1

theorem Coarsest.cons (hx : 1 < x) (hle : x ≤ y) (hd : x ∣ y)
    (h : Coarsest (nonOnes xs) (nonOnes (y / x :: ys)) result) :
    Coarsest (x :: nonOnes xs) (y :: nonOnes ys) (result.map (x :: ·)) := by
  have hpos : 0 < x := Nat.zero_lt_of_lt hx
  cases result
  case none =>
    intro fs h' h''
    obtain ⟨_, g, gs, _, _, hg, hg'⟩ := exists_append_of_le hpos hle h' h''
    exact h gs hg hg'
  case some fs =>
    obtain ⟨hc, h₁⟩ := h
    refine ⟨⟨?left, groups_div hd (hpos.trans_le hle) hc.right, fun gs h' h'' => ?coarsest⟩, ?length⟩
    case left => simpa using Groups.cons [x] hc.left
    case coarsest =>
      obtain ⟨_, g, gs, rfl, rfl, hg, hg'⟩ := exists_append_of_le hpos hle h' h''
      exact .cons g (hc.coarsest gs hg hg')
    case length => simp [h₁, hx.ne]

theorem loop_coarsest {val1 val2 : Nat} {array1 array2 : List Nat} (h1 : ∀ x ∈ val1 :: array1, 0 < x)
    (h2 : ∀ x ∈ val2 :: array2, 0 < x) :
    Coarsest (nonOnes (val1 :: array1)) (nonOnes (val2 :: array2)) (loop val1 val2 array1 array2) := by
  fun_induction loop val1 val2 array1 array2
  case case1 val1 val2 array1 array2 s1 s2 h =>
    rw [←@nonOnes_next val1, ←@nonOnes_next val2, next_eq_nil h.1, next_eq_nil h.2, h.1, h.2, nonOnes_one_cons]
    exact coarsest_nil
  case case2 val1 val2 array1 array2 s1 s2 h h' =>
    rw [←@nonOnes_next val1, ←@nonOnes_next val2]
    obtain h' | h' := h'
    case inl =>
      rw [next_eq_nil h', h', nonOnes_one_cons, nonOnes_cons fun h'' => h ⟨h', h''⟩]
      exact coarsest_nil_cons fun h'' => h ⟨h', h''⟩
    case inr =>
      rw [next_eq_nil h', h', nonOnes_one_cons, nonOnes_cons fun h'' => h ⟨h'', h'⟩]
      exact (coarsest_nil_cons fun h'' => h ⟨h'', h'⟩).symm
  case case3 val1 val2 array1 array2 s1 s2 h h' common hc =>
    replace h1 := next_pos h1 _ (.head _)
    replace h2 := next_pos h2 _ (.head _)
    rw [←@nonOnes_next val1, ←@nonOnes_next val2, nonOnes_cons fun h => h' (.inl h), nonOnes_cons fun h => h' (.inr h)]
    obtain hle | hle := le_total (next val1 array1).1 (next val2 array2).1
    case inl =>
      refine coarsest_of_not_dvd h1 hle fun hd => ?_
      rw [show common = s1.1 from min_eq_left hle, Nat.mod_self, Nat.mod_eq_zero_of_dvd hd] at hc
      exact hc.elim h1.ne' (by simp)
    case inr =>
      refine (coarsest_of_not_dvd h2 hle fun hd => ?_).symm
      rw [show common = s2.1 from min_eq_right hle, Nat.mod_self, Nat.mod_eq_zero_of_dvd hd] at hc
      exact hc.elim h2.ne' (by simp)
  case case4 val1 val2 array1 array2 s1 s2 h h' common hc hi =>
    have hp1 := next_pos h1
    have hp2 := next_pos h2
    rw [←@nonOnes_next val1, ←@nonOnes_next val2, nonOnes_cons fun h => h' (.inl h), nonOnes_cons fun h => h' (.inr h)]
    obtain hle | hle := le_total s1.1 s2.1
    case inl =>
      have hm : common = s1.1 := min_eq_left hle
      rw [hm] at hc hi ⊢
      have hpos : 0 < s1.1 := hp1 _ (.head _)
      have hd : s1.1 ∣ s2.1 := by
        simp only [not_or, not_not] at hc
        exact Nat.dvd_of_mod_eq_zero hc.2.2
      rw [Nat.div_self hpos] at hi ⊢
      rw [nonOnes_one_cons] at hi
      refine .cons (by omega) hle hd (hi ?left ?right)
      case left => exact List.forall_mem_cons.mpr ⟨Nat.one_pos, fun x hx => hp1 x (.tail _ hx)⟩
      case right => exact List.forall_mem_cons.mpr ⟨Nat.div_pos hle hpos, fun x hx => hp2 x (.tail _ hx)⟩
    case inr =>
      have hm : common = s2.1 := min_eq_right hle
      rw [hm] at hc hi ⊢
      have hpos : 0 < s2.1 := hp2 _ (.head _)
      have hd : s2.1 ∣ s1.1 := by
        simp only [not_or, not_not] at hc
        exact Nat.dvd_of_mod_eq_zero hc.2.1
      rw [Nat.div_self hpos] at hi ⊢
      rw [nonOnes_one_cons] at hi
      refine (Coarsest.cons (by omega) hle hd (hi ?left ?right).symm).symm
      case left => exact List.forall_mem_cons.mpr ⟨Nat.div_pos hle hpos, fun x hx => hp1 x (.tail _ hx)⟩
      case right => exact List.forall_mem_cons.mpr ⟨Nat.one_pos, fun x hx => hp2 x (.tail _ hx)⟩

end Loop
end ExtractCommonFactorSequence

section ExtractCommonFactorSequence

open ConsecutiveFactors ExtractCommonFactorSequence

variable {array1 array2 fs : List Nat}

-- The factors are grouped consecutively into the entries of both arrays that are not one.
structure CommonFactors (array1 array2 fs : List Nat) : Prop where
  left  : Groups fs (nonOnes array1)
  right : Groups fs (nonOnes array2)

structure ShortestCommonFactors (array1 array2 fs : List Nat) : Prop where
  common   : CommonFactors array1 array2 fs
  refined  : ∀ gs, CommonFactors array1 array2 gs → Groups gs fs
  shortest : ∀ gs, CommonFactors array1 array2 gs → fs.length ≤ gs.length
  unique   : ∀ gs, CommonFactors array1 array2 gs → gs.length = fs.length → gs = fs

theorem extract_coarsest (h1 : ∀ x ∈ array1, 0 < x) (h2 : ∀ x ∈ array2, 0 < x)
    (h : CommonFactors array1 array2 fs) :
    IsCoarsest (nonOnes array1) (nonOnes array2) (extractCommonFactorSequence array1 array2) ∧
      1 ∉ extractCommonFactorSequence array1 array2 := by
  have hc := loop_coarsest (List.forall_mem_cons.mpr ⟨Nat.one_pos, h1⟩) (List.forall_mem_cons.mpr ⟨Nat.one_pos, h2⟩)
  rw [nonOnes_one_cons, nonOnes_one_cons] at hc
  rw [extractCommonFactorSequence]
  cases hl : loop 1 1 array1 array2
  case none =>
    rw [hl] at hc
    exact absurd h.right (hc fs h.left)
  case some fs' =>
    rw [hl] at hc
    exact hc

theorem extract_shortest (h1 : ∀ x ∈ array1, 0 < x) (h2 : ∀ x ∈ array2, 0 < x)
    (h : CommonFactors array1 array2 fs) :
    ShortestCommonFactors array1 array2 (extractCommonFactorSequence array1 array2) := by
  obtain ⟨hc, hone⟩ := extract_coarsest h1 h2 h
  constructor
  case common   => exact ⟨hc.left, hc.right⟩
  case refined  => exact fun gs hg => hc.coarsest gs hg.left hg.right
  case shortest => exact fun gs hg => (hc.shortest hone hg.left hg.right).1
  case unique   => exact fun gs hg => (hc.shortest hone hg.left hg.right).2

theorem extract_eq_nil (h1 : ∀ x ∈ array1, 0 < x) (h2 : ∀ x ∈ array2, 0 < x)
    (h : ∀ fs, ¬CommonFactors array1 array2 fs) : extractCommonFactorSequence array1 array2 = [] := by
  have hc := loop_coarsest (List.forall_mem_cons.mpr ⟨Nat.one_pos, h1⟩) (List.forall_mem_cons.mpr ⟨Nat.one_pos, h2⟩)
  rw [nonOnes_one_cons, nonOnes_one_cons] at hc
  rw [extractCommonFactorSequence]
  cases hl : loop 1 1 array1 array2
  case none => rfl
  case some fs =>
    rw [hl] at hc
    exact absurd ⟨hc.1.left, hc.1.right⟩ (h fs)

theorem extractCommonFactorSequence_shortest (h1 : ∀ x ∈ array1, 0 < x) (h2 : ∀ x ∈ array2, 0 < x) :
    ((∃ fs, CommonFactors array1 array2 fs) →
      ShortestCommonFactors array1 array2 (extractCommonFactorSequence array1 array2)) ∧
    ((∀ fs, ¬CommonFactors array1 array2 fs) → extractCommonFactorSequence array1 array2 = []) ∧
    ((∀ x ∈ array1 ++ array2, x = 1) → extractCommonFactorSequence array1 array2 = []) := by
  refine ⟨?noGroups, extract_eq_nil h1 h2, ?empty⟩
  case noGroups =>
    rintro ⟨fs, h⟩
    exact extract_shortest h1 h2 h
  case empty =>
    intro h
    have hn (xs : List Nat) (hx : ∀ x ∈ xs, x = 1) : nonOnes xs = [] :=
      List.filter_eq_nil_iff.mpr fun x hm => by simp [hx x hm]
    have ha1 := hn array1 fun x hx => h x (List.mem_append_left _ hx)
    have ha2 := hn array2 fun x hx => h x (List.mem_append_right _ hx)
    have hnil : CommonFactors array1 array2 [] := ⟨ha1 ▸ .nil, ha2 ▸ .nil⟩
    exact (ha1 ▸ (extract_coarsest h1 h2 hnil).1.left).eq_nil

theorem extract_ne_nil_iff (h1 : ∀ x ∈ array1, 0 < x) (h2 : ∀ x ∈ array2, 0 < x) :
    extractCommonFactorSequence array1 array2 ≠ [] ↔
      (∃ fs, CommonFactors array1 array2 fs) ∧ ∃ x ∈ array1, x ≠ 1 := by
  constructor
  case mp =>
    intro hn
    have hc : ∃ fs, CommonFactors array1 array2 fs := by
      by_contra h
      exact hn (extract_eq_nil h1 h2 (not_exists.mp h))
    refine ⟨hc, ?_⟩
    by_contra h
    push Not at h
    obtain ⟨fs, hfs⟩ := hc
    have hl := (extract_coarsest h1 h2 hfs).1.left
    rw [show nonOnes array1 = [] from List.filter_eq_nil_iff.mpr fun x hx => by simp [h x hx]] at hl
    exact hn hl.eq_nil
  case mpr =>
    rintro ⟨⟨fs, hfs⟩, x, hx, hx1⟩ hn
    have hl := (extract_coarsest h1 h2 hfs).1.left
    rw [hn] at hl
    have hnil := eq_nil_of_prod one_not_mem_nonOnes (hl.prod_eq.symm.trans List.prod_nil)
    exact List.ne_nil_of_mem (List.mem_filter.mpr ⟨hx, by simpa using hx1⟩) hnil

theorem extractCommonFactorSequence_shortest_six :
    ((∃ fs, CommonFactors [6, 1, 4] [2, 6, 2] fs) →
      ShortestCommonFactors [6, 1, 4] [2, 6, 2] (extractCommonFactorSequence [6, 1, 4] [2, 6, 2])) ∧
    ((∀ fs, ¬CommonFactors [6, 1, 4] [2, 6, 2] fs) → extractCommonFactorSequence [6, 1, 4] [2, 6, 2] = []) ∧
    ((∀ x ∈ [6, 1, 4] ++ [2, 6, 2], x = 1) → extractCommonFactorSequence [6, 1, 4] [2, 6, 2] = []) :=
  extractCommonFactorSequence_shortest (by decide) (by decide)

end ExtractCommonFactorSequence
end Sharding
