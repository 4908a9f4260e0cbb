import Mathlib.Order.Interval.Set.Basic
import Mathlib.Tactic

-- The gaps between intervals of integers that are sorted by their lower bounds, but may overlap.
namespace IntervalGaps

variable {start lo hi s e x : Int} {rest : List (Int × Int)}

-- The first interval has been merged with those before it. The gaps may be empty. Also returns the end of the last
-- interval.
def gaps (start lo hi : Int) : List (Int × Int) → List (Int × Int) × Int
  | []         => ([(start, lo)], hi)
  | p :: rest =>
    if p.1 < hi then
      gaps start lo (max hi p.2) rest
    else
      let (gs, last) := gaps hi p.1 p.2 rest
      ((start, lo) :: gs, last)

def covered (intervals : List (Int × Int)) : Set Int :=
  {x | ∃ p ∈ intervals, p.1 ≤ x ∧ x < p.2}

-- A maximal range without elements of `U`, above `start`.
structure IsGap (U : Set Int) (start s e : Int) : Prop where
  le    : start ≤ s
  lt    : s < e
  free  : ∀ x, s ≤ x → x < e → x ∉ U
  lower : s = start ∨ s - 1 ∈ U
  upper : e ∈ U

structure IsTail (U : Set Int) (start s : Int) : Prop where
  le    : start ≤ s
  free  : ∀ x, s ≤ x → x ∉ U
  lower : s = start ∨ s - 1 ∈ U

structure Ordered (start lo hi : Int) (rest : List (Int × Int)) : Prop where
  start_le : start ≤ lo
  lt       : lo < hi
  sorted   : rest.Pairwise (·.1 ≤ ·.1)
  le       : ∀ p ∈ rest, lo ≤ p.1
  nonempty : ∀ p ∈ rest, p.1 < p.2

theorem mem_covered_cons {p : Int × Int} : x ∈ covered (p :: rest) ↔ (p.1 ≤ x ∧ x < p.2) ∨ x ∈ covered rest := by
  simp [covered]

theorem covered_perm {intervals intervals' : List (Int × Int)} (h : intervals.Perm intervals') :
    covered intervals = covered intervals' := by
  ext x
  simp [covered, h.mem_iff]

section Merge

variable {p : Int × Int}

theorem Ordered.merge (h : Ordered start lo hi (p :: rest)) : Ordered start lo (max hi p.2) rest where
  start_le := h.start_le
  lt       := lt_max_of_lt_left h.lt
  sorted   := (List.pairwise_cons.mp h.sorted).2
  le q hq  := h.le q (.tail _ hq)
  nonempty q hq := h.nonempty q (.tail _ hq)

theorem covered_merge (h : Ordered start lo hi (p :: rest)) (hlt : p.1 < hi) :
    covered ((lo, max hi p.2) :: rest) = covered ((lo, hi) :: p :: rest) := by
  have hle := h.le p (.head _)
  ext x
  simp only [mem_covered_cons, lt_max_iff]
  constructor
  case mp  => grind
  case mpr => grind

theorem Ordered.next (h : Ordered start lo hi (p :: rest)) (hle : hi ≤ p.1) : Ordered hi p.1 p.2 rest where
  start_le := hle
  lt       := h.nonempty p (.head _)
  sorted   := (List.pairwise_cons.mp h.sorted).2
  le       := (List.pairwise_cons.mp h.sorted).1
  nonempty q hq := h.nonempty q (.tail _ hq)

theorem Ordered.le_of_mem (h : Ordered start lo hi rest) (hx : x ∈ covered ((lo, hi) :: rest)) : lo ≤ x := by
  obtain hx | ⟨q, hq, hx⟩ := mem_covered_cons.mp hx
  case inl => exact hx.1
  case inr => exact (h.le q hq).trans hx.1

section Next

variable {rest' : List (Int × Int)} (h : Ordered start lo hi (p :: rest')) (hle : hi ≤ p.1)

include h hle

theorem le_of_mem_next (hx : x ∈ covered (p :: rest')) : hi ≤ x :=
  hle.trans ((h.next hle).le_of_mem hx)

-- The gaps after an interval are those of the remaining intervals.
theorem isGap_next : IsGap (covered ((lo, hi) :: p :: rest')) start s e ↔
    (s = start ∧ e = lo ∧ start < lo) ∨ IsGap (covered (p :: rest')) hi s e := by
  have hstart := h.start_le
  have hlt := h.lt
  have hge := fun x => le_of_mem_next (x := x) h hle
  have hmem := fun x => @mem_covered_cons x (p :: rest') (lo, hi)
  generalize covered ((lo, hi) :: p :: rest') = U at *
  generalize covered (p :: rest') = V at *
  constructor
  case mp =>
    intro hg
    have hlo : ¬(s ≤ lo ∧ lo < e) := fun hse => hg.free lo hse.1 hse.2 ((hmem lo).mpr (.inl ⟨le_rfl, hlt⟩))
    by_cases he : e ≤ lo
    case pos =>
      have hs : s = start := hg.lower.resolve_right fun hs => by
        have hlt := hg.lt
        obtain hs | hs := (hmem _).mp hs
        case inl => omega
        case inr => have := hge _ hs; omega
      obtain he' | he' := (hmem e).mp hg.upper
      case inl => exact .inl ⟨hs, by omega, by have := hg.lt; omega⟩
      case inr => have := hge _ he'; omega
    case neg =>
      have hs : hi ≤ s := by
        by_contra hn
        exact hg.free s le_rfl hg.lt ((hmem s).mpr (.inl ⟨by omega, by omega⟩))
      refine .inr ⟨hs, hg.lt, fun x hx hx' hV => hg.free x hx hx' ((hmem x).mpr (.inr hV)), ?lower, ?upper⟩
      case lower =>
        obtain hl | hl := hg.lower
        case inl => omega
        case inr =>
          obtain hl | hl := (hmem _).mp hl
          case inl => exact .inl (by omega)
          case inr => exact .inr hl
      case upper => exact ((hmem e).mp hg.upper).resolve_left fun hl => by have := hg.lt; omega
  case mpr =>
    rintro (⟨rfl, rfl, hlt'⟩ | hg)
    case inl =>
      refine ⟨le_rfl, hlt', fun x _ hx hU => ?_, .inl rfl, (hmem e).mpr (.inl ⟨le_rfl, hlt⟩)⟩
      obtain hU | hU := (hmem x).mp hU
      case inl => omega
      case inr => have := hge x hU; omega
    case inr =>
      have hs := hg.le
      refine ⟨by omega, hg.lt, fun x hx hx' hU => ?free, .inr ?lower, (hmem e).mpr (.inr hg.upper)⟩
      case free =>
        obtain hU | hU := (hmem x).mp hU
        case inl => omega
        case inr => exact hg.free x hx hx' hU
      case lower =>
        obtain rfl | hl := hg.lower
        case inl => exact (hmem _).mpr (.inl ⟨by omega, by omega⟩)
        case inr => exact (hmem _).mpr (.inr hl)

theorem isTail_next : IsTail (covered ((lo, hi) :: p :: rest')) start s ↔ IsTail (covered (p :: rest')) hi s := by
  have hlt := h.lt
  have hstart := h.start_le
  have hge := fun x => le_of_mem_next (x := x) h hle
  have hmem := fun x => @mem_covered_cons x (p :: rest') (lo, hi)
  generalize covered ((lo, hi) :: p :: rest') = U at *
  generalize covered (p :: rest') = V at *
  constructor
  case mp =>
    intro ht
    have hs : hi ≤ s := by
      by_contra hn
      exact ht.free (hi - 1) (by omega) ((hmem _).mpr (.inl ⟨by omega, by omega⟩))
    refine ⟨hs, fun x hx hV => ht.free x hx ((hmem x).mpr (.inr hV)), ?_⟩
    obtain hl | hl := ht.lower
    case inl => omega
    case inr =>
      obtain hl | hl := (hmem _).mp hl
      case inl => exact .inl (by omega)
      case inr => exact .inr hl
  case mpr =>
    intro ht
    have hs := ht.le
    refine ⟨by omega, fun x hx hU => ?free, .inr ?lower⟩
    case free =>
      obtain hU | hU := (hmem x).mp hU
      case inl => omega
      case inr => exact ht.free x hx hU
    case lower =>
      obtain rfl | hl := ht.lower
      case inl => exact (hmem _).mpr (.inl ⟨by omega, by omega⟩)
      case inr => exact (hmem _).mpr (.inr hl)

end Next
end Merge

section Last

variable (hs : start ≤ lo) (hlt : lo < hi)

include hs hlt

theorem isGap_last : IsGap (covered [(lo, hi)]) start s e ↔ s = start ∧ e = lo ∧ start < lo := by
  have hmem {x : Int} : x ∈ covered [(lo, hi)] ↔ lo ≤ x ∧ x < hi := by simp [covered]
  constructor
  case mp =>
    intro hg
    have he := hmem.mp hg.upper
    have hse := hg.lt
    have hlo : ¬(s ≤ lo ∧ lo < e) := fun h => hg.free lo h.1 h.2 (hmem.mpr ⟨le_rfl, hlt⟩)
    have hsn : ¬(lo ≤ s ∧ s < hi) := fun h => hg.free s le_rfl hse (hmem.mpr h)
    have hsl : s = start := hg.lower.resolve_right fun h => by
      have := hmem.mp h
      omega
    omega
  case mpr =>
    rintro ⟨rfl, rfl, hlt'⟩
    exact ⟨le_rfl, hlt', fun x _ hx hU => by have := hmem.mp hU; omega, .inl rfl, hmem.mpr ⟨le_rfl, hlt⟩⟩

theorem isTail_last : IsTail (covered [(lo, hi)]) start s ↔ s = hi := by
  have hmem {x : Int} : x ∈ covered [(lo, hi)] ↔ lo ≤ x ∧ x < hi := by simp [covered]
  constructor
  case mp =>
    intro ht
    have hge : ¬s ≤ hi - 1 := fun h => ht.free (hi - 1) h (hmem.mpr ⟨by omega, by omega⟩)
    obtain hl | hl := ht.lower
    case inl => omega
    case inr => have := hmem.mp hl; omega
  case mpr =>
    rintro rfl
    exact ⟨by omega, fun x hx hU => by have := hmem.mp hU; omega, .inr (hmem.mpr ⟨by omega, by omega⟩)⟩

end Last

theorem gaps_spec (h : Ordered start lo hi rest) :
    (∀ s e, (s, e) ∈ (gaps start lo hi rest).1 ∧ s < e ↔ IsGap (covered ((lo, hi) :: rest)) start s e) ∧
      ∀ s, s = (gaps start lo hi rest).2 ↔ IsTail (covered ((lo, hi) :: rest)) start s := by
  induction rest generalizing start lo hi
  case nil =>
    constructor
    case left =>
      intro s e
      rw [isGap_last h.start_le h.lt]
      simp only [gaps, List.mem_singleton, Prod.mk.injEq]
      grind
    case right => exact fun s => (isTail_last h.start_le h.lt).symm
  case cons p rest hj =>
    rw [gaps]
    split_ifs with hlt
    case pos =>
      rw [←covered_merge h hlt]
      exact hj h.merge
    case neg =>
      obtain ⟨hg, ht⟩ := hj (h.next (not_lt.mp hlt))
      constructor
      case left =>
        intro s e
        rw [isGap_next h (not_lt.mp hlt), ←hg]
        simp only [List.mem_cons, Prod.mk.injEq]
        grind
      case right => exact fun s => (ht s).trans (isTail_next h (not_lt.mp hlt)).symm

theorem le_gaps (h : Ordered start lo hi rest) : hi ≤ (gaps start lo hi rest).2 := by
  induction rest generalizing start lo hi
  case nil => simp [gaps]
  case cons p rest hj =>
    rw [gaps]
    split_ifs with hlt
    case pos => exact (le_max_left _ _).trans (hj h.merge)
    case neg =>
      have hn := h.next (not_lt.mp hlt)
      exact hn.start_le.trans (hn.lt.le.trans (hj hn))

theorem gaps_ordered (h : Ordered start lo hi rest) :
    (gaps start lo hi rest).1.Pairwise (·.2 < ·.1) ∧
      ∀ g ∈ (gaps start lo hi rest).1, start ≤ g.1 ∧ g.1 ≤ g.2 ∧ g.2 < (gaps start lo hi rest).2 := by
  induction rest generalizing start lo hi
  case nil => simp [gaps, h.start_le, h.lt]
  case cons p rest hj =>
    rw [gaps]
    split_ifs with hlt
    case pos => exact hj h.merge
    case neg =>
      have hn := h.next (not_lt.mp hlt)
      obtain ⟨hp, hb⟩ := hj hn
      have hl := h.lt
      have hs := h.start_le
      have hlast := le_gaps hn
      have hpn := hn.lt
      have hpl := hn.start_le
      refine ⟨List.pairwise_cons.mpr ⟨fun g hg => ?separated, hp⟩, List.forall_mem_cons.mpr ⟨?gap, fun g hg => ?gaps⟩⟩
      case separated =>
        have := hb g hg
        dsimp only
        omega
      case gap =>
        dsimp only
        omega
      case gaps =>
        have := hb g hg
        dsimp only
        omega

end IntervalGaps

-- Sorted lists of half-open intervals of integers that neither overlap nor touch each other.
namespace SeparatedIntervals

variable {α : Type u} (lo hi : α → Int)

structure Separated (xs : List α) : Prop where
  nonempty : ∀ x ∈ xs, lo x < hi x
  pairwise : xs.Pairwise fun x y => hi x < lo y

def covered (xs : List α) : Set Int :=
  {v | ∃ x ∈ xs, lo x ≤ v ∧ v < hi x}

-- A maximal range of members of a set.
structure IsMaximal (F : Set Int) (a b : Int) : Prop where
  lt    : a < b
  mem   : ∀ v, a ≤ v → v < b → v ∈ F
  lower : a - 1 ∉ F
  upper : b ∉ F

variable {lo hi} {xs as bs : List α} {x y : α} {a b v : Int}

theorem covered_append : covered lo hi (as ++ bs) = covered lo hi as ∪ covered lo hi bs := by
  ext v
  simp only [covered, List.mem_append, Set.mem_union, Set.mem_ofPred_eq, or_and_right, exists_or]

theorem covered_cons : covered lo hi (x :: xs) = Set.Ico (lo x) (hi x) ∪ covered lo hi xs := by
  ext v
  simp [covered]

@[simp]
theorem covered_nil : covered lo hi [] = ∅ := by
  simp [covered]

-- The range [a, b) is cut out of the interval in the middle.
theorem middle_sdiff_Ico {A B : Set Int} {l u : Int} (hA : ∀ v ∈ A, v < l) (hB : ∀ v ∈ B, u < v) (hla : l ≤ a)
    (hab : a ≤ b) (hbu : b ≤ u) :
    (A ∪ (Set.Ico l u ∪ B)) \ Set.Ico a b = A ∪ (Set.Ico l a ∪ (Set.Ico b u ∪ B)) := by
  ext v
  have hA := hA v
  have hB := hB v
  simp only [Set.mem_union, Set.mem_sdiff, Set.mem_Ico]
  grind

theorem separated_append : Separated lo hi (as ++ bs) ↔
    Separated lo hi as ∧ Separated lo hi bs ∧ ∀ x ∈ as, ∀ y ∈ bs, hi x < lo y := by
  constructor
  case mp =>
    rintro ⟨hn, hp⟩
    obtain ⟨ha, hb, hab⟩ := List.pairwise_append.mp hp
    exact ⟨⟨fun x hx => hn x (List.mem_append_left _ hx), ha⟩, ⟨fun x hx => hn x (List.mem_append_right _ hx), hb⟩, hab⟩
  case mpr =>
    rintro ⟨ha, hb, hab⟩
    refine ⟨fun x hx => ?_, List.pairwise_append.mpr ⟨ha.pairwise, hb.pairwise, hab⟩⟩
    exact (List.mem_append.mp hx).elim (ha.nonempty x) (hb.nonempty x)

theorem Separated.insert (h : Separated lo hi (as ++ bs)) (hx : lo x < hi x) (ha : ∀ y ∈ as, hi y < lo x)
    (hb : ∀ y ∈ bs, hi x < lo y) : Separated lo hi (as ++ x :: bs) := by
  obtain ⟨hsa, hsb, hab⟩ := separated_append.mp h
  apply separated_append.mpr ⟨hsa, ⟨?_, List.pairwise_cons.mpr ⟨hb, hsb.pairwise⟩⟩, ?_⟩
  case _ => exact List.forall_mem_cons.mpr ⟨hx, hsb.nonempty⟩
  case _ => exact fun y hy => List.forall_mem_cons.mpr ⟨ha y hy, hab y hy⟩

namespace Separated

variable (h : Separated lo hi xs)
include h

-- Different intervals do not touch each other.
theorem eq_or_lt (hx : x ∈ xs) (hy : y ∈ xs) : x = y ∨ hi x < lo y ∨ hi y < lo x := by
  obtain ⟨as, bs, rfl⟩ := List.append_of_mem hx
  obtain ⟨-, hxb, hax⟩ := separated_append.mp h
  obtain hy | hy := List.mem_append.mp hy
  case inl => exact .inr <| .inr <| hax y hy x List.mem_cons_self
  case inr =>
    obtain rfl | hy := List.mem_cons.mp hy
    case inl => exact .inl rfl
    case inr => exact .inr <| .inl <| (List.pairwise_cons.mp hxb.pairwise).1 y hy

theorem hi_notMem_covered (hx : x ∈ xs) : hi x ∉ covered lo hi xs := by
  intro ⟨y, hy, h₁, h₂⟩
  have hn := h.nonempty x hx
  obtain rfl | hlt | hlt := h.eq_or_lt hx hy <;> omega

theorem lo_sub_one_notMem_covered (hx : x ∈ xs) : lo x - 1 ∉ covered lo hi xs := by
  intro ⟨y, hy, h₁, h₂⟩
  have hn := h.nonempty x hx
  obtain rfl | hlt | hlt := h.eq_or_lt hx hy <;> omega

-- A range of covered members lies in one of the intervals.
theorem exists_of_subset (hab : a < b) (hc : ∀ v, a ≤ v → v < b → v ∈ covered lo hi xs) :
    ∃ x ∈ xs, lo x ≤ a ∧ b ≤ hi x := by
  obtain ⟨x, hx, h₁, h₂⟩ := hc a le_rfl hab
  refine ⟨x, hx, h₁, le_of_not_gt fun hlt => ?_⟩
  exact h.hi_notMem_covered hx <| hc (hi x) h₂.le hlt

theorem isMaximal_iff : IsMaximal (covered lo hi xs) a b ↔ ∃ x ∈ xs, lo x = a ∧ hi x = b := by
  constructor
  case mp =>
    intro hm
    obtain ⟨x, hx, ha, hb⟩ := h.exists_of_subset hm.lt hm.mem
    have hlt := hm.lt
    have ha' : ¬lo x < a := fun hl => hm.lower ⟨x, hx, by omega, by omega⟩
    have hb' : ¬b < hi x := fun hl => hm.upper ⟨x, hx, by omega, by omega⟩
    exact ⟨x, hx, by omega, by omega⟩
  case mpr =>
    rintro ⟨x, hx, rfl, rfl⟩
    exact ⟨h.nonempty x hx, fun v h₁ h₂ => ⟨x, hx, h₁, h₂⟩, h.lo_sub_one_notMem_covered hx, h.hi_notMem_covered hx⟩

-- A range without covered members divides the intervals.
theorem split_of_disjoint (hab : a < b) (hd : ∀ v, a ≤ v → v < b → v ∉ covered lo hi xs) :
    ∃ as bs, xs = as ++ bs ∧ (∀ x ∈ as, hi x ≤ a) ∧ ∀ x ∈ bs, b ≤ lo x := by
  induction xs
  case nil => exact ⟨[], [], rfl, by simp, by simp⟩
  case cons x xs hi' =>
    obtain ⟨hlt, hp⟩ := List.pairwise_cons.mp h.pairwise
    have hx := h.nonempty x List.mem_cons_self
    have hxs : Separated lo hi xs := ⟨fun y hy => h.nonempty y (List.mem_cons_of_mem _ hy), hp⟩
    by_cases hle : hi x ≤ a
    case pos =>
      have hd' : ∀ v, a ≤ v → v < b → v ∉ covered lo hi xs := fun v h₁ h₂ hv =>
        hd v h₁ h₂ (covered_cons ▸ .inr hv)
      obtain ⟨as, bs, rfl, ha, hb⟩ := hi' hxs hd'
      exact ⟨x :: as, bs, rfl, List.forall_mem_cons.mpr ⟨hle, ha⟩, hb⟩
    case neg =>
      have hbx : b ≤ lo x := by
        refine le_of_not_gt fun hl => hd (max a (lo x)) (le_max_left _ _) (max_lt hab hl) ?_
        exact ⟨x, List.mem_cons_self, le_max_right _ _, max_lt (not_le.mp hle) hx⟩
      refine ⟨[], x :: xs, rfl, by simp, List.forall_mem_cons.mpr ⟨hbx, fun y hy => ?_⟩⟩
      exact (hbx.trans hx.le).trans (hlt y hy).le

end Separated
end SeparatedIntervals
