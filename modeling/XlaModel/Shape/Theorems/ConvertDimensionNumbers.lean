import XlaModel.Shape.Theorems.AlignLayouts.CommonFactors
import XlaModel.Shape.ConvertDimensionNumbers

namespace Shape

variable {a b p xs : List Nat} {x y z d n : Nat} {bounds : List (Nat × Nat)} {q r : Nat × Nat}

-- The elements from the position `x` up to `y`.
def segment (xs : List Nat) (x y : Nat) : List Nat :=
  (xs.take y).drop x

section Segment

theorem prod_take_mul_segment (h : x ≤ y) : (xs.take x).prod * (segment xs x y).prod = (xs.take y).prod := by
  rw [segment, ←List.prod_append]
  congr 1
  conv_rhs => rw [←List.take_append_drop x (xs.take y), List.take_take, Nat.min_eq_left h]

theorem prod_take_le (h : ∀ d ∈ xs, 0 < d) : (xs.take x).prod ≤ xs.prod := by
  rw [←List.prod_take_mul_prod_drop xs x]
  exact Nat.le_mul_of_pos_right _ (List.prod_pos fun d hd => h d (List.mem_of_mem_drop hd))

theorem segment_append : segment (p ++ xs) (p.length + x) (p.length + y) = segment xs x y := by
  simp [segment, List.take_append, List.drop_append]

end Segment

-- Bounds `r` follow `q`, and the sub-lists between them have the same product.
structure Follows (a b : List Nat) (q r : Nat × Nat) : Prop where
  left  : q.1 ≤ r.1
  right : q.2 ≤ r.2
  ne    : q ≠ r
  prod  : (segment a q.1 r.1).prod = (segment b q.2 r.2).prod

structure IsGrouping (a b : List Nat) (bounds : List (Nat × Nat)) : Prop where
  first : bounds.head? = some (0, 0)
  last  : bounds.getLast? = some (a.length, b.length)
  chain : bounds.IsChain (Follows a b)

theorem follows_of_common (hb : ∀ d ∈ b, 0 < d) (hq : Common a b q.1 q.2) (hr : Common a b r.1 r.2)
    (hl : q.1 ≤ r.1) (hr' : q.2 ≤ r.2) (hne : q ≠ r) : Follows a b q r where
  left  := hl
  right := hr'
  ne    := hne
  prod  := by
    have ha : (a.take q.1).prod * (segment a q.1 r.1).prod = (a.take r.1).prod := prod_take_mul_segment hl
    have hb' : (b.take q.2).prod * (segment b q.2 r.2).prod = (b.take r.2).prod := prod_take_mul_segment hr'
    have hpos : 0 < (b.take q.2).prod := List.prod_pos fun d hd => hb d (List.mem_of_mem_take hd)
    rw [hq.prod, hr.prod, ←hb'] at ha
    exact Nat.eq_of_mul_eq_mul_left hpos ha

namespace CommonFactors

variable {s : State}

-- With positive sizes, the bounds found so far lead to the last one, which neither position has moved back from.
structure Leads (a b : List Nat) (s : State) : Prop where
  le_left  : s.i ≤ a.length
  le_right : s.j ≤ b.length
  scale    : ∃ c, 0 < c ∧ c * s.partialSizeA = (a.take s.i).prod ∧ c * s.partialSizeB = (b.take s.j).prod
  chain    : s.bounds.IsChain (Follows a b)
  start    : s.bounds = [] ∧ s.i = 0 ∧ s.j = 0 ∧ s.priorI = -1 ∧ s.priorJ = -1 ∨
    s.bounds.head? = some (0, 0) ∧ ∃ q, s.bounds.getLast? = some q ∧ q.1 ≤ s.i ∧ q.2 ≤ s.j ∧
      s.priorI = q.1 ∧ s.priorJ = q.2 ∧ Common a b q.1 q.2

namespace Leads

variable (h : Leads a b s) (ha : ∀ d ∈ a, 0 < d) (hb : ∀ d ∈ b, 0 < d)
include h

theorem prod_eq_iff : s.partialSizeA = s.partialSizeB ↔ (a.take s.i).prod = (b.take s.j).prod := by
  obtain ⟨c, hc, h₁, h₂⟩ := h.scale
  rw [← h₁, ← h₂, Nat.mul_right_inj hc.ne']

theorem prod_lt_iff : s.partialSizeA < s.partialSizeB ↔ (a.take s.i).prod < (b.take s.j).prod := by
  obtain ⟨c, hc, h₁, h₂⟩ := h.scale
  rw [← h₁, ← h₂, Nat.mul_lt_mul_left hc]

theorem prod_gt_iff : s.partialSizeB < s.partialSizeA ↔ (b.take s.j).prod < (a.take s.i).prod := by
  obtain ⟨c, hc, h₁, h₂⟩ := h.scale
  rw [← h₁, ← h₂, Nat.mul_lt_mul_left hc]

theorem push (hb : ∀ d ∈ b, 0 < d) (he : s.partialSizeA = s.partialSizeB) (hn : s.i > s.priorI ∨ s.j > s.priorJ) :
    Leads a b { s with priorI := s.i, priorJ := s.j, bounds := s.bounds ++ [(s.i, s.j)] } := by
  have hc : Common a b s.i s.j := ⟨h.le_left, h.le_right, h.prod_eq_iff.mp he⟩
  refine ⟨h.le_left, h.le_right, h.scale, ?chain, .inr ⟨?last, (s.i, s.j), by simp, le_rfl, le_rfl, rfl, rfl, hc⟩⟩
  case chain =>
    refine List.isChain_append.mpr ⟨h.chain, .singleton _, fun q hq r hr => ?_⟩
    obtain rfl : (s.i, s.j) = r := by simpa using hr
    obtain ⟨he, -⟩ | ⟨-, q', hq', hl, hr', hi, hj, hcq⟩ := h.start
    case inl => simp [he] at hq
    case inr =>
      obtain rfl : q' = q := Option.some.inj (hq'.symm.trans hq)
      refine follows_of_common hb hcq hc hl hr' fun he => ?_
      rw [he] at hi hj
      omega
  case last =>
    obtain ⟨he, hi, hj, -⟩ | ⟨hh, -⟩ := h.start
    case inl => simp [he, hi, hj]
    case inr => simp [hh]

-- The first bounds are found before a position moves.
theorem bounds_ne_nil (hn : ¬(s.partialSizeA = s.partialSizeB ∧ (s.i > s.priorI ∨ s.j > s.priorJ))) : s.bounds ≠ [] := by
  intro he
  obtain ⟨-, hi, hj, hpi, -⟩ | ⟨hh, -⟩ := h.start
  case inl =>
    refine hn ⟨h.prod_eq_iff.mpr ?_, .inl (by omega)⟩
    simp [hi, hj]
  case inr => simp [he] at hh

theorem started (hne : s.bounds ≠ []) :
    s.bounds.head? = some (0, 0) ∧ ∃ q, s.bounds.getLast? = some q ∧ q.1 ≤ s.i ∧ q.2 ≤ s.j ∧
      s.priorI = q.1 ∧ s.priorJ = q.2 ∧ Common a b q.1 q.2 :=
  h.start.resolve_left fun he => hne he.1

theorem advanceA (hne : s.bounds ≠ []) (hi : s.i < a.length) :
    Leads a b { s with partialSizeA := s.partialSizeA * a[s.i], i := s.i + 1 } := by
  obtain ⟨c, hc, h₁, h₂⟩ := h.scale
  obtain ⟨hh, q, hq, hl, hr, hprior⟩ := h.started hne
  refine ⟨hi, h.le_right, ⟨c, hc, ?_, h₂⟩, h.chain, .inr ⟨hh, q, hq, Nat.le_succ_of_le hl, hr, hprior⟩⟩
  rw [prod_take_succ hi, ←h₁, Nat.mul_assoc]

theorem advanceB (hne : s.bounds ≠ []) (hj : s.j < b.length) :
    Leads a b { s with partialSizeB := s.partialSizeB * b[s.j], j := s.j + 1 } := by
  obtain ⟨c, hc, h₁, h₂⟩ := h.scale
  obtain ⟨hh, q, hq, hl, hr, hprior⟩ := h.started hne
  refine ⟨h.le_left, hj, ⟨c, hc, h₁, ?_⟩, h.chain, .inr ⟨hh, q, hq, hl, Nat.le_succ_of_le hr, hprior⟩⟩
  rw [prod_take_succ hj, ←h₂, Nat.mul_assoc]

-- The smaller product is not that of all the sizes.
theorem lt_left (hb : ∀ d ∈ b, 0 < d) (hp : a.prod = b.prod) (hlt : s.partialSizeA < s.partialSizeB) : s.i < a.length := by
  refine lt_of_le_of_ne h.le_left fun hi => ?_
  have hlt := h.prod_lt_iff.mp hlt
  rw [hi, List.take_length, hp] at hlt
  exact absurd (prod_take_le hb) (not_le.mpr hlt)

theorem lt_right (ha : ∀ d ∈ a, 0 < d) (hp : a.prod = b.prod) (hlt : s.partialSizeB < s.partialSizeA) : s.j < b.length := by
  refine lt_of_le_of_ne h.le_right fun hj => ?_
  have hlt := h.prod_gt_iff.mp hlt
  rw [hj, List.take_length, ←hp] at hlt
  exact absurd (prod_take_le ha) (not_le.mpr hlt)

theorem advance_spec (ha : ∀ d ∈ a, 0 < d) (hb : ∀ d ∈ b, 0 < d) (hp : a.prod = b.prod) (hne : s.bounds ≠ [])
    (hin : s.i < a.length ∨ s.j < b.length) :
    ∃ s', advance a b s = .ok s' ∧ Leads a b s' ∧ s.i ≤ s'.i ∧ s.j ≤ s'.j ∧ s.i + s.j < s'.i + s'.j := by
  have hnext : (nextA a b s = true → s.i < a.length) ∧ (nextB a b s = true → s.j < b.length) ∧
      (nextA a b s = true ∨ nextB a b s = true) := by
    have hA := h.lt_left hb hp
    have hB := h.lt_right ha hp
    simp only [nextA, nextB, Bool.or_eq_true, Bool.and_eq_true, Bool.not_eq_true', decide_eq_true_eq,
      decide_eq_false_iff_not, beq_iff_eq]
    grind
  obtain ⟨hA, hB, hor⟩ := hnext
  cases hnA : nextA a b s
  case false =>
    have hnB := hor.resolve_left (by simp [hnA])
    refine ⟨_, ?_, h.advanceB hne (hB hnB), by simp⟩
    rw [advance, hnA, hnB, if_neg Bool.false_ne_true]
    exact advanceB_eq (hB hnB)
  case true =>
    have hi := hA hnA
    cases hnB : nextB a b s
    case false =>
      refine ⟨_, ?_, h.advanceA hne hi, by simp⟩
      rw [advance, hnA, hnB, if_pos rfl, advanceA_eq hi]
      rfl
    case true =>
      have hj := hB hnB
      refine ⟨_, ?_, (h.advanceA hne hi).advanceB hne hj, by simp; omega⟩
      rw [advance, hnA, hnB, if_pos rfl, advanceA_eq hi]
      exact advanceB_eq (s := { s with partialSizeA := s.partialSizeA * a[s.i], i := s.i + 1 }) hj

end Leads

theorem loop_leads (ha : ∀ d ∈ a, 0 < d) (hb : ∀ d ∈ b, 0 < d) (hp : a.prod = b.prod) {fuel : Nat} (h : Leads a b s)
    (hf : 2 * ((a.length - s.i) + (b.length - s.j)) + pushes s ≤ fuel) :
    ∃ bounds, loop a b fuel s = .ok bounds ∧ IsGrouping a b bounds := by
  induction fuel generalizing s
  case zero =>
    rw [pushes] at hf
    split_ifs at hf <;> omega
  case succ fuel hi =>
    rw [loop]
    split_ifs with hc hin
    case pos =>
      apply hi (h.push hb hc.1 hc.2)
      simp only [pushes, hc, and_self, if_true, gt_iff_lt, lt_irrefl, or_self, and_false, if_false] at hf ⊢
      omega
    case pos =>
      obtain ⟨s', hs', hl, hi', hj', hlt⟩ := h.advance_spec ha hb hp (h.bounds_ne_nil hc) hin
      have hll := hl.le_left
      have hlr := hl.le_right
      have hps : pushes s' ≤ 2 := by
        rw [pushes]
        split_ifs <;> omega
      have hps' : 1 ≤ pushes s := by
        rw [pushes, if_neg hc]
      rw [hs']
      exact hi hl (by omega)
    case neg =>
      have hl := h.le_left
      have hr := h.le_right
      obtain ⟨hni, hnj⟩ : s.i = a.length ∧ s.j = b.length := by omega
      have he : s.partialSizeA = s.partialSizeB := by
        rw [h.prod_eq_iff, hni, hnj, List.take_length, List.take_length, hp]
      obtain ⟨hh, q, hq, hl, hr, hpi, hpj, -⟩ := h.started (h.bounds_ne_nil hc)
      have hq' : q = (a.length, b.length) := by
        have hn := fun hlt => hc ⟨he, hlt⟩
        ext <;> simp only <;> omega
      exact ⟨_, rfl, hh, hq' ▸ hq, h.chain⟩

theorem loop_start_isGrouping (ha : ∀ d ∈ a, 0 < d) (hb : ∀ d ∈ b, 0 < d) (hp : a.prod = b.prod) {fuel : Nat}
    (hf : 2 * (a.length + b.length) + 2 ≤ fuel) :
    ∃ bounds, loop a b fuel ⟨0, 0, -1, -1, 1, 1, []⟩ = .ok bounds ∧ IsGrouping a b bounds :=
  loop_leads ha hb hp
    ⟨Nat.zero_le _, Nat.zero_le _, ⟨1, Nat.one_pos, by simp⟩, .nil, .inl ⟨rfl, rfl, rfl, rfl, rfl⟩⟩ (by simpa [pushes] using hf)

end CommonFactors

open CommonFactors

section Prefix

theorem isGrouping_nil : IsGrouping [] [] [(0, 0)] where
  first := rfl
  last  := rfl
  chain := .singleton _

theorem isGrouping_whole (hp : a.prod = b.prod) (hne : a ≠ b) : IsGrouping a b [(0, 0), (a.length, b.length)] where
  first := rfl
  last  := rfl
  chain := by
    refine .cons_cons ⟨Nat.zero_le _, Nat.zero_le _, fun he => ?_, by simpa [segment]⟩ (.singleton _)
    simp only [Prod.mk.injEq, eq_comm, List.length_eq_zero_iff] at he
    exact hne (he.1.trans he.2.symm)

-- A common first size makes a group of its own.
theorem IsGrouping.cons (h : IsGrouping a b bounds) : IsGrouping (d :: a) (d :: b) ((0, 0) :: shiftBounds 1 bounds) where
  first := rfl
  last  := by
    rw [List.getLast?_cons, shiftBounds, List.getLast?_map, h.last]
    simp [Nat.add_comm]
  chain := by
    have hs (xs : List Nat) (x y : Nat) : segment (d :: xs) (1 + x) (1 + y) = segment xs x y :=
      @segment_append [d] xs x y
    have hc : (shiftBounds 1 bounds).IsChain (Follows (d :: a) (d :: b)) := by
      refine (List.isChain_map _).mpr (h.chain.imp fun q r hqr => ⟨?left, ?right, fun he => ?injective, ?size⟩)
      case left => exact Nat.add_le_add_left hqr.left 1
      case right => exact Nat.add_le_add_left hqr.right 1
      case injective =>
        simp only [Prod.mk.injEq, Nat.add_left_cancel_iff] at he
        exact hqr.ne (Prod.ext he.1 he.2)
      case size =>
        rw [hs, hs]
        exact hqr.prod
    obtain ⟨bounds, rfl⟩ := List.head?_eq_some_iff.mp h.first
    exact .cons_cons ⟨Nat.zero_le _, Nat.zero_le _, by simp, by simp [segment]⟩ hc

theorem IsGrouping.append (h : IsGrouping a b bounds) :
    IsGrouping (p ++ a) (p ++ b) (diagonal p.length ++ shiftBounds p.length bounds) := by
  induction p
  case nil => simpa [diagonal, shiftBounds] using h
  case cons d p hi =>
    have hd : diagonal (d :: p).length ++ shiftBounds (d :: p).length bounds =
        (0, 0) :: shiftBounds 1 (diagonal p.length ++ shiftBounds p.length bounds) := by
      simp only [List.length_cons, diagonal, List.range_succ_eq_map, shiftBounds, List.map_cons, List.map_append,
        List.map_map, Function.comp_def, List.cons_append, Nat.succ_eq_add_one, Nat.add_comm 1, Nat.add_right_comm _ _ 1]
    rw [hd]
    exact hi.cons

end Prefix

theorem commonFactors_isGrouping (hp : a.prod = b.prod) :
    ∃ bounds, commonFactors a b = .ok bounds ∧ IsGrouping a b bounds := by
  obtain ⟨p, a', b', rfl, rfl, hl⟩ := equalPrefix_spec a b
  rw [commonFactors, check, if_pos (by simpa using hp), hl]
  simp only [pure_bind, List.drop_left]
  split_ifs with hab h₁ h₂
  case pos =>
    obtain rfl : a' = b' := List.append_cancel_left hab
    refine ⟨_, rfl, ?_⟩
    have hg := (@IsGrouping.append [] [] (p ++ a') _ isGrouping_nil)
    simpa [diagonal, shiftBounds, List.range_succ] using hg
  case pos => exact ⟨_, rfl, isGrouping_whole hp hab⟩
  case pos =>
    have hne : a' ≠ b' := fun he => hab (by rw [he])
    refine ⟨_, ?_, (isGrouping_whole (not_not.mp h₁) hne).append⟩
    simp [diagonal, shiftBounds]
    rfl
  case neg =>
    have hn : a'.prod = b'.prod := not_not.mp h₁
    have hA : ∀ d ∈ a', 0 < d := fun d hd => Nat.pos_of_ne_zero fun hz => h₂ (List.prod_eq_zero (hz ▸ hd))
    have hB : ∀ d ∈ b', 0 < d := fun d hd => Nat.pos_of_ne_zero fun hz => h₂ (hn ▸ List.prod_eq_zero (hz ▸ hd))
    have hf : 2 * (a'.length + b'.length) + 2 ≤ 2 * ((p ++ a').length + (p ++ b').length) + 2 := by
      simp only [List.length_append]
      omega
    obtain ⟨bounds, hb, hg⟩ := loop_start_isGrouping hA hB hn hf
    refine ⟨_, ?_, hg.append⟩
    have hs : State.shift (diagonal p.length) p.length ⟨0, 0, -1, -1, 1, 1, []⟩ =
        ⟨p.length, p.length, p.length - 1, p.length - 1, 1, 1, diagonal p.length⟩ := by
      simp [State.shift, shiftBounds, Int.sub_eq_add_neg]
    have hl : loop (p ++ a') (p ++ b') (2 * ((p ++ a').length + (p ++ b').length) + 2)
        (State.shift (diagonal p.length) p.length ⟨0, 0, -1, -1, 1, 1, []⟩) = _ := loop_shift
    rw [hs, hb] at hl
    exact hl

-- The loop ends within the sizes, and the bounds lead from one end to the other. Without ones and zeros they are all
-- the positions of equal products.
theorem commonFactors_finest (hp : a.prod = b.prod) :
    ∃ bounds, commonFactors a b = .ok bounds ∧
      bounds.head? = some (0, 0) ∧ bounds.getLast? = some (a.length, b.length) ∧
      bounds.IsChain (fun q r => q.1 ≤ r.1 ∧ q.2 ≤ r.2 ∧ q ≠ r ∧
        ((a.take r.1).drop q.1).prod = ((b.take r.2).drop q.2).prod) ∧
      ((∀ d ∈ a, 2 ≤ d) → (∀ d ∈ b, 2 ≤ d) →
        ∀ x y, (x, y) ∈ bounds ↔ x ≤ a.length ∧ y ≤ b.length ∧ (a.take x).prod = (b.take y).prod) := by
  obtain ⟨bounds, hb, hg⟩ := commonFactors_isGrouping hp
  refine ⟨bounds, hb, hg.first, hg.last, hg.chain.imp fun q r h => ⟨h.left, h.right, h.ne, h.prod⟩, fun hA hB x y => ?_⟩
  obtain ⟨bounds', hb', hf⟩ := commonFactors_spec (fun d hd => by have := hA d hd; omega)
    (fun d hd => by have := hB d hd; omega) hp
  obtain rfl : bounds = bounds' := Except.ok.inj (hb.symm.trans hb')
  rw [hf.common (List.prod_pos fun d hd => Nat.zero_lt_of_lt (hA d hd))]
  exact ⟨fun h => ⟨h.le_left, h.le_right, h.prod⟩, fun h => ⟨h.1, h.2.1, h.2.2⟩⟩

-- Ones make groups on their own on either side.
theorem commonFactors_finest_ones : ∃ bounds, commonFactors [2, 5, 1, 3] [1, 10, 3, 1] = .ok bounds ∧
    bounds.head? = some (0, 0) := by
  obtain ⟨bounds, hb, hh, -⟩ := commonFactors_finest (a := [2, 5, 1, 3]) (b := [1, 10, 3, 1]) (by decide)
  exact ⟨bounds, hb, hh⟩

end Shape

namespace Shape

open ConvertDimensionNumbers

variable {fromDimensions fromSizes toSizes toDims toDimensions : List Nat} {fromSize fromSize' x y : Nat}
  {bounds nextBounds : Nat × Nat} {factors : List (Nat × Nat)} {dimensions dimensions' : ConvertedDimensionNumbers}

-- The number of elements in some dimensions.
def elements (sizes dims : List Nat) : Nat :=
  (dims.map (sizes.getD · 0)).prod

section Elements

variable {sizes dims dims' : List Nat} {d : Nat}

@[simp]
theorem elements_nil : elements sizes [] = 1 :=
  rfl

@[simp]
theorem elements_cons : elements sizes (d :: dims) = sizes.getD d 0 * elements sizes dims :=
  List.prod_cons

@[simp]
theorem elements_append : elements sizes (dims ++ dims') = elements sizes dims * elements sizes dims' := by
  rw [elements, List.map_append, List.prod_append]
  rfl

theorem elements_perm (h : dims.Perm dims') : elements sizes dims = elements sizes dims' :=
  (h.map _).prod_eq

theorem elements_range' (h : y ≤ sizes.length) : elements sizes (List.range' x (y - x)) = (segment sizes x y).prod := by
  rw [elements]
  congr 1
  apply List.ext_getElem
  case hl => simp [segment, h]
  case h =>
    intro i h₁ h₂
    simp only [List.length_map, List.length_range'] at h₁
    have hi : x + i < sizes.length := by omega
    simp [segment, hi]

end Elements

section SplitDimension

variable {d : Nat}

theorem splitDimension_cons (hd : d < toSizes.length) : splitDimension toSizes (d :: toDims) fromSize =
    if toSizes.getD d 0 = 0 then .error .check
    else if fromSize % toSizes.getD d 0 = 0 then
      (splitDimension toSizes toDims (fromSize / toSizes.getD d 0)).map fun r => (r.1, d :: r.2)
    else .ok (fromSize, []) := by
  rw [splitDimension, List.getElem?_eq_getElem hd, List.getD_eq_getElem _ _ hd]
  by_cases hz : toSizes[d] = 0
  case pos => simp [required, check, hz, throw, throwThe, MonadExceptOf.throw, bind, Except.bind, pure, Except.pure]
  case neg =>
    simp only [required, check, hz, ne_eq, not_false_eq_true, decide_true, if_true, if_false, pure_bind]
    split_ifs
    case neg => rfl
    case pos => cases splitDimension toSizes toDims (fromSize / toSizes[d]) <;> rfl

theorem splitDimension_spec (hlt : ∀ d ∈ toDims, d < toSizes.length)
    (h : splitDimension toSizes toDims fromSize = .ok (fromSize', toDimensions)) :
    toDimensions <+: toDims ∧ elements toSizes toDimensions * fromSize' = fromSize := by
  induction toDims generalizing fromSize toDimensions
  case nil =>
    cases h
    exact ⟨List.prefix_rfl, by simp⟩
  case cons d toDims hi =>
    obtain ⟨hd, hlt⟩ := List.forall_mem_cons.mp hlt
    rw [splitDimension_cons hd] at h
    split_ifs at h with hz hm
    case neg =>
      cases h
      exact ⟨List.nil_prefix, by simp⟩
    case pos =>
      cases hs : splitDimension toSizes toDims (fromSize / toSizes.getD d 0)
      case error =>
        rw [hs] at h
        cases h
      case ok r =>
        rw [hs] at h
        cases h
        obtain ⟨hp, he⟩ := hi hlt hs
        refine ⟨List.cons_prefix_cons.mpr ⟨rfl, hp⟩, ?_⟩
        rw [elements_cons, Nat.mul_assoc, he, Nat.mul_div_cancel' (Nat.dvd_of_mod_eq_zero hm)]

-- A division traps if and only if what precedes a dimension without elements is divided off.
theorem splitDimension_isOk_iff (hlt : ∀ d ∈ toDims, d < toSizes.length) :
    (∃ r, splitDimension toSizes toDims fromSize = .ok r) ↔
    ∀ pre d post, toDims = pre ++ d :: post → toSizes.getD d 0 = 0 → ¬elements toSizes pre ∣ fromSize := by
  induction toDims generalizing fromSize
  case nil => simp [splitDimension, pure, Except.pure]
  case cons d toDims hi =>
    obtain ⟨hd, hlt⟩ := List.forall_mem_cons.mp hlt
    rw [splitDimension_cons hd]
    split_ifs with hz hm
    case pos =>
      refine iff_of_false (by simp) fun h => ?_
      exact h [] d toDims rfl hz (by simp)
    case pos =>
      have hdvd := Nat.dvd_of_mod_eq_zero hm
      have hmap : (∃ r, (splitDimension toSizes toDims (fromSize / toSizes.getD d 0)).map
          (fun r => (r.1, d :: r.2)) = .ok r) ↔ ∃ r, splitDimension toSizes toDims (fromSize / toSizes.getD d 0) = .ok r := by
        cases splitDimension toSizes toDims (fromSize / toSizes.getD d 0) <;> simp [Except.map]
      rw [hmap, hi hlt]
      constructor
      case mp =>
        intro h pre e post he hez
        cases pre
        case nil => exact absurd ((List.cons.inj he).1 ▸ hez) hz
        case cons c pre =>
          obtain ⟨rfl, hds⟩ := List.cons.inj he
          rw [elements_cons, ←Nat.dvd_div_iff_mul_dvd hdvd]
          exact h pre e post hds hez
      case mpr =>
        intro h pre e post he hez
        rw [Nat.dvd_div_iff_mul_dvd hdvd, ←elements_cons]
        exact h (d :: pre) e post (by rw [he]; rfl) hez
    case neg =>
      refine iff_of_true ⟨_, rfl⟩ fun pre e post he hez hdvd => ?_
      cases pre
      case nil => exact hz ((List.cons.inj he).1 ▸ hez)
      case cons c pre =>
        obtain ⟨rfl, -⟩ := List.cons.inj he
        rw [elements_cons] at hdvd
        exact hm (Nat.mod_eq_zero_of_dvd (dvd_of_mul_right_dvd hdvd))

end SplitDimension

-- A group of two dimensions of which the second one is listed does not divide by zero.
def TrapFree (fromDimensions fromSizes toSizes : List Nat) (bounds nextBounds : Nat × Nat) : Prop :=
  bounds.1 + 2 = nextBounds.1 → bounds.1 ∉ fromDimensions → bounds.1 + 1 ∈ fromDimensions →
    ∀ d, bounds.2 ≤ d → d < nextBounds.2 → toSizes.getD d 0 = 0 →
      ¬(segment toSizes (d + 1) nextBounds.2).prod ∣ fromSizes.getD (bounds.1 + 1) 0

-- What holds of the conversion of the dimensions in front of the bounds.
structure ConvertsUpTo (fromDimensions fromSizes toSizes : List Nat) (bounds : Nat × Nat)
    (dimensions : ConvertedDimensionNumbers) : Prop where
  perm     : (dimensions.transformedFromDimensions ++ dimensions.untransformedFromDimensions).Perm
    (fromDimensions.filter (· < bounds.1))
  lt       : ∀ d ∈ dimensions.toDimensions, d < bounds.2
  nodup    : dimensions.toDimensions.Nodup
  product  : elements toSizes dimensions.toDimensions * dimensions.splitFromSizes.prod =
    elements fromSizes dimensions.transformedFromDimensions * elements fromSizes dimensions.splitFromDimensions

section Group

-- What precedes an element of a descending range are the larger ones.
theorem forall_reverse_range'_iff {n : Nat} (hxy : x + n = y) {P : List Nat → Nat → Prop} :
    (∀ pre d post, (List.range' x n).reverse = pre ++ d :: post → P pre d) ↔
    ∀ d, x ≤ d → d < y → P (List.range' (d + 1) (y - (d + 1))).reverse d := by
  constructor
  case mp =>
    intro h d hx hy
    apply h _ d (List.range' x (d - x)).reverse
    have hr : List.range' x n = List.range' x (d - x) ++ d :: List.range' (d + 1) (y - (d + 1)) := by
      apply List.range'_eq_append_iff.mpr ⟨d - x, by omega, rfl, ?_⟩
      exact (List.range'_eq_cons_iff.mpr ⟨by omega, by omega, by congr 1; omega⟩).symm
    simp [hr]
  case mpr =>
    intro h pre d post he
    have hr : List.range' x n = post.reverse ++ d :: pre.reverse := by
      rw [←List.reverse_inj, he]
      simp
    obtain ⟨k, hk, -, hd⟩ := List.range'_eq_append_iff.mp hr
    obtain ⟨rfl, hpos, hpre⟩ := List.range'_eq_cons_iff.mp hd.symm
    have hy : n - k - 1 = y - (x + k + 1) := by omega
    rw [←List.reverse_reverse pre, hpre, hy, Nat.mul_one]
    exact h (x + k) (by omega) (by omega)

theorem filter_perm (hn : fromDimensions.Nodup) (hle : x ≤ y) :
    (fromDimensions.filter (· < y)).Perm
      (fromDimensions.filter (· < x) ++ (List.range' x (y - x)).filter (· ∈ fromDimensions)) := by
  have hd : (fromDimensions.filter (· < x) ++ (List.range' x (y - x)).filter (· ∈ fromDimensions)).Nodup := by
    refine List.nodup_append.mpr ⟨hn.filter _, List.Nodup.filter _ List.nodup_range', fun d hd e he hde => ?_⟩
    simp only [List.mem_filter, decide_eq_true_eq, List.mem_range'_1] at hd he
    omega
  apply (List.perm_ext_iff_of_nodup (hn.filter _) hd).mpr
  intro d
  simp only [List.mem_append, List.mem_filter, decide_eq_true_eq, List.mem_range'_1]
  grind

variable (hf : Follows fromSizes toSizes bounds nextBounds) (hle : nextBounds.1 ≤ fromSizes.length)
  (hle' : nextBounds.2 ≤ toSizes.length)
include hf hle hle'

omit hle in
theorem splitDimension_group_iff : (∃ r, splitDimension toSizes
      (List.range' bounds.2 (nextBounds.2 - bounds.2)).reverse (fromSizes.getD (bounds.1 + 1) 0) = .ok r) ↔
    ∀ d, bounds.2 ≤ d → d < nextBounds.2 → toSizes.getD d 0 = 0 →
      ¬(segment toSizes (d + 1) nextBounds.2).prod ∣ fromSizes.getD (bounds.1 + 1) 0 := by
  have hright := hf.right
  have hlt : ∀ d ∈ (List.range' bounds.2 (nextBounds.2 - bounds.2)).reverse, d < toSizes.length := by
    intro d hd
    simp only [List.mem_reverse, List.mem_range'_1] at hd
    omega
  rw [splitDimension_isOk_iff hlt, @forall_reverse_range'_iff bounds.2 nextBounds.2 _ (by omega)
    fun pre d => toSizes.getD d 0 = 0 → ¬elements toSizes pre ∣ fromSizes.getD (bounds.1 + 1) 0]
  simp only [elements_perm (List.reverse_perm _), elements_range' hle']

omit hle hle' in
-- The untransformed dimensions of a group.
theorem ConvertsUpTo.untransform (hn : fromDimensions.Nodup)
    (h : ConvertsUpTo fromDimensions fromSizes toSizes bounds dimensions)
    (hto : ∀ d ∈ toDims, bounds.2 ≤ d ∧ d < nextBounds.2) (hnd : toDims.Nodup) {splits sizes : List Nat}
    (he : elements toSizes toDims * sizes.prod = elements fromSizes splits) :
    ConvertsUpTo fromDimensions fromSizes toSizes nextBounds
      { dimensions with
        toDimensions                := dimensions.toDimensions ++ toDims
        splitFromSizes              := dimensions.splitFromSizes ++ sizes
        splitFromDimensions         := dimensions.splitFromDimensions ++ splits
        untransformedFromDimensions := dimensions.untransformedFromDimensions ++
          (List.range' bounds.1 (nextBounds.1 - bounds.1)).filter (· ∈ fromDimensions) } where
  perm := by
    rw [←List.append_assoc]
    exact (h.perm.append_right _).trans (filter_perm hn hf.left).symm
  lt := by
    intro d hd
    obtain hd | hd := List.mem_append.mp hd
    case inl => exact (h.lt d hd).trans_le hf.right
    case inr => exact (hto d hd).2
  nodup := by
    refine List.nodup_append.mpr ⟨h.nodup, hnd, fun d hd e he hde => ?_⟩
    have hlt := h.lt d hd
    have hle := (hto e he).1
    omega
  product := by
    rw [elements_append, elements_append, List.prod_append, Nat.mul_mul_mul_comm, h.product, he, Nat.mul_assoc]

theorem ConvertsUpTo.transform (hn : fromDimensions.Nodup)
    (h : ConvertsUpTo fromDimensions fromSizes toSizes bounds dimensions)
    (hall : ∀ d ∈ List.range' bounds.1 (nextBounds.1 - bounds.1), d ∈ fromDimensions) :
    ConvertsUpTo fromDimensions fromSizes toSizes nextBounds
      { dimensions with
        toDimensions              := dimensions.toDimensions ++ List.range' bounds.2 (nextBounds.2 - bounds.2)
        transformedFromDimensions :=
          dimensions.transformedFromDimensions ++ List.range' bounds.1 (nextBounds.1 - bounds.1) } where
  perm := by
    have hfilter : (List.range' bounds.1 (nextBounds.1 - bounds.1)).filter (· ∈ fromDimensions) =
        List.range' bounds.1 (nextBounds.1 - bounds.1) := List.filter_eq_self.mpr (by simpa using hall)
    have hp := (filter_perm hn hf.left).symm
    rw [hfilter] at hp
    refine List.Perm.trans ?_ ((h.perm.append_right _).trans hp)
    rw [List.append_assoc, List.append_assoc]
    exact List.perm_append_comm.append_left _
  lt := by
    intro d hd
    obtain hd | hd := List.mem_append.mp hd
    case inl => exact (h.lt d hd).trans_le hf.right
    case inr =>
      have hd := (List.mem_range'_1.mp hd).2
      have hright := hf.right
      omega
  nodup := by
    refine List.nodup_append.mpr ⟨h.nodup, List.nodup_range', fun d hd e he hde => ?_⟩
    have hlt := h.lt d hd
    have hle := (List.mem_range'_1.mp he).1
    omega
  product := by
    rw [elements_append, elements_append, elements_range' hle, elements_range' hle', hf.prod, Nat.mul_right_comm,
      h.product, Nat.mul_right_comm]

theorem convertGroup_spec (hn : fromDimensions.Nodup)
    (h : ConvertsUpTo fromDimensions fromSizes toSizes bounds dimensions) :
    (TrapFree fromDimensions fromSizes toSizes bounds nextBounds →
      ∃ dimensions', convertGroup fromDimensions fromSizes toSizes bounds nextBounds dimensions = .ok dimensions' ∧
        ConvertsUpTo fromDimensions fromSizes toSizes nextBounds dimensions') ∧
    (¬TrapFree fromDimensions fromSizes toSizes bounds nextBounds →
      ∃ e, convertGroup fromDimensions fromSizes toSizes bounds nextBounds dimensions = .error e) := by
  obtain ⟨group, hg⟩ : ∃ group, group = List.range' bounds.1 (nextBounds.1 - bounds.1) := ⟨_, rfl⟩
  by_cases hall : group.all (· ∈ fromDimensions) = true
  case pos =>
    have hmem : ∀ d ∈ group, d ∈ fromDimensions := by simpa using hall
    have htrap : TrapFree fromDimensions fromSizes toSizes bounds nextBounds := fun h₁ h₂ =>
      absurd (hmem bounds.1 (hg ▸ List.mem_range'_1.mpr (by omega))) h₂
    refine ⟨fun _ => ⟨_, ?_, h.transform hf hle hle' hn (hg ▸ hmem)⟩, absurd htrap⟩
    simp only [convertGroup, ←hg, hall, if_true]
    rfl
  case neg =>
    have hplain := @ConvertsUpTo.untransform _ _ _ [] _ _ _ hf hn h (by simp) .nil [] [] rfl
    simp only [List.append_nil] at hplain
    by_cases hany : group.any (· ∈ fromDimensions) = true
    case neg =>
      have hnone : ∀ d ∈ group, d ∉ fromDimensions := by simpa using hany
      have htrap : TrapFree fromDimensions fromSizes toSizes bounds nextBounds := fun h₁ _ h₃ =>
        absurd h₃ (hnone _ (hg ▸ List.mem_range'_1.mpr (by omega)))
      have hfilter : group.filter (· ∈ fromDimensions) = [] := List.filter_eq_nil_iff.mpr (by simpa using hnone)
      rw [←hg, hfilter] at hplain
      refine ⟨fun _ => ⟨dimensions, ?_, by simpa using hplain⟩, absurd htrap⟩
      simp only [convertGroup, ←hg, hall, hany, if_false, Bool.false_eq_true]
      rfl
    case pos =>
      by_cases hsplit : bounds.1 + 2 = nextBounds.1 ∧ bounds.1 + 1 ∈ fromDimensions
      case neg =>
        have htrap : TrapFree fromDimensions fromSizes toSizes bounds nextBounds := fun h₁ _ h₃ => absurd ⟨h₁, h₃⟩ hsplit
        refine ⟨fun _ => ⟨_, ?_, hplain⟩, absurd htrap⟩
        simp only [convertGroup, ←hg, hall, hany, hsplit, if_true, if_false, Bool.false_eq_true]
        rfl
      case pos =>
        have hfirst : bounds.1 ∉ fromDimensions := by
          intro hm
          refine hall (List.all_eq_true.mpr fun d hd => ?_)
          have hd := List.mem_range'_1.mp (hg ▸ hd)
          obtain rfl | rfl : d = bounds.1 ∨ d = bounds.1 + 1 := by omega
          case inl => simpa using hm
          case inr => simpa using hsplit.2
        have htrap : TrapFree fromDimensions fromSizes toSizes bounds nextBounds ↔ ∃ r, splitDimension toSizes
            (List.range' bounds.2 (nextBounds.2 - bounds.2)).reverse (fromSizes.getD (bounds.1 + 1) 0) = .ok r := by
          rw [splitDimension_group_iff hf hle']
          exact ⟨fun h => h hsplit.1 hfirst hsplit.2, fun h _ _ _ => h⟩
        have hreq : fromSizes[nextBounds.1 - 1]? = some (fromSizes.getD (bounds.1 + 1) 0) := by
          have hidx : nextBounds.1 - 1 = bounds.1 + 1 := by omega
          have hlt : bounds.1 + 1 < fromSizes.length := by omega
          rw [hidx, List.getElem?_eq_getElem hlt, List.getD_eq_getElem _ _ hlt]
        have hright := hf.right
        have hmem : ∀ d ∈ (List.range' bounds.2 (nextBounds.2 - bounds.2)).reverse, bounds.2 ≤ d ∧ d < nextBounds.2 := by
          intro d hd
          simp only [List.mem_reverse, List.mem_range'_1] at hd
          omega
        rw [htrap]
        simp only [convertGroup, ←hg, hall, hany, hsplit, and_self, if_true, if_false, Bool.false_eq_true, hreq, required,
          pure_bind]
        cases hs : splitDimension toSizes (List.range' bounds.2 (nextBounds.2 - bounds.2)).reverse
          (fromSizes.getD (bounds.1 + 1) 0)
        case error e => exact ⟨fun ⟨r, hr⟩ => (by cases hr), fun _ => ⟨e, rfl⟩⟩
        case ok r =>
          refine ⟨fun _ => ?_, fun hne => absurd ⟨r, rfl⟩ hne⟩
          obtain ⟨fromSize, toDims⟩ := r
          obtain ⟨hp, he⟩ := splitDimension_spec (fun d hd => (hmem d hd).2.trans_le hle') hs
          by_cases hnil : toDims = []
          case pos => exact ⟨_, by simp only [hnil]; rfl, hg ▸ hplain⟩
          case neg =>
            have hconv := @ConvertsUpTo.untransform _ _ _ toDims _ _ _ hf hn h (fun d hd => hmem d (hp.subset hd))
              ((List.nodup_reverse.mpr List.nodup_range').sublist hp.sublist) [bounds.1 + 1] [fromSize] (by simpa using he)
            refine ⟨_, ?_, hg ▸ hconv⟩
            simp only [bind, Except.bind, ne_eq, hnil, not_false_eq_true, if_true]
            rfl

end Group

section Groups

variable {last : Nat × Nat}

theorem follows_le (hc : (bounds :: factors).IsChain (Follows fromSizes toSizes))
    (hl : (bounds :: factors).getLast? = some last) : bounds.1 ≤ last.1 ∧ bounds.2 ≤ last.2 := by
  induction factors generalizing bounds
  case nil =>
    obtain rfl : bounds = last := by simpa using hl
    exact ⟨le_rfl, le_rfl⟩
  case cons nextBounds factors hi =>
    obtain ⟨hf, hc⟩ := List.isChain_cons_cons.mp hc
    obtain ⟨h₁, h₂⟩ := hi hc (by simpa using hl)
    exact ⟨hf.left.trans h₁, hf.right.trans h₂⟩

theorem convertGroups_spec (hn : fromDimensions.Nodup)
    (hc : (bounds :: factors).IsChain (Follows fromSizes toSizes))
    (hl : (bounds :: factors).getLast? = some (fromSizes.length, toSizes.length))
    (h : ConvertsUpTo fromDimensions fromSizes toSizes bounds dimensions) :
    ((∀ lo hi, [lo, hi] <:+: bounds :: factors → TrapFree fromDimensions fromSizes toSizes lo hi) →
      ∃ dimensions', convertGroups fromDimensions fromSizes toSizes (bounds :: factors) dimensions = .ok dimensions' ∧
        ConvertsUpTo fromDimensions fromSizes toSizes (fromSizes.length, toSizes.length) dimensions') ∧
    (¬(∀ lo hi, [lo, hi] <:+: bounds :: factors → TrapFree fromDimensions fromSizes toSizes lo hi) →
      ∃ e, convertGroups fromDimensions fromSizes toSizes (bounds :: factors) dimensions = .error e) := by
  induction factors generalizing bounds dimensions
  case nil =>
    obtain rfl : bounds = (fromSizes.length, toSizes.length) := by simpa using hl
    have hnone {lo hi : Nat × Nat} : ¬[lo, hi] <:+: [(fromSizes.length, toSizes.length)] := fun hinf => by
      simpa using hinf.length_le
    exact ⟨fun _ => ⟨dimensions, rfl, h⟩, fun hne => absurd (fun _ _ hinf => absurd hinf hnone) hne⟩
  case cons nextBounds factors hi =>
    obtain ⟨hf, hc⟩ := List.isChain_cons_cons.mp hc
    have hl : (nextBounds :: factors).getLast? = some (fromSizes.length, toSizes.length) := by simpa using hl
    obtain ⟨hle, hle'⟩ := follows_le hc hl
    have hinf {lo hi : Nat × Nat} : [lo, hi] <:+: bounds :: nextBounds :: factors ↔
        (lo = bounds ∧ hi = nextBounds) ∨ [lo, hi] <:+: nextBounds :: factors := by
      rw [List.infix_cons_iff, List.cons_prefix_cons, List.cons_prefix_cons]
      simp
    have hsplit : (∀ lo hi, [lo, hi] <:+: bounds :: nextBounds :: factors →
          TrapFree fromDimensions fromSizes toSizes lo hi) ↔
        TrapFree fromDimensions fromSizes toSizes bounds nextBounds ∧
          ∀ lo hi, [lo, hi] <:+: nextBounds :: factors → TrapFree fromDimensions fromSizes toSizes lo hi := by
      simp only [hinf]
      constructor
      case mp  => exact fun h => ⟨h _ _ (.inl ⟨rfl, rfl⟩), fun lo hi hm => h lo hi (.inr hm)⟩
      case mpr =>
        rintro ⟨ht, hr⟩ lo hi (⟨rfl, rfl⟩ | hm)
        case inl => exact ht
        case inr => exact hr lo hi hm
    obtain ⟨hok, herr⟩ := convertGroup_spec hf hle hle' hn h
    rw [hsplit, convertGroups]
    by_cases ht : TrapFree fromDimensions fromSizes toSizes bounds nextBounds
    case neg =>
      obtain ⟨e, he⟩ := herr ht
      rw [he]
      exact ⟨fun h => absurd h.1 ht, fun _ => ⟨e, rfl⟩⟩
    case pos =>
      obtain ⟨dimensions', he, h'⟩ := hok ht
      obtain ⟨hok', herr'⟩ := hi hc hl h'
      rw [he]
      exact ⟨fun h => hok' h.2, fun h => herr' fun hr => h ⟨ht, hr⟩⟩

end Groups

-- Every dimension is transformed or not, and what is transformed has as many elements on either side.
structure Converts (fromDimensions fromSizes toSizes : List Nat) (dimensions : ConvertedDimensionNumbers) : Prop where
  perm    : (dimensions.transformedFromDimensions ++ dimensions.untransformedFromDimensions).Perm fromDimensions
  sorted  : dimensions.toDimensions.Pairwise (· < ·)
  product : elements toSizes dimensions.toDimensions * dimensions.splitFromSizes.prod =
    elements fromSizes dimensions.transformedFromDimensions * elements fromSizes dimensions.splitFromDimensions

-- The conversion is safe if and only if no product overflows and no group of the common factors divides by zero.
theorem convertDimensionNumbers_iff (hp : fromSizes.prod = toSizes.prod) (hn : fromDimensions.Nodup)
    (hlt : ∀ d ∈ fromDimensions, d < fromSizes.length) :
    (∃ dimensions, convertDimensionNumbers fromDimensions fromSizes toSizes = .ok dimensions ∧
      Converts fromDimensions fromSizes toSizes dimensions) ↔
    CommonFactors.ProductsFit fromSizes toSizes ∧
      ∀ bounds, commonFactors fromSizes toSizes = .ok bounds → ∀ lo hi, [lo, hi] <:+: bounds →
        TrapFree fromDimensions fromSizes toSizes lo hi := by
  by_cases hf : CommonFactors.ProductsFit fromSizes toSizes
  case neg =>
    rw [convertDimensionNumbers, commonFactorsInt64_of_not_fits hf]
    exact iff_of_false (by simp [bind, Except.bind]) fun h => hf h.1
  rw [and_iff_right hf]
  obtain ⟨bounds, hb, hg⟩ := commonFactors_isGrouping hp
  obtain ⟨rest, rfl⟩ := List.head?_eq_some_iff.mp hg.first
  have hstart : ConvertsUpTo fromDimensions fromSizes toSizes (0, 0) {} :=
    ⟨by simp, by simp, .nil, rfl⟩
  obtain ⟨hok, herr⟩ := convertGroups_spec hn hg.chain hg.last hstart
  simp only [hb, Except.ok.injEq, forall_eq']
  rw [convertDimensionNumbers, commonFactorsInt64_of_fits hf, hb]
  constructor
  case mp =>
    rintro ⟨dimensions, he, -⟩
    by_contra htrap
    obtain ⟨e, herr⟩ := herr htrap
    simp [herr, bind, Except.bind] at he
  case mpr =>
    intro htrap
    obtain ⟨dimensions, he, h⟩ := hok htrap
    refine ⟨{ dimensions with toDimensions := dimensions.toDimensions.insertionSort (· ≤ ·) }, ?ok, ?perm, ?sorted, ?product⟩
    case ok => simp [he, bind, Except.bind, pure, Except.pure]
    case perm =>
      have hfilter : fromDimensions.filter (· < fromSizes.length) = fromDimensions :=
        List.filter_eq_self.mpr (by simpa using hlt)
      exact hfilter ▸ h.perm
    case sorted =>
      have hs := List.pairwise_insertionSort (· ≤ ·) dimensions.toDimensions
      have hd := (List.perm_insertionSort (· ≤ ·) dimensions.toDimensions).nodup_iff.mpr h.nodup
      exact (hs.and hd).imp fun h => lt_of_le_of_ne h.1 h.2
    case product =>
      rw [elements_perm (List.perm_insertionSort _ _)]
      exact h.product

theorem convertDimensionNumbers_iff_split : ∃ dimensions,
    convertDimensionNumbers [1] [2, 32] [4, 4, 4] = .ok dimensions ∧ Converts [1] [2, 32] [4, 4, 4] dimensions := by
  refine (convertDimensionNumbers_iff (by rfl) (by simp) (by simp)).mpr ⟨by decide, ?_⟩
  intro bounds hb lo hi hinf _ _ _ d hd hlt hz
  have he : commonFactors [2, 32] [4, 4, 4] = .ok [(0, 0), (2, 3)] := by rfl
  obtain rfl := Except.ok.inj (he.symm.trans hb)
  have hlast : hi ∈ [(0, 0), (2, 3)] := hinf.subset (by simp)
  have hd : d < 3 := by
    simp only [List.mem_cons, List.not_mem_nil, or_false] at hlast
    obtain rfl | rfl := hlast <;> omega
  interval_cases d <;> simp at hz

-- The size 0 is divided by the size 3 of the last dimension, and then by the size 0 of the first one.
theorem not_convertDimensionNumbers : [2, 0].prod = [0, 3].prod ∧
    ¬∃ dimensions, convertDimensionNumbers [1] [2, 0] [0, 3] = .ok dimensions := by
  have he : convertDimensionNumbers [1] [2, 0] [0, 3] = .error .check := by rfl
  refine ⟨by rfl, ?_⟩
  rintro ⟨dimensions, h⟩
  cases he.symm.trans h

end Shape
