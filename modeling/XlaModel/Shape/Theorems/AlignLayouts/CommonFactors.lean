import XlaModel.Lib.PermutedView
import XlaModel.Shape.AlignLayouts

namespace Shape

variable {a b dims : List Nat} {i j x y : Nat} {bounds : List (Nat × Nat)}

section Products

theorem prod_take_pos (h : ∀ d ∈ dims, 2 ≤ d) : 0 < (dims.take i).prod :=
  List.prod_pos fun d hd => Nat.zero_lt_of_lt (h d (List.mem_of_mem_take hd))

theorem prod_take_succ (hi : i < dims.length) : (dims.take (i + 1)).prod = (dims.take i).prod * dims[i] := by
  rw [List.take_succ_eq_append_getElem hi, List.prod_append, List.prod_singleton]

theorem prod_take_lt (h : ∀ d ∈ dims, 2 ≤ d) (hij : i < j) (hj : j ≤ dims.length) :
    (dims.take i).prod < (dims.take j).prod := by
  have hs {k : Nat} (hk : k < dims.length) : (dims.take k).prod < (dims.take (k + 1)).prod := by
    have hp : 0 < (dims.take k).prod := prod_take_pos h
    calc (dims.take k).prod
      _ < (dims.take k).prod * 2       := (Nat.lt_mul_iff_one_lt_right hp).mpr Nat.one_lt_two
      _ ≤ (dims.take k).prod * dims[k] := Nat.mul_le_mul_left _ (h _ (List.getElem_mem hk))
      _ = (dims.take (k + 1)).prod     := (prod_take_succ hk).symm
  induction j, hij using Nat.le_induction
  case base        => exact hs hj
  case succ j _ hi => exact (hi (Nat.le_of_succ_le hj)).trans (hs hj)

theorem prod_take_inj (h : ∀ d ∈ dims, 2 ≤ d) (hi : i ≤ dims.length) (hj : j ≤ dims.length)
    (he : (dims.take i).prod = (dims.take j).prod) : i = j := by
  obtain hlt | heq | hlt := Nat.lt_trichotomy i j
  case inl     => exact absurd he (prod_take_lt h hlt hj).ne
  case inr.inl => exact heq
  case inr.inr => exact absurd he (prod_take_lt h hlt hi).ne'

theorem two_le_of_prod_pos (h : ∀ d ∈ dims, d ≠ 1) (hp : 0 < dims.prod) : ∀ d ∈ dims, 2 ≤ d := by
  intro d hd
  have := Nat.pos_of_dvd_of_pos (List.dvd_prod hd) hp
  have := h d hd
  omega

end Products

-- The first `x` and `y` dimensions have the same number of elements.
structure Common (a b : List Nat) (x y : Nat) : Prop where
  le_left  : x ≤ a.length
  le_right : y ≤ b.length
  prod     : (a.take x).prod = (b.take y).prod

-- The bounds that divide the dimensions into factors.
structure IsFactors (a b : List Nat) (bounds : List (Nat × Nat)) : Prop where
  first  : bounds.head? = some (0, 0)
  last   : bounds.getLast? = some (a.length, b.length)
  sorted : bounds.Pairwise fun p q => p.1 < q.1 ∧ p.2 < q.2
  common : 0 < a.prod → ∀ x y, (x, y) ∈ bounds ↔ Common a b x y

theorem isFactors_of_common (hp : a.prod = b.prod) (hs : bounds.Pairwise fun p q => p.1 < q.1 ∧ p.2 < q.2)
    (hc : ∀ x y, (x, y) ∈ bounds ↔ Common a b x y) : IsFactors a b bounds where
  first := by
    have hm : (0, 0) ∈ bounds := (hc 0 0).mpr ⟨Nat.zero_le _, Nat.zero_le _, rfl⟩
    cases bounds
    case nil => cases hm
    case cons p bounds =>
      cases hm
      case head    => rfl
      case tail hm => exact absurd (List.rel_of_pairwise_cons hs hm).1 (Nat.not_lt_zero _)
  last := by
    have hm : (a.length, b.length) ∈ bounds := (hc _ _).mpr ⟨le_rfl, le_rfl, by simpa⟩
    obtain ⟨ps, qs, rfl⟩ := List.append_of_mem hm
    obtain rfl | ⟨qs, q, rfl⟩ := List.eq_nil_or_concat qs
    case inl => simp
    case inr =>
      have hq : q ∈ qs.concat q := by simp
      have hlt := List.rel_of_pairwise_cons (List.pairwise_append.mp hs).2.1 hq
      have hle := ((hc q.1 q.2).mp (List.mem_append_right _ (.tail _ hq))).le_left
      exact absurd hlt.1 (Nat.not_lt_of_le hle)
  sorted := hs
  common _ := hc

theorem common_self_iff (h : ∀ d ∈ a, 2 ≤ d) : Common a a x y ↔ x = y ∧ x ≤ a.length := by
  constructor
  case mp  => exact fun hc => ⟨prod_take_inj h hc.le_left hc.le_right hc.prod, hc.le_left⟩
  case mpr =>
    rintro ⟨rfl, hx⟩
    exact ⟨hx, hx, rfl⟩

namespace CommonFactors

variable {s : State}

-- The pairs that are not common bounds yet are not passed by both positions.
structure Inv (a b : List Nat) (s : State) : Prop where
  le_left  : s.i ≤ a.length
  le_right : s.j ≤ b.length
  scale    : ∃ c, 0 < c ∧ c * s.partialSizeA = (a.take s.i).prod ∧ c * s.partialSizeB = (b.take s.j).prod
  sorted   : s.bounds.Pairwise fun p q => p.1 < q.1 ∧ p.2 < q.2
  sound    : ∀ x y, (x, y) ∈ s.bounds → Common a b x y ∧ x ≤ s.i ∧ y ≤ s.j
  complete : ∀ x y, Common a b x y → (x, y) ∈ s.bounds ∨ s.i ≤ x ∧ s.j ≤ y
  prior_le : s.priorI ≤ s.i ∧ s.priorJ ≤ s.j
  prior    : s.i > s.priorI ∨ s.j > s.priorJ ↔ (s.i, s.j) ∉ s.bounds

theorem advanceA_eq (hi : s.i < a.length) :
    advanceA a s = .ok { s with partialSizeA := s.partialSizeA * a[s.i], i := s.i + 1 } := by
  rw [advanceA, List.getElem?_eq_getElem hi]
  rfl

theorem advanceB_eq (hj : s.j < b.length) :
    advanceB b s = .ok { s with partialSizeB := s.partialSizeB * b[s.j], j := s.j + 1 } := by
  rw [advanceB, List.getElem?_eq_getElem hj]
  rfl

theorem le_of_take_prod_lt (h : ∀ d ∈ dims, 2 ≤ d) (hi : i ≤ dims.length)
    (hlt : (dims.take i).prod < (dims.take j).prod) : i < j := by
  by_contra hle
  obtain hlt' | rfl := Nat.lt_or_eq_of_le (Nat.le_of_not_lt hle)
  case inl => exact absurd hlt (prod_take_lt h hlt' hi).not_gt
  case inr => exact absurd hlt (Nat.lt_irrefl _)

namespace Inv

variable (h : Inv a b s) (ha : ∀ d ∈ a, 2 ≤ d) (hb : ∀ d ∈ b, 2 ≤ d)
include h

theorem prod_eq_iff : s.partialSizeA = s.partialSizeB ↔ (a.take s.i).prod = (b.take s.j).prod := by
  obtain ⟨c, hc, h₁, h₂⟩ := h.scale
  rw [← h₁, ← h₂, Nat.mul_right_inj hc.ne']

theorem prod_lt_iff : s.partialSizeA < s.partialSizeB ↔ (a.take s.i).prod < (b.take s.j).prod := by
  obtain ⟨c, hc, h₁, h₂⟩ := h.scale
  rw [← h₁, ← h₂, Nat.mul_lt_mul_left hc]

theorem prod_gt_iff : s.partialSizeB < s.partialSizeA ↔ (b.take s.j).prod < (a.take s.i).prod := by
  obtain ⟨c, hc, h₁, h₂⟩ := h.scale
  rw [← h₁, ← h₂, Nat.mul_lt_mul_left hc]

include ha hb

theorem push (he : s.partialSizeA = s.partialSizeB) (hn : s.i > s.priorI ∨ s.j > s.priorJ) :
    Inv a b { s with priorI := s.i, priorJ := s.j, bounds := s.bounds ++ [(s.i, s.j)] } := by
  have hc : Common a b s.i s.j := ⟨h.le_left, h.le_right, h.prod_eq_iff.mp he⟩
  have hm := h.prior.mp hn
  refine ⟨h.le_left, h.le_right, h.scale, ?sorted, ?common, ?complete, ⟨le_rfl, le_rfl⟩, by simp⟩
  case sorted =>
    rw [List.pairwise_append]
    refine ⟨h.sorted, List.pairwise_singleton .., fun p hp q hq => ?_⟩
    obtain rfl := List.mem_singleton.mp hq
    obtain ⟨hp', hx, hy⟩ := h.sound p.1 p.2 hp
    constructor
    · refine lt_of_le_of_ne hx fun hx => hm ?_
      have hy := prod_take_inj hb hp'.le_right hc.le_right (hp'.prod.symm.trans (hx ▸ hc.prod))
      exact (Prod.ext hx hy : p = (s.i, s.j)) ▸ hp
    · refine lt_of_le_of_ne hy fun hy => hm ?_
      have hx := prod_take_inj ha hp'.le_left hc.le_left (hp'.prod.trans (hy ▸ hc.prod.symm))
      exact (Prod.ext hx hy : p = (s.i, s.j)) ▸ hp
  case common =>
    intro x y hp
    obtain hp | hp := List.mem_append.mp hp
    case inl => exact h.sound x y hp
    case inr =>
      obtain ⟨rfl, rfl⟩ := Prod.mk.inj (List.mem_singleton.mp hp)
      exact ⟨hc, le_rfl, le_rfl⟩
  case complete =>
    intro x y hxy
    obtain hp | hp := h.complete x y hxy
    case inl => exact .inl (List.mem_append_left _ hp)
    case inr => exact .inr hp

omit ha hb

theorem advanceA (hi : s.i < a.length) (hc : ∀ y, s.j ≤ y → Common a b s.i y → (s.i, y) ∈ s.bounds) :
    Inv a b { s with partialSizeA := s.partialSizeA * a[s.i], i := s.i + 1 } := by
  obtain ⟨c, hc₀, h₁, h₂⟩ := h.scale
  obtain ⟨hpi, hpj⟩ := h.prior_le
  refine ⟨hi, h.le_right, ⟨c, hc₀, ?scale, h₂⟩, h.sorted, ?common, ?complete, ⟨by simp only; omega, hpj⟩, ?pending⟩
  case scale =>
    have hp := prod_take_succ hi
    rw [← h₁] at hp
    exact (Nat.mul_assoc ..).symm.trans hp.symm
  case common =>
    intro x y hp
    obtain ⟨hxy, hx, hy⟩ := h.sound x y hp
    exact ⟨hxy, Nat.le_succ_of_le hx, hy⟩
  case complete =>
    intro x y hxy
    obtain hp | ⟨hx, hy⟩ := h.complete x y hxy
    case inl => exact .inl hp
    case inr =>
      obtain hx | rfl := Nat.lt_or_eq_of_le hx
      case inl => exact .inr ⟨hx, hy⟩
      case inr => exact .inl (hc y hy hxy)
  case pending =>
    refine iff_of_true (.inl (by simp only; omega)) fun hm => ?_
    exact absurd (h.sound _ _ hm).2.1 (Nat.not_succ_le_self _)

theorem advanceB (hj : s.j < b.length) (hc : ∀ x, s.i ≤ x → Common a b x s.j → (x, s.j) ∈ s.bounds) :
    Inv a b { s with partialSizeB := s.partialSizeB * b[s.j], j := s.j + 1 } := by
  obtain ⟨c, hc₀, h₁, h₂⟩ := h.scale
  obtain ⟨hpi, hpj⟩ := h.prior_le
  refine ⟨h.le_left, hj, ⟨c, hc₀, h₁, ?scale⟩, h.sorted, ?common, ?complete, ⟨hpi, by simp only; omega⟩, ?pending⟩
  case scale =>
    have hp := prod_take_succ hj
    rw [← h₂] at hp
    exact (Nat.mul_assoc ..).symm.trans hp.symm
  case common =>
    intro x y hp
    obtain ⟨hxy, hx, hy⟩ := h.sound x y hp
    exact ⟨hxy, hx, Nat.le_succ_of_le hy⟩
  case complete =>
    intro x y hxy
    obtain hp | ⟨hx, hy⟩ := h.complete x y hxy
    case inl => exact .inl hp
    case inr =>
      obtain hy | rfl := Nat.lt_or_eq_of_le hy
      case inl => exact .inr ⟨hx, hy⟩
      case inr => exact .inl (hc x hx hxy)
  case pending =>
    refine iff_of_true (.inr (by simp only; omega)) fun hm => ?_
    exact absurd (h.sound _ _ hm).2.2 (Nat.not_succ_le_self _)

include ha hb

omit ha in
theorem advanceA_of_lt (hi : s.i < a.length) (hlt : s.partialSizeA < s.partialSizeB) :
    Inv a b { s with partialSizeA := s.partialSizeA * a[s.i], i := s.i + 1 } := by
  refine h.advanceA hi fun y hy hc => ?_
  have hlt := le_of_take_prod_lt hb hc.le_right (hc.prod ▸ h.prod_lt_iff.mp hlt)
  exact absurd hy (Nat.not_le_of_lt hlt)

omit hb in
theorem advanceB_of_lt (hj : s.j < b.length) (hlt : s.partialSizeB < s.partialSizeA) :
    Inv a b { s with partialSizeB := s.partialSizeB * b[s.j], j := s.j + 1 } := by
  refine h.advanceB hj fun x hx hc => ?_
  have hlt := le_of_take_prod_lt ha hc.le_left (hc.prod ▸ h.prod_gt_iff.mp hlt)
  exact absurd hx (Nat.not_le_of_lt hlt)

-- The positions are within the dimensions as the numbers of elements are equal.
theorem lt_length (hp : a.prod = b.prod) (hin : s.i < a.length ∨ s.j < b.length) :
    (s.partialSizeA ≤ s.partialSizeB → s.i < a.length) ∧ (s.partialSizeB ≤ s.partialSizeA → s.j < b.length) := by
  have hle {p q : Nat} : p ≤ q ↔ p < q ∨ p = q := Nat.le_iff_lt_or_eq
  have hA : s.i = a.length → (a.take s.i).prod = (b.take b.length).prod := by
    rintro hi
    rw [hi, List.take_length, List.take_length, hp]
  have hB : s.j = b.length → (b.take s.j).prod = (a.take a.length).prod := by
    rintro hj
    rw [hj, List.take_length, List.take_length, hp]
  constructor
  · intro hAB
    refine lt_of_le_of_ne h.le_left fun hi => ?_
    have hi' := hA hi
    rw [hle, h.prod_lt_iff, h.prod_eq_iff, hi'] at hAB
    obtain hlt | heq := hAB
    case inl => exact absurd h.le_right (Nat.not_le_of_lt (le_of_take_prod_lt hb le_rfl hlt))
    case inr =>
      have hj := prod_take_inj hb le_rfl h.le_right heq
      omega
  · intro hBA
    refine lt_of_le_of_ne h.le_right fun hj => ?_
    have hj' := hB hj
    rw [hle, h.prod_gt_iff, eq_comm, h.prod_eq_iff, hj'] at hBA
    obtain hlt | heq := hBA
    case inl => exact absurd h.le_left (Nat.not_le_of_lt (le_of_take_prod_lt ha le_rfl hlt))
    case inr =>
      have hi := prod_take_inj ha h.le_left le_rfl heq
      omega

theorem advance_spec (hp : a.prod = b.prod) (hn : s.partialSizeA = s.partialSizeB → (s.i, s.j) ∈ s.bounds)
    (hin : s.i < a.length ∨ s.j < b.length) :
    ∃ s', advance a b s = .ok s' ∧ Inv a b s' ∧ s.i ≤ s'.i ∧ s.j ≤ s'.j ∧ s.i + s.j < s'.i + s'.j := by
  obtain ⟨hA, hB⟩ := h.lt_length ha hb hp hin
  obtain hlt | heq | hgt := Nat.lt_trichotomy s.partialSizeA s.partialSizeB
  case inl =>
    have hi := hA hlt.le
    have hnA : nextA a b s = true := by simp [nextA, hlt]
    have hnB : nextB a b s = false := by simp [nextB, hlt.ne', hlt.le, hi]
    refine ⟨_, ?_, h.advanceA_of_lt hb hi hlt, by simp⟩
    rw [advance, hnA, hnB, if_pos rfl, advanceA_eq hi]
    rfl
  case inr.inr =>
    have hj := hB hgt.le
    have hnA : nextA a b s = false := by simp [nextA, hgt.ne', hgt.le, hj]
    have hnB : nextB a b s = true := by simp [nextB, hgt]
    refine ⟨_, ?_, h.advanceB_of_lt ha hj hgt, by simp⟩
    rw [advance, hnA, hnB, if_neg Bool.false_ne_true]
    exact advanceB_eq hj
  case inr.inl =>
    have hi := hA heq.le
    have hj := hB heq.ge
    have hm := hn heq
    have hprod := h.prod_eq_iff.mp heq
    have hcA (y : Nat) (hc : Common a b s.i y) : (s.i, y) ∈ s.bounds := by
      have hy := prod_take_inj hb h.le_right hc.le_right (hprod.symm.trans hc.prod)
      exact hy ▸ hm
    have hcB (x : Nat) (hc : Common a b x s.j) : (x, s.j) ∈ s.bounds := by
      have hx := prod_take_inj ha h.le_left hc.le_left (hprod.trans hc.prod.symm)
      exact hx ▸ hm
    have h' := h.advanceA hi fun y _ => hcA y
    obtain hlt | hab | hgt := Nat.lt_trichotomy a[s.i] b[s.j]
    case inl =>
      have hnA : nextA a b s = true := by simp [nextA, heq, hi, hj, hlt.le]
      have hnB : nextB a b s = false := by simp [nextB, heq, hi, hj, hlt]
      refine ⟨_, ?_, h', by simp⟩
      rw [advance, hnA, hnB, if_pos rfl, advanceA_eq hi]
      rfl
    case inr.inl =>
      have hnA : nextA a b s = true := by simp [nextA, heq, hi, hj, hab]
      have hnB : nextB a b s = true := by simp [nextB, heq, hi, hj, hab]
      refine ⟨_, ?_, h'.advanceB hj fun x _ => hcB x, by simp; omega⟩
      rw [advance, hnA, hnB, if_pos rfl, advanceA_eq hi]
      exact advanceB_eq (s := { s with partialSizeA := s.partialSizeA * a[s.i], i := s.i + 1 }) hj
    case inr.inr =>
      have hnA : nextA a b s = false := by simp [nextA, heq, hi, hj, hgt]
      have hnB : nextB a b s = true := by simp [nextB, heq, hi, hj, hgt.le]
      refine ⟨_, ?_, h.advanceB hj fun x _ => hcB x, by simp⟩
      rw [advance, hnA, hnB, if_neg Bool.false_ne_true]
      exact advanceB_eq hj

end Inv

def pushes (s : State) : Nat :=
  if s.partialSizeA = s.partialSizeB ∧ (s.i > s.priorI ∨ s.j > s.priorJ) then 2 else 1

theorem loop_spec (ha : ∀ d ∈ a, 2 ≤ d) (hb : ∀ d ∈ b, 2 ≤ d) (hp : a.prod = b.prod) {fuel : Nat} (h : Inv a b s)
    (hf : 2 * ((a.length - s.i) + (b.length - s.j)) + pushes s ≤ fuel) :
    ∃ bounds, loop a b fuel s = .ok bounds ∧ IsFactors a b bounds := by
  induction fuel generalizing s
  case zero =>
    rw [pushes] at hf
    split_ifs at hf <;> omega
  case succ fuel hi =>
    rw [loop]
    split_ifs with hc hin
    case pos =>
      refine hi (h.push ha hb hc.1 hc.2) ?_
      simp only [pushes, hc, and_self, if_true, gt_iff_lt, lt_irrefl, or_self, and_false, if_false] at hf ⊢
      omega
    case pos =>
      have hn (he : s.partialSizeA = s.partialSizeB) : (s.i, s.j) ∈ s.bounds := by
        by_contra hm
        exact hc ⟨he, h.prior.mpr hm⟩
      obtain ⟨s', hs', hI, hi', hj', hlt⟩ := h.advance_spec ha hb hp hn hin
      have hl := hI.le_left
      have hr := hI.le_right
      have hps : pushes s' ≤ 2 := by
        rw [pushes]
        split_ifs <;> omega
      have hps' : 1 ≤ pushes s := by
        rw [pushes]
        split_ifs
        omega
      rw [hs']
      exact hi hI (by omega)
    case neg =>
      obtain ⟨hni, hnj⟩ := not_or.mp hin
      have hl := h.le_left
      have hr := h.le_right
      obtain ⟨hni, hnj⟩ : s.i = a.length ∧ s.j = b.length := by omega
      have he : s.partialSizeA = s.partialSizeB := by
        rw [h.prod_eq_iff, hni, hnj, List.take_length, List.take_length, hp]
      have hm : (a.length, b.length) ∈ s.bounds := by
        have := mt h.prior.mpr fun hn => hc ⟨he, hn⟩
        rwa [not_not, hni, hnj] at this
      refine ⟨_, rfl, isFactors_of_common hp h.sorted fun x y => ⟨fun hxy => (h.sound x y hxy).1, fun hxy => ?_⟩⟩
      obtain hxy' | ⟨hx, hy⟩ := h.complete x y hxy
      case inl => exact hxy'
      case inr =>
        obtain rfl := Nat.le_antisymm hxy.le_left (hni ▸ hx)
        obtain rfl := Nat.le_antisymm hxy.le_right (hnj ▸ hy)
        exact hm

section Prefix

variable {pre : List (Nat × Nat)} {p : List Nat}

theorem equalPrefix_spec (a b : List Nat) : ∃ p a' b', a = p ++ a' ∧ b = p ++ b' ∧ equalPrefix a b = p.length := by
  induction a generalizing b
  case nil => exact ⟨[], [], b, rfl, rfl, by simp [equalPrefix]⟩
  case cons x a hi =>
    cases b
    case nil => exact ⟨[], x :: a, [], rfl, rfl, rfl⟩
    case cons y b =>
      rw [equalPrefix]
      split_ifs with hxy
      case neg => exact ⟨[], x :: a, y :: b, rfl, rfl, rfl⟩
      case pos =>
        obtain ⟨p, a', b', ha, hb, hl⟩ := hi b
        refine ⟨x :: p, a', b', ?_, ?_, ?_⟩
        · rw [List.cons_append, ← ha]
        · rw [List.cons_append, ← hb, hxy]
        · rw [hl, List.length_cons]

def shiftBounds (n : Nat) (bounds : List (Nat × Nat)) : List (Nat × Nat) :=
  bounds.map fun p => (n + p.1, n + p.2)

-- The state for the dimensions that follow an equal prefix.
def State.shift (pre : List (Nat × Nat)) (n : Nat) (s : State) : State where
  i            := n + s.i
  j            := n + s.j
  priorI       := n + s.priorI
  priorJ       := n + s.priorJ
  partialSizeA := s.partialSizeA
  partialSizeB := s.partialSizeB
  bounds       := pre ++ shiftBounds n s.bounds

theorem getElem?_shift (xs : List Nat) : (p ++ xs)[p.length + i]? = xs[i]? := by
  rw [List.getElem?_append_right (Nat.le_add_right ..), Nat.add_sub_cancel_left]

theorem advance_shift : advance (p ++ a) (p ++ b) (s.shift pre p.length) = (advance a b s).map (State.shift pre p.length) := by
  have hA : nextA (p ++ a) (p ++ b) (s.shift pre p.length) = nextA a b s := by
    simp [nextA, State.shift, getElem?_shift]
    rfl
  have hB : nextB (p ++ a) (p ++ b) (s.shift pre p.length) = nextB a b s := by
    simp [nextB, State.shift, getElem?_shift]
    rfl
  have hA' : advanceA (p ++ a) (s.shift pre p.length) = (advanceA a s).map (State.shift pre p.length) := by
    have hg := getElem?_shift (p := p) (i := s.i) a
    rw [advanceA, advanceA, State.shift]
    simp only [hg]
    cases a[s.i]? <;> rfl
  have hB' (s : State) : advanceB (p ++ b) (s.shift pre p.length) = (advanceB b s).map (State.shift pre p.length) := by
    have hg := getElem?_shift (p := p) (i := s.j) b
    rw [advanceB, advanceB, State.shift]
    simp only [hg]
    cases b[s.j]? <;> rfl
  rw [advance, advance, hA, hB, hA']
  cases nextA a b s
  case false =>
    cases nextB a b s
    case false => rfl
    case true  => exact hB' s
  case true =>
    cases advanceA a s
    case error => rfl
    case ok s' =>
      cases nextB a b s
      case false => rfl
      case true  => exact hB' s'

theorem loop_shift {fuel : Nat} : loop (p ++ a) (p ++ b) fuel (s.shift pre p.length) =
    (loop a b fuel s).map fun bounds => pre ++ shiftBounds p.length bounds := by
  induction fuel generalizing s
  case zero => rfl
  case succ fuel hi =>
    have hc : ((s.shift pre p.length).i > (s.shift pre p.length).priorI ∨
        (s.shift pre p.length).j > (s.shift pre p.length).priorJ) ↔ (s.i > s.priorI ∨ s.j > s.priorJ) := by
      simp [State.shift]
    have hin : ((s.shift pre p.length).i < (p ++ a).length ∨ (s.shift pre p.length).j < (p ++ b).length) ↔
        (s.i < a.length ∨ s.j < b.length) := by
      simp [State.shift]
    have hs : (s.shift pre p.length).partialSizeA = (s.shift pre p.length).partialSizeB ↔
        s.partialSizeA = s.partialSizeB := .rfl
    have hpush : { s.shift pre p.length with
        priorI := (s.shift pre p.length).i, priorJ := (s.shift pre p.length).j,
        bounds := (s.shift pre p.length).bounds ++ [((s.shift pre p.length).i, (s.shift pre p.length).j)] } =
        State.shift pre p.length { s with priorI := s.i, priorJ := s.j, bounds := s.bounds ++ [(s.i, s.j)] } := by
      simp [State.shift, shiftBounds]
    rw [loop, loop]
    simp only [hs, hc, hin]
    split_ifs
    case pos => rw [hpush, hi]
    case pos =>
      rw [advance_shift]
      cases advance a b s
      case error => rfl
      case ok s  => exact hi
    case neg => rfl

end Prefix

end CommonFactors

section Append

open CommonFactors

variable {p : List Nat}

def diagonal (n : Nat) : List (Nat × Nat) :=
  (List.range n).map fun i => (i, i)

theorem mem_diagonal {n : Nat} : (x, y) ∈ diagonal n ↔ x = y ∧ x < n := by
  simp [diagonal]
  grind

theorem diagonal_sorted (n : Nat) : (diagonal n).Pairwise fun p q => p.1 < q.1 ∧ p.2 < q.2 :=
  List.pairwise_map.mpr (List.pairwise_lt_range.imp fun h => ⟨h, h⟩)

theorem isFactors_self (h : ∀ d ∈ a, d ≠ 1) : IsFactors a a (diagonal (a.length + 1)) where
  first  := by simp [diagonal, List.range_succ_eq_map]
  last   := by simp [diagonal, List.range_succ]
  sorted := diagonal_sorted _
  common hp x y := by rw [mem_diagonal, common_self_iff (two_le_of_prod_pos h hp), Nat.lt_succ_iff]

theorem common_append_iff (hp : 0 < p.prod) : Common (p ++ a) (p ++ b) (p.length + x) (p.length + y) ↔ Common a b x y := by
  have ht {xs : List Nat} {i : Nat} : ((p ++ xs).take (p.length + i)).prod = p.prod * (xs.take i).prod := by
    rw [List.take_length_add_append, List.prod_append]
  constructor
  case mp =>
    rintro ⟨hx, hy, h⟩
    rw [ht, ht, Nat.mul_right_inj hp.ne'] at h
    exact ⟨by simpa using hx, by simpa using hy, h⟩
  case mpr =>
    rintro ⟨hx, hy, h⟩
    exact ⟨by simpa using hx, by simpa using hy, by rw [ht, ht, h]⟩

theorem mem_append_iff : (x, y) ∈ diagonal p.length ++ shiftBounds p.length bounds ↔
    (x = y ∧ x < p.length) ∨ ∃ x' y', (x', y') ∈ bounds ∧ x = p.length + x' ∧ y = p.length + y' := by
  rw [List.mem_append, mem_diagonal, shiftBounds, List.mem_map]
  grind

theorem IsFactors.append (h : IsFactors a b bounds) (hA : ∀ d ∈ p ++ a, d ≠ 1) (hB : ∀ d ∈ p ++ b, d ≠ 1)
    (hn : a.prod = b.prod) : IsFactors (p ++ a) (p ++ b) (diagonal p.length ++ shiftBounds p.length bounds) where
  first := by
    rw [List.head?_append, shiftBounds, List.head?_map, h.first]
    cases p <;> simp [diagonal, List.range_succ_eq_map]
  last := by
    rw [List.getLast?_append, shiftBounds, List.getLast?_map, h.last]
    simp
  sorted := by
    rw [List.pairwise_append]
    refine ⟨diagonal_sorted _, List.pairwise_map.mpr (h.sorted.imp fun h => ?sorted), fun q hq r hr => ?cross⟩
    case sorted => exact ⟨Nat.add_lt_add_left h.1 _, Nat.add_lt_add_left h.2 _⟩
    case cross =>
      obtain ⟨hq, hlt⟩ := mem_diagonal.mp (show (q.1, q.2) ∈ _ from hq)
      obtain ⟨r, _, rfl⟩ := List.mem_map.mp hr
      exact ⟨by simp only; omega, by simp only; omega⟩
  common hp x y := by
    have hp' : (p ++ b).prod = (p ++ a).prod := by rw [List.prod_append, List.prod_append, hn]
    have hA := two_le_of_prod_pos hA hp
    have hB := two_le_of_prod_pos hB (hp' ▸ hp)
    rw [List.prod_append] at hp
    have hpos : 0 < p.prod := Nat.pos_of_mul_pos_right hp
    have hpos' : 0 < a.prod := Nat.pos_of_mul_pos_left hp
    have ht {z : Nat} (hz : z < p.length) : (p ++ a).take z = (p ++ b).take z := by
      rw [List.take_append_of_le_length hz.le, List.take_append_of_le_length hz.le]
    rw [mem_append_iff]
    constructor
    case mp =>
      rintro (⟨rfl, hx⟩ | ⟨x, y, hxy, rfl, rfl⟩)
      case inl => exact ⟨by simp; omega, by simp; omega, by rw [ht hx]⟩
      case inr => exact (common_append_iff hpos).mpr ((h.common hpos' x y).mp hxy)
    case mpr =>
      intro hc
      by_cases hx : x < p.length
      case pos =>
        have hle : x ≤ (p ++ b).length := by simp; omega
        exact .inl ⟨prod_take_inj hB hle hc.le_right (ht hx ▸ hc.prod), hx⟩
      case neg =>
        by_cases hy : y < p.length
        case pos =>
          have hle : y ≤ (p ++ a).length := by simp; omega
          have hxy := prod_take_inj hA hc.le_left hle (ht hy ▸ hc.prod)
          exact absurd (hxy ▸ hy) hx
        case neg =>
          obtain ⟨x, rfl⟩ := Nat.exists_eq_add_of_le (Nat.le_of_not_lt hx)
          obtain ⟨y, rfl⟩ := Nat.exists_eq_add_of_le (Nat.le_of_not_lt hy)
          exact .inr ⟨x, y, (h.common hpos' x y).mpr ((common_append_iff hpos).mp hc), rfl, rfl⟩

end Append

section Spec

open CommonFactors

variable (hA : ∀ d ∈ a, d ≠ 1) (hB : ∀ d ∈ b, d ≠ 1) (hp : a.prod = b.prod)
include hA hB hp

omit hA hB hp in
theorem ne_nil_of_prod_eq_zero (hz : a.prod = 0) : a ≠ [] := by
  rintro rfl
  cases hz

omit hA hB hp in
theorem isFactors_whole (hz : a.prod = 0) (hz' : b.prod = 0) : IsFactors a b [(0, 0), (a.length, b.length)] where
  first    := rfl
  last     := rfl
  sorted   := by simp [List.length_pos_iff, ne_nil_of_prod_eq_zero hz, ne_nil_of_prod_eq_zero hz']
  common h := absurd hz h.ne'

theorem loop_start_spec (hpos : 0 < a.prod) {fuel : Nat} (hf : 2 * (a.length + b.length) + 2 ≤ fuel) :
    ∃ bounds, loop a b fuel ⟨0, 0, -1, -1, 1, 1, []⟩ = .ok bounds ∧ IsFactors a b bounds := by
  refine loop_spec (two_le_of_prod_pos hA hpos) (two_le_of_prod_pos hB (hp ▸ hpos)) hp ?initial ?result
  case initial =>
    exact ⟨Nat.zero_le _, Nat.zero_le _, ⟨1, Nat.one_pos, by simp⟩, .nil, by simp, by simp, by simp, by simp⟩
  case result => simpa [pushes] using hf

theorem commonFactors_spec : ∃ bounds, commonFactors a b = .ok bounds ∧ IsFactors a b bounds := by
  obtain ⟨p, a', b', rfl, rfl, hl⟩ := equalPrefix_spec a b
  have hp' := hp
  rw [List.prod_append, List.prod_append] at hp'
  rw [commonFactors, check, if_pos (by simpa using hp), hl]
  simp only [pure_bind, List.drop_left]
  split_ifs with hab h₁ h₂
  case pos =>
    rw [← hab]
    exact ⟨_, rfl, isFactors_self hA⟩
  case pos =>
    have hz : p.prod = 0 := by
      by_contra hz
      exact h₁ ((Nat.mul_right_inj (Nat.pos_of_ne_zero hz).ne').mp hp')
    have hz' (xs : List Nat) : (p ++ xs).prod = 0 := by rw [List.prod_append, hz, Nat.zero_mul]
    exact ⟨_, rfl, isFactors_whole (hz' a') (hz' b')⟩
  case pos =>
    have hn : a'.prod = b'.prod := not_not.mp h₁
    have hw := isFactors_whole h₂ (hn ▸ h₂)
    refine ⟨_, ?_, hw.append hA hB hn⟩
    simp [diagonal, shiftBounds]
    rfl
  case neg =>
    have hn : a'.prod = b'.prod := not_not.mp h₁
    have hA' (d) (hd : d ∈ a') : d ≠ 1 := hA d (List.mem_append_right _ hd)
    have hB' (d) (hd : d ∈ b') : d ≠ 1 := hB d (List.mem_append_right _ hd)
    have hf : 2 * (a'.length + b'.length) + 2 ≤ 2 * ((p ++ a').length + (p ++ b').length) + 2 := by
      simp only [List.length_append]
      omega
    obtain ⟨bounds, hb, hI⟩ := loop_start_spec hA' hB' hn (Nat.pos_of_ne_zero h₂) hf
    refine ⟨_, ?_, hI.append hA hB hn⟩
    have hs : State.shift (diagonal p.length) p.length ⟨0, 0, -1, -1, 1, 1, []⟩ =
        ⟨p.length, p.length, p.length - 1, p.length - 1, 1, 1, diagonal p.length⟩ := by
      simp [State.shift, shiftBounds, Int.sub_eq_add_neg]
    have hl : loop (p ++ a') (p ++ b') (2 * ((p ++ a').length + (p ++ b').length) + 2)
        (State.shift (diagonal p.length) p.length ⟨0, 0, -1, -1, 1, 1, []⟩) = _ := loop_shift
    rw [hs, hb] at hl
    exact hl

end Spec

section Int64

open CommonFactors

theorem commonFactorsInt64_of_fits (h : ProductsFit a b) : commonFactorsInt64 a b = commonFactors a b :=
  if_pos h

theorem commonFactorsInt64_of_not_fits (h : ¬ProductsFit a b) : commonFactorsInt64 a b = .error .overflow :=
  if_neg h

theorem fitsInt64_of_prod_pos (hpos : 0 < a.prod) (hle : a.prod ≤ int64Max) : FitsInt64 a := by
  intro i
  have hd : (a.take i).prod ∣ a.prod := by
    conv_rhs => rw [← List.take_append_drop i a, List.prod_append]
    exact Nat.dvd_mul_right ..
  exact (Nat.le_of_dvd hpos hd).trans hle

theorem prod_drop_le (hpos : 0 < a.prod) (i : Nat) : 0 < (a.drop i).prod ∧ (a.drop i).prod ≤ a.prod := by
  have hd : (a.drop i).prod ∣ a.prod := by
    conv_rhs => rw [← List.take_append_drop i a, List.prod_append]
    exact Nat.dvd_mul_left ..
  exact ⟨Nat.pos_of_dvd_of_pos hd hpos, Nat.le_of_dvd hpos hd⟩

-- The sizes of arrays with elements fit, if the number of elements does.
theorem productsFit_of_prod_pos (hpos : 0 < a.prod) (hp : a.prod = b.prod) (hle : a.prod ≤ int64Max) : ProductsFit a b := by
  refine ⟨fitsInt64_of_prod_pos hpos hle, fitsInt64_of_prod_pos (hp ▸ hpos) (hp ▸ hle), fun _ => ⟨?left, ?right⟩⟩
  case left =>
    have hd := prod_drop_le hpos (equalPrefix a b)
    exact fitsInt64_of_prod_pos hd.1 (hd.2.trans hle)
  case right =>
    have hd := prod_drop_le (hp ▸ hpos) (equalPrefix a b)
    exact fitsInt64_of_prod_pos hd.1 (hd.2.trans (hp ▸ hle))

end Int64

end Shape
