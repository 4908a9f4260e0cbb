import XlaModel.Shape.Dimensions
import XlaModel.Shape.Theorems.ConvertDimensionNumbers

namespace Shape

open CommonFactors dimensionsUnmodifiedByReshape

variable {a b p xs : List Nat} {k n m x : Nat} {q r : Nat × Nat} {bounds us : List (Nat × Nat)}

-- The pairs are sorted and within the dimensions.
structure Ascending (n m : Nat) (us : List (Nat × Nat)) : Prop where
  sorted : us.Pairwise fun p q => p.1 < q.1 ∧ p.2 < q.2
  bounds : ∀ p ∈ us, p.1 < n ∧ p.2 < m

section Unmodified

def unmodified (bounds : List (Nat × Nat)) : List (Nat × Nat) :=
  (eraseModified bounds).dropLast

theorem eraseModified_ne_nil : eraseModified (q :: bounds) ≠ [] := by
  induction bounds generalizing q
  case nil => simp [eraseModified]
  case cons r bounds hi =>
    rw [eraseModified]
    split_ifs
    case pos => exact hi
    case neg => simp

theorem unmodified_singleton : unmodified [q] = [] :=
  rfl

theorem unmodified_cons_of_unit (h : r = (q.1 + 1, q.2 + 1)) : unmodified (q :: r :: bounds) = q :: unmodified (r :: bounds) := by
  rw [unmodified, eraseModified, if_neg (by simp [h]), List.dropLast_cons_of_ne_nil eraseModified_ne_nil, ← unmodified]

theorem unmodified_cons_of_not_unit (h : r ≠ (q.1 + 1, q.2 + 1)) : unmodified (q :: r :: bounds) = unmodified (r :: bounds) := by
  rw [unmodified, eraseModified, if_pos, ← unmodified]
  by_contra hc
  exact h (Prod.ext (not_not.mp (not_or.mp hc).1) (not_not.mp (not_or.mp hc).2))

-- A common factor of rank one is between two bounds that follow each other.
theorem mem_unmodified (h : [q, (q.1 + 1, q.2 + 1)] <:+: bounds) : q ∈ unmodified bounds := by
  induction bounds
  case nil => simp at h
  case cons u bounds hi =>
    cases bounds
    case nil =>
      have := h.length_le
      simp at this
    case cons r bounds =>
      by_cases hr : r = (u.1 + 1, u.2 + 1)
      case pos =>
        rw [unmodified_cons_of_unit hr]
        obtain hp | hm := List.infix_cons_iff.mp h
        case inl =>
          obtain ⟨rfl, -⟩ := List.cons_prefix_cons.mp hp
          exact .head _
        case inr => exact .tail _ (hi hm)
      case neg =>
        rw [unmodified_cons_of_not_unit hr]
        obtain hp | hm := List.infix_cons_iff.mp h
        case inl =>
          obtain ⟨rfl, hp'⟩ := List.cons_prefix_cons.mp hp
          exact absurd (List.cons_prefix_cons.mp hp').1.symm hr
        case inr => exact hi hm

theorem segment_one {x : Nat} (h : x < xs.length) : segment xs x (x + 1) = [xs[x]] := by
  rw [segment, List.take_succ_eq_append_getElem h, List.drop_left' (List.length_take_of_le h.le)]

theorem le_of_chain (hc : (q :: bounds).IsChain (Follows a b)) (hl : (q :: bounds).getLast? = some (n, m)) :
    q.1 ≤ n ∧ q.2 ≤ m := by
  induction bounds generalizing q
  case nil =>
    obtain rfl : q = (n, m) := by simpa using hl
    exact ⟨le_rfl, le_rfl⟩
  case cons r bounds hi =>
    obtain ⟨hqr, hc⟩ := List.isChain_cons_cons.mp hc
    have hr := hi hc (by simpa [List.getLast?_cons_cons] using hl)
    exact ⟨hqr.left.trans hr.1, hqr.right.trans hr.2⟩

-- The dimensions that are not modified have the same sizes.
theorem unmodified_spec (hc : (q :: bounds).IsChain (Follows a b)) (hl : (q :: bounds).getLast? = some (a.length, b.length)) :
    Ascending a.length b.length (unmodified (q :: bounds)) ∧
      ∀ p ∈ unmodified (q :: bounds), q.1 ≤ p.1 ∧ q.2 ≤ p.2 ∧ a[p.1]? = b[p.2]? := by
  induction bounds generalizing q
  case nil => exact ⟨⟨.nil, by simp [unmodified_singleton]⟩, by simp [unmodified_singleton]⟩
  case cons r bounds hi =>
    obtain ⟨hqr, hc⟩ := List.isChain_cons_cons.mp hc
    have hl : (r :: bounds).getLast? = some (a.length, b.length) := by simpa [List.getLast?_cons_cons] using hl
    have hle := le_of_chain hc hl
    obtain ⟨ha, hp⟩ := hi hc hl
    by_cases hr : r = (q.1 + 1, q.2 + 1)
    case neg =>
      rw [unmodified_cons_of_not_unit hr]
      exact ⟨ha, fun p hm => ⟨hqr.left.trans (hp p hm).1, hqr.right.trans (hp p hm).2.1, (hp p hm).2.2⟩⟩
    case pos =>
      subst hr
      have he : a[q.1]? = b[q.2]? := by
        have hprod := hqr.prod
        rw [segment_one hle.1, segment_one hle.2, List.prod_singleton, List.prod_singleton] at hprod
        rw [List.getElem?_eq_getElem hle.1, List.getElem?_eq_getElem hle.2, hprod]
      rw [unmodified_cons_of_unit rfl]
      refine ⟨⟨List.pairwise_cons.mpr ⟨fun p hm => ⟨(hp p hm).1, (hp p hm).2.1⟩, ha.sorted⟩,
        List.forall_mem_cons.mpr ⟨hle, ha.bounds⟩⟩, List.forall_mem_cons.mpr ⟨⟨le_rfl, le_rfl, he⟩, fun p hm => ?_⟩⟩
      exact ⟨Nat.le_of_succ_le (hp p hm).1, Nat.le_of_succ_le (hp p hm).2.1, (hp p hm).2.2⟩

-- The dimensions of two shapes that are not modified.
structure IsUnmodified (a b : List Nat) (us : List (Nat × Nat)) : Prop where
  ascending : Ascending a.length b.length us
  same      : ∀ p ∈ us, a[p.1]? = b[p.2]?

theorem exists_unmodified (hp : a.prod = b.prod) :
    ∃ bounds, commonFactors a b = .ok bounds ∧ bounds.head? = some (0, 0) ∧ IsUnmodified a b (unmodified bounds) := by
  obtain ⟨bounds, hb, hg⟩ := commonFactors_isGrouping hp
  obtain ⟨bounds, rfl⟩ := List.head?_eq_some_iff.mp hg.first
  obtain ⟨ha, hs⟩ := unmodified_spec hg.chain hg.last
  exact ⟨_, hb, rfl, ha, fun p hp => (hs p hp).2.2⟩

end Unmodified

section Synced

-- The positions advance together, or one of them advances past a dimension of size one.
inductive Synced (a b : List Nat) : Nat × Nat → Nat × Nat → Prop
  | both {x y : Nat}  : a[x]? = b[y]? → Synced a b (x, y) (x + 1, y + 1)
  | left {x y : Nat}  : a[x]? = some 1 → Synced a b (x, y) (x + 1, y)
  | right {x y : Nat} : b[y]? = some 1 → Synced a b (x, y) (x, y + 1)

-- Every dimension whose size is not one is a common factor.
theorem exists_unit_of_synced (hc : (q :: bounds).IsChain (Synced a b)) (hl : (q :: bounds).getLast? = some (n, m)) :
    (∀ x, q.1 ≤ x → x < n → a[x]? ≠ some 1 → ∃ y, [(x, y), (x + 1, y + 1)] <:+: q :: bounds) ∧
      ∀ y, q.2 ≤ y → y < m → b[y]? ≠ some 1 → ∃ x, [(x, y), (x + 1, y + 1)] <:+: q :: bounds := by
  induction bounds generalizing q
  case nil =>
    obtain rfl : q = (n, m) := by simpa using hl
    exact ⟨fun x hle hlt => absurd hlt (not_lt.mpr hle), fun y hle hlt => absurd hlt (not_lt.mpr hle)⟩
  case cons r bounds hi =>
    obtain ⟨hqr, hc⟩ := List.isChain_cons_cons.mp hc
    obtain ⟨h₁, h₂⟩ := hi hc (by simpa [List.getLast?_cons_cons] using hl)
    obtain @⟨x, y, he⟩ | @⟨x, y, he⟩ | @⟨x, y, he⟩ := hqr
    case both =>
      have hp : [(x, y), (x + 1, y + 1)] <:+: (x, y) :: (x + 1, y + 1) :: bounds :=
        List.IsPrefix.isInfix ⟨bounds, rfl⟩
      refine ⟨fun z hle hlt hz => ?inLeft, fun z hle hlt hz => ?inRight⟩
      case inLeft =>
        obtain hxz | rfl := (show x ≤ z from hle).lt_or_eq
        case inl => exact (h₁ z hxz hlt hz).imp fun _ => List.infix_cons
        case inr => exact ⟨y, hp⟩
      case inRight =>
        obtain hyz | rfl := (show y ≤ z from hle).lt_or_eq
        case inl => exact (h₂ z hyz hlt hz).imp fun _ => List.infix_cons
        case inr => exact ⟨x, hp⟩
    case left =>
      refine ⟨fun z hle hlt hz => ?_, fun z hle hlt hz => (h₂ z hle hlt hz).imp fun _ => List.infix_cons⟩
      obtain hxz | rfl := (show x ≤ z from hle).lt_or_eq
      case inl => exact (h₁ z hxz hlt hz).imp fun _ => List.infix_cons
      case inr => exact absurd he hz
    case right =>
      refine ⟨fun z hle hlt hz => (h₁ z hle hlt hz).imp fun _ => List.infix_cons, fun z hle hlt hz => ?_⟩
      obtain hyz | rfl := (show y ≤ z from hle).lt_or_eq
      case inl => exact (h₂ z hyz hlt hz).imp fun _ => List.infix_cons
      case inr => exact absurd he hz

-- The elements of the lists without ones that are still ahead are the same.
structure InSync (a b : List Nat) (s : State) : Prop where
  le_left  : s.i ≤ a.length
  le_right : s.j ≤ b.length
  size     : s.partialSizeA = s.partialSizeB
  rest     : (a.drop s.i).filter (· ≠ 1) = (b.drop s.j).filter (· ≠ 1)
  chain    : s.bounds.IsChain (Synced a b)
  start    : s.bounds = [] ∧ s.i = 0 ∧ s.j = 0 ∧ s.priorI = -1 ∨
    s.bounds.head? = some (0, 0) ∧ ∃ q, s.bounds.getLast? = some q ∧ s.priorI = q.1 ∧ s.priorJ = q.2 ∧
      (q = (s.i, s.j) ∨ Synced a b q (s.i, s.j))

-- A position that is the only one to advance passes a one, since otherwise the next elements would be the same.
theorem eq_one_of_lt {i j : Nat} (ha : ∀ d ∈ a, 0 < d) (hr : (a.drop i).filter (· ≠ 1) = (b.drop j).filter (· ≠ 1))
    (hi : i < a.length) (hlt : ∀ hj : j < b.length, a[i] < b[j]) : a[i] = 1 := by
  by_contra hne
  have hpos := ha _ (List.getElem_mem hi)
  rw [List.drop_eq_getElem_cons hi, List.filter_cons_of_pos (by simpa using hne)] at hr
  by_cases hj : j < b.length
  case neg =>
    rw [List.drop_eq_nil_of_le (not_lt.mp hj)] at hr
    cases hr
  case pos =>
    have hlt := hlt hj
    rw [List.drop_eq_getElem_cons hj, List.filter_cons_of_pos (by simp; omega)] at hr
    exact hlt.ne (List.cons.inj hr).1

namespace InSync

variable {s s' : State}

theorem push (h : InSync a b s) (hn : s.i > s.priorI ∨ s.j > s.priorJ) :
    InSync a b { s with priorI := s.i, priorJ := s.j, bounds := s.bounds ++ [(s.i, s.j)] } := by
  refine ⟨h.le_left, h.le_right, h.size, h.rest, ?chain, .inr ⟨?last, (s.i, s.j), by simp, rfl, rfl, .inl rfl⟩⟩
  case chain =>
    refine List.isChain_append.mpr ⟨h.chain, .singleton _, fun q hq r hr => ?_⟩
    obtain rfl : (s.i, s.j) = r := by simpa using hr
    obtain ⟨he, -⟩ | ⟨-, q', hq', hi, hj, he | hs⟩ := h.start
    case inl => simp [he] at hq
    case inr.inl =>
      rw [he] at hi hj
      omega
    case inr.inr =>
      obtain rfl : q' = q := Option.some.inj (hq'.symm.trans hq)
      exact hs
  case last =>
    obtain ⟨he, hi, hj, -⟩ | ⟨hh, -⟩ := h.start
    case inl => simp [he, hi, hj]
    case inr => simp [hh]

-- The last bounds are the positions if they are not to be added.
theorem last_eq (h : InSync a b s) (hn : ¬(s.i > s.priorI ∨ s.j > s.priorJ)) :
    s.bounds.head? = some (0, 0) ∧ s.bounds.getLast? = some (s.i, s.j) ∧ s.priorI = s.i ∧ s.priorJ = s.j := by
  obtain ⟨-, hi, -, hp⟩ | ⟨hh, q, hq, hi, hj, rfl | hs⟩ := h.start
  case inl     => exact absurd (.inl (by omega)) hn
  case inr.inl => exact ⟨hh, hq, hi, hj⟩
  case inr.inr =>
    refine absurd ?_ hn
    rw [hi, hj]
    generalize hr : (s.i, s.j) = r at hs
    cases hs <;> simp at hr <;> simp only <;> omega

section Advance

theorem advance_left (he : s.partialSizeA = s.partialSizeB) (hi : s.i < a.length) (hlt : ∀ hj : s.j < b.length, a[s.i] < b[s.j]) :
    advance a b s = .ok { s with partialSizeA := s.partialSizeA * a[s.i], i := s.i + 1 } := by
  have hA : nextA a b s = true := by
    by_cases hj : s.j < b.length
    case pos => simp [nextA, he, hi, hj, (hlt hj).le]
    case neg => simp [nextA, hi, hj]
  have hB : nextB a b s = false := by
    by_cases hj : s.j < b.length
    case pos => simp [nextB, he, hi, hj, hlt hj]
    case neg => simp [nextB, he, hj]
  rw [advance, hA, hB, if_pos rfl, advanceA_eq hi]
  rfl

theorem advance_right (he : s.partialSizeA = s.partialSizeB) (hj : s.j < b.length) (hlt : ∀ hi : s.i < a.length, b[s.j] < a[s.i]) :
    advance a b s = .ok { s with partialSizeB := s.partialSizeB * b[s.j], j := s.j + 1 } := by
  have hA : nextA a b s = false := by
    by_cases hi : s.i < a.length
    case pos => simp [nextA, he, hi, hj, hlt hi]
    case neg => simp [nextA, he, hi]
  have hB : nextB a b s = true := by
    by_cases hi : s.i < a.length
    case pos => simp [nextB, he, hi, hj, (hlt hi).le]
    case neg => simp [nextB, hi, hj]
  rw [advance, hA, hB, if_neg Bool.false_ne_true]
  exact advanceB_eq hj

theorem advance_both (he : s.partialSizeA = s.partialSizeB) (hi : s.i < a.length) (hj : s.j < b.length) (hab : a[s.i] = b[s.j]) :
    advance a b s = .ok { s with
      partialSizeA := s.partialSizeA * a[s.i], i := s.i + 1, partialSizeB := s.partialSizeB * b[s.j], j := s.j + 1 } := by
  have hA : nextA a b s = true := by simp [nextA, he, hi, hj, hab]
  have hB : nextB a b s = true := by simp [nextB, he, hi, hj, hab]
  rw [advance, hA, hB, if_pos rfl, advanceA_eq hi]
  exact advanceB_eq (s := { s with partialSizeA := s.partialSizeA * a[s.i], i := s.i + 1 }) hj

end Advance

variable (h : InSync a b s)
include h

theorem advanceLeft (hi : s.i < a.length) (h₁ : a[s.i] = 1)
    (hl : s.bounds.head? = some (0, 0) ∧ s.bounds.getLast? = some (s.i, s.j) ∧ s.priorI = s.i ∧ s.priorJ = s.j) :
    InSync a b { s with partialSizeA := s.partialSizeA * a[s.i], i := s.i + 1 } := by
  refine ⟨hi, h.le_right, by rw [h₁, Nat.mul_one, h.size], ?rest, h.chain,
      .inr ⟨hl.1, (s.i, s.j), hl.2.1, hl.2.2.1, hl.2.2.2, ?unit⟩⟩
  case rest =>
    have hr := h.rest
    rwa [List.drop_eq_getElem_cons hi, List.filter_cons_of_neg (by simpa using h₁)] at hr
  case unit => exact .inr (.left (by rw [List.getElem?_eq_getElem hi, h₁]))

theorem advanceRight (hj : s.j < b.length) (h₁ : b[s.j] = 1)
    (hl : s.bounds.head? = some (0, 0) ∧ s.bounds.getLast? = some (s.i, s.j) ∧ s.priorI = s.i ∧ s.priorJ = s.j) :
    InSync a b { s with partialSizeB := s.partialSizeB * b[s.j], j := s.j + 1 } := by
  refine ⟨h.le_left, hj, by rw [h₁, Nat.mul_one, h.size], ?rest, h.chain,
      .inr ⟨hl.1, (s.i, s.j), hl.2.1, hl.2.2.1, hl.2.2.2, ?unit⟩⟩
  case rest =>
    have hr := h.rest
    rwa [List.drop_eq_getElem_cons hj, List.filter_cons_of_neg (by simpa using h₁)] at hr
  case unit => exact .inr (.right (by rw [List.getElem?_eq_getElem hj, h₁]))

theorem advanceBoth (hi : s.i < a.length) (hj : s.j < b.length) (hab : a[s.i] = b[s.j])
    (hl : s.bounds.head? = some (0, 0) ∧ s.bounds.getLast? = some (s.i, s.j) ∧ s.priorI = s.i ∧ s.priorJ = s.j) :
    InSync a b { s with
      partialSizeA := s.partialSizeA * a[s.i], i := s.i + 1, partialSizeB := s.partialSizeB * b[s.j], j := s.j + 1 } := by
  refine ⟨hi, hj, by rw [hab, h.size], ?rest, h.chain, .inr ⟨hl.1, (s.i, s.j), hl.2.1, hl.2.2.1, hl.2.2.2, ?equal⟩⟩
  case rest =>
    have hr := h.rest
    rw [List.drop_eq_getElem_cons hi, List.drop_eq_getElem_cons hj, hab, List.filter_cons, List.filter_cons] at hr
    split_ifs at hr
    case pos => exact (List.cons.inj hr).2
    case neg => exact hr
  case equal => exact .inr (.both (by rw [List.getElem?_eq_getElem hi, List.getElem?_eq_getElem hj, hab]))

theorem advance (ha : ∀ d ∈ a, 0 < d) (hb : ∀ d ∈ b, 0 < d) (hin : s.i < a.length ∨ s.j < b.length)
    (hl : s.bounds.head? = some (0, 0) ∧ s.bounds.getLast? = some (s.i, s.j) ∧ s.priorI = s.i ∧ s.priorJ = s.j) :
    ∃ s', CommonFactors.advance a b s = .ok s' ∧ InSync a b s' := by
  have left (hi : s.i < a.length) (hlt : ∀ hj : s.j < b.length, a[s.i] < b[s.j]) :
      ∃ s', CommonFactors.advance a b s = .ok s' ∧ InSync a b s' :=
    ⟨_, advance_left h.size hi hlt, h.advanceLeft hi (eq_one_of_lt ha h.rest hi hlt) hl⟩
  have right (hj : s.j < b.length) (hlt : ∀ hi : s.i < a.length, b[s.j] < a[s.i]) :
      ∃ s', CommonFactors.advance a b s = .ok s' ∧ InSync a b s' :=
    ⟨_, advance_right h.size hj hlt, h.advanceRight hj (eq_one_of_lt hb h.rest.symm hj hlt) hl⟩
  by_cases hi : s.i < a.length
  case neg => exact right (hin.resolve_left hi) fun hi' => absurd hi' hi
  case pos =>
    by_cases hj : s.j < b.length
    case neg => exact left hi fun hj' => absurd hj' hj
    case pos =>
      obtain hlt | heq | hgt := Nat.lt_trichotomy a[s.i] b[s.j]
      case inl     => exact left hi fun _ => hlt
      case inr.inl => exact ⟨_, advance_both h.size hi hj heq, h.advanceBoth hi hj heq hl⟩
      case inr.inr => exact right hj fun _ => hgt

end InSync

theorem loop_inSync (ha : ∀ d ∈ a, 0 < d) (hb : ∀ d ∈ b, 0 < d) {s : State} {fuel : Nat} (h : InSync a b s)
    (hl : loop a b fuel s = .ok bounds) :
    bounds.head? = some (0, 0) ∧ bounds.getLast? = some (a.length, b.length) ∧ bounds.IsChain (Synced a b) := by
  induction fuel generalizing s
  case zero => cases hl
  case succ fuel hi =>
    rw [loop] at hl
    split_ifs at hl with hc hin
    case pos => exact hi (h.push hc.2) hl
    case pos =>
      obtain ⟨s', hs', h'⟩ := h.advance ha hb hin (h.last_eq fun hn => hc ⟨h.size, hn⟩)
      rw [hs'] at hl
      exact hi h' hl
    case neg =>
      obtain rfl : s.bounds = bounds := Except.ok.inj hl
      obtain ⟨hh, hq, -⟩ := h.last_eq fun hn => hc ⟨h.size, hn⟩
      have hle := h.le_left
      have hle' := h.le_right
      obtain ⟨hni, hnj⟩ : s.i = a.length ∧ s.j = b.length := by omega
      exact ⟨hh, by rw [hq, hni, hnj], h.chain⟩

end Synced

section Prefix

theorem unmodified_diagonal {k start : Nat} {rest : List (Nat × Nat)} :
    unmodified ((List.range' start k).map (fun i => (i, i)) ++ (start + k, start + k) :: rest) =
      (List.range' start k).map (fun i => (i, i)) ++ unmodified ((start + k, start + k) :: rest) := by
  induction k generalizing start
  case zero => rfl
  case succ k hi =>
    have hi := @hi (start + 1)
    rw [Nat.add_right_comm, Nat.add_assoc] at hi
    rw [List.range'_succ, List.map_cons, List.cons_append, List.cons_append, ← hi]
    cases k
    case zero   => exact unmodified_cons_of_unit rfl
    case succ k =>
      rw [List.range'_succ, List.map_cons, List.cons_append]
      exact unmodified_cons_of_unit rfl

theorem equalPrefix_self : equalPrefix a a = a.length := by
  induction a
  case nil          => rfl
  case cons d a hi  => rw [equalPrefix, if_pos rfl, hi, List.length_cons]

theorem diagonal_eq : diagonal k = (List.range' 0 k).map fun i => (i, i) := by
  rw [diagonal, List.range_eq_range']

-- The bounds of the common prefix are those of factors of rank one.
theorem unmodified_append (h : bounds.head? = some (0, 0)) :
    unmodified (diagonal k ++ shiftBounds k bounds) = diagonal k ++ unmodified (shiftBounds k bounds) := by
  obtain ⟨bounds, rfl⟩ := List.head?_eq_some_iff.mp h
  have hd := @unmodified_diagonal k 0 (shiftBounds k bounds)
  rw [Nat.zero_add] at hd
  rw [diagonal_eq, shiftBounds, List.map_cons, ← shiftBounds]
  exact hd

theorem mem_diagonal_fst : x ∈ (diagonal k).map Prod.fst ↔ x < k := by
  simp [diagonal]

theorem mem_diagonal_snd : x ∈ (diagonal k).map Prod.snd ↔ x < k := by
  simp [diagonal]

theorem unmodified_whole (hp : a.prod = b.prod) (hne : a ≠ b) {k : Nat} :
    unmodified [(k, k), (k + a.length, k + b.length)] = [] := by
  refine unmodified_cons_of_not_unit fun he => hne ?_
  simp only [Prod.mk.injEq, Nat.add_left_cancel_iff] at he
  obtain ⟨x, rfl⟩ := List.length_eq_one_iff.mp he.1
  obtain ⟨y, rfl⟩ := List.length_eq_one_iff.mp he.2
  rw [List.prod_singleton, List.prod_singleton] at hp
  rw [hp]

-- The dimensions after the longest common prefix.
theorem commonFactors_of_prefix (hp : (p ++ a).prod = (p ++ b).prod) (hl : equalPrefix (p ++ a) (p ++ b) = p.length)
    (hne : p ++ a ≠ p ++ b) :
    commonFactors (p ++ a) (p ++ b) =
      if a.prod ≠ b.prod then .ok [(0, 0), ((p ++ a).length, (p ++ b).length)]
      else if a.prod = 0 then .ok (diagonal p.length ++ shiftBounds p.length [(0, 0), (a.length, b.length)])
      else (loop a b (2 * ((p ++ a).length + (p ++ b).length) + 2) ⟨0, 0, -1, -1, 1, 1, []⟩).map
        (diagonal p.length ++ shiftBounds p.length ·) := by
  rw [commonFactors, check, if_pos (by simpa using hp), hl]
  simp only [pure_bind, List.drop_left]
  rw [if_neg hne]
  split_ifs with h₁ h₂
  case pos => rfl
  case pos =>
    simp [diagonal, shiftBounds]
    rfl
  case neg =>
    have hs : State.shift (diagonal p.length) p.length ⟨0, 0, -1, -1, 1, 1, []⟩ =
        ⟨p.length, p.length, p.length - 1, p.length - 1, 1, 1, diagonal p.length⟩ := by
      simp [State.shift, shiftBounds, Int.sub_eq_add_neg]
    have hl : loop (p ++ a) (p ++ b) (2 * ((p ++ a).length + (p ++ b).length) + 2)
        (State.shift (diagonal p.length) p.length ⟨0, 0, -1, -1, 1, 1, []⟩) = _ := loop_shift
    rw [hs] at hl
    exact hl

end Prefix

end Shape
