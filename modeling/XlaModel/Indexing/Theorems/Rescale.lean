import XlaModel.Indexing.ConstraintSimplifier
import XlaModel.Indexing.Theorems.MergeMod
import XlaModel.Symbolic.Theorems.Expr

namespace Indexing

open Symbolic SymbolicExpr Fallible

section Rescale

variable {i : Interval} {factor shift a x : Int}

-- The truncation is exact at both bounds, or the rescaled interval is empty.
def TruncationExact (i : Interval) (factor shift : Int) : Prop :=
  ((i.lower ≤ shift ∨ factor ∣ i.lower - shift) ∧ (shift ≤ i.upper ∨ factor ∣ i.upper - shift)) ∨
  (i.upper - shift).tdiv factor < (i.lower - shift).tdiv factor

instance : Decidable (TruncationExact i factor shift) :=
  inferInstanceAs (Decidable (((_ ∨ _) ∧ (_ ∨ _)) ∨ _))

theorem tdiv_le_of_le_mul (hf : 0 < factor) (h : a ≤ factor * x) : a.tdiv factor ≤ x := by
  have := Int.tdiv_le_tdiv hf h
  rwa [Int.mul_tdiv_cancel_left x hf.ne'] at this

theorem le_tdiv_of_mul_le (hf : 0 < factor) (h : factor * x ≤ a) : x ≤ a.tdiv factor := by
  have := Int.tdiv_le_tdiv hf h
  rwa [Int.mul_tdiv_cancel_left x hf.ne'] at this

theorem le_mul_of_tdiv_le (hf : 0 < factor) (ha : a ≤ 0 ∨ factor ∣ a) (h : a.tdiv factor ≤ x) :
    a ≤ factor * x := by
  have hle : a ≤ factor * a.tdiv factor := by
    cases ha
    case inr ha => exact (Int.mul_tdiv_cancel' ha).ge
    case inl ha =>
      have := Int.mul_tdiv_self_le (k := factor) (show 0 ≤ -a by omega)
      rw [Int.neg_tdiv, Int.mul_neg] at this
      omega
  exact hle.trans (mul_le_mul_of_nonneg_left h hf.le)

theorem mul_le_of_le_tdiv (hf : 0 < factor) (ha : 0 ≤ a ∨ factor ∣ a) (h : x ≤ a.tdiv factor) :
    factor * x ≤ a := by
  have := le_mul_of_tdiv_le (x := -x) (a := -a) hf (by rw [Int.dvd_neg]; omega)
    (by rw [Int.neg_tdiv]; omega)
  rw [Int.mul_neg] at this
  omega

def RescaleFits (i : Interval) (shift : Int) : Prop :=
  ¬overflows (i.lower - shift) ∧ ¬overflows (i.upper - shift)

instance : Decidable (RescaleFits i shift) :=
  inferInstanceAs (Decidable (_ ∧ _))

theorem truncationExact_iff (hs : RescaleFits i shift) (hf : 0 < factor) :
    TruncationExact i factor shift ↔ ∀ x, x ∈ i.rescale factor shift ↔ factor * x + shift ∈ i := by
  simp only [Interval.rescale, wrap64_eq hs.1, wrap64_eq hs.2, Interval.mem_def]
  constructor
  case mp =>
    intro h x
    constructor
    case mpr =>
      intro hx
      exact ⟨tdiv_le_of_le_mul hf (by omega), le_tdiv_of_mul_le hf (by omega)⟩
    case mp =>
      intro hx
      cases h
      case inr h => omega
      case inl h =>
        have := le_mul_of_tdiv_le hf (h.1.imp_left fun h => by omega) hx.1
        have := mul_le_of_le_tdiv hf (h.2.imp_left fun h => by omega) hx.2
        omega
  case mpr =>
    intro h
    by_contra hn
    have ⟨hn, hle⟩ := not_or.mp hn
    have hle := not_lt.mp hle
    -- Both bounds of the rescaled interval are points of it.
    have hl := ((h _).mp ⟨le_rfl, hle⟩).1
    have hu := ((h _).mp ⟨hle, le_rfl⟩).2
    refine hn ⟨?lower, ?upper⟩
    case lower =>
      by_cases hs : i.lower ≤ shift
      case pos => exact .inl hs
      case neg =>
        have := Int.mul_tdiv_self_le (k := factor) (show 0 ≤ i.lower - shift by omega)
        exact .inr ⟨_, le_antisymm (by omega) this⟩
    case upper =>
      by_cases hs : shift ≤ i.upper
      case pos => exact .inl hs
      case neg =>
        have := Int.mul_tdiv_self_le (k := factor) (show 0 ≤ -(i.upper - shift) by omega)
        rw [Int.neg_tdiv, Int.mul_neg] at this
        exact .inr ⟨(i.upper - shift).tdiv factor, le_antisymm (by omega) (by omega)⟩

end Rescale

-- The values of the old variables in terms of the new ones.
def unscale (factor shift : Nat → Int) (ρ : Nat → Int) : Nat → Int :=
  fun id => factor id * ρ id + shift id

namespace IndexingMap

variable {m : IndexingMap} {ρ factor shift : Nat → Int} {s : Rescaling} {id : Nat} {c r : Int}

def IsRangeVar (m : IndexingMap) (id : Nat) : Prop :=
  m.symbolicMap.numDims ≤ id ∧ id - m.symbolicMap.numDims < m.rangeVars.length

-- The first constraint on a remainder of a symbol, in the order of the map.
structure IsFirst (m : IndexingMap) (id : Nat) (c r : Int) : Prop where
  symbol   : m.symbolicMap.numDims ≤ id
  positive : 0 < c
  first    : ∃ l₁ l₂, m.constraints = l₁ ++ (binary .mod (var id) (const c), ⟨r, r⟩) :: l₂ ∧
    ∀ c' > 0, ∀ r', (binary .mod (var id) (const c'), ⟨r', r'⟩) ∉ l₁

-- The constraint is satisfiable and the truncation of the bounds is exact.
structure SymbolExact (m : IndexingMap) (id : Nat) (c r : Int) : Prop where
  isRange : id - m.symbolicMap.numDims < m.rangeVars.length
  residue : 0 ≤ r ∧ r < c
  bounds  : ∀ i, m.variableBound id = some i → RescaleFits i r ∧ TruncationExact i c r

inductive RescaledSymbol (m : IndexingMap) (s : Rescaling) (id : Nat) (c r : Int) : Prop
  | kept (lookup : s.toReplace.lookup (var id) = none) (factor : c = 1) (shift : r = 0)
      (bound : s.map.variableBound id = m.variableBound id)
  | rescaled (lookup : s.toReplace.lookup (var id) = some (((const c).mul (var id)).add (const r)))
      (residue : 0 ≤ r ∧ r < c) (isRange : m.IsRangeVar id)
      (constraint : (binary .mod (var id) (const c), ⟨r, r⟩) ∈ m.constraints)
      (bound : ∃ i i', m.variableBound id = some i ∧ s.map.variableBound id = some i' ∧
        ∀ x, x ∈ i' ↔ c * x + r ∈ i)

structure Rescaled (m : IndexingMap) (factor shift : Nat → Int) (s : Rescaling) : Prop where
  symbol  : ∀ id, RescaledSymbol m s id (factor id) (shift id)
  vars    : ReplacesVars s.toReplace
  deleted : ∀ d ∈ s.toDelete, ∃ id, d = binary .mod (var id) (const (factor id)) ∧
    s.toReplace.lookup (var id) ≠ none
  result  : ∀ ρ, s.map.symbolicMap.exprs.map (·.eval ρ) =
    m.symbolicMap.exprs.map (·.eval (unscale factor shift ρ))
  numDims : s.map.symbolicMap.numDims = m.symbolicMap.numDims
  length  : s.map.rangeVars.length = m.rangeVars.length
  empty   : s.map.isKnownEmpty = m.isKnownEmpty

theorem RescaledSymbol.eval_replace (h : RescaledSymbol m s id c r) :
    ((var id).replace s.toReplace).eval ρ = c * ρ id + r := by
  cases h
  case kept hl hc hr _ => rw [replace, hl, hc, hr]; simp [eval]
  case rescaled hl _ _ _ _ =>
    rw [replace, hl, Option.getD_some, eval_add, eval_mul, eval_const, eval_const]
    rfl

theorem Rescaled.eval_replace (h : Rescaled m factor shift s) (e : SymbolicExpr) :
    (e.replace s.toReplace).eval ρ = e.eval (unscale factor shift ρ) := by
  rw [SymbolicExpr.eval_replace h.vars]
  exact eval_congr e fun id => (h.symbol id).eval_replace

theorem variableBound_set_rangeVars {i : Interval} (h : m.IsRangeVar id) (sm : SymbolicMap)
    (hs : sm.numDims = m.symbolicMap.numDims) (id' : Nat) :
    { m with symbolicMap := sm, rangeVars := m.rangeVars.set (id - m.symbolicMap.numDims) i
      : IndexingMap }.variableBound id' = if id' = id then some i else m.variableBound id' := by
  have heq := variableBound_setVariableBound m id id' i
  obtain ⟨hge, hlt⟩ := h
  have hsome : (m.variableBound id).map (fun _ => i) = some i := by
    simp [variableBound, getSymbolBound, not_lt.mpr hge, hlt]
  rw [hsome] at heq
  rw [← heq, setVariableBound, if_neg (not_lt.mpr hge), if_pos hlt]
  simp [variableBound, getDimensionBound, getSymbolBound, hs]

theorem RescaledSymbol.not_replaced (h : RescaledSymbol m s id c r)
    (hl : s.toReplace.lookup (var id) = none) :
    c = 1 ∧ r = 0 ∧ s.map.variableBound id = m.variableBound id := by
  cases h
  case kept hc hr hb        => exact ⟨hc, hr, hb⟩
  case rescaled hl' _ _ _ _ => rw [hl] at hl'; contradiction

theorem eval_replace_var (e : SymbolicExpr) (id : Nat) (c r : Int) :
    (e.replace [(var id, ((const c).mul (var id)).add (const r))]).eval ρ =
      e.eval (Function.update ρ id (c * ρ id + r)) := by
  rw [SymbolicExpr.eval_replace]
  case h =>
    intro e e' he
    rw [List.lookup_cons] at he
    split at he
    case h_1 heq => exact ⟨id, by simpa using heq⟩
    case h_2     => contradiction
  refine eval_congr e fun id' => ?_
  rw [replace, List.lookup_cons]
  by_cases hid : id' = id
  case pos =>
    rw [hid, beq_self_eq_true, Function.update_self]
    simp only [Option.getD_some, eval_add, eval_mul, eval_const]
    rfl
  case neg =>
    rw [Function.update_of_ne hid, beq_eq_false_iff_ne.mpr (by simpa using hid)]
    rfl

theorem variableBound_of_rangeVar (h : m.IsRangeVar id) :
    m.variableBound id = m.rangeVars[id - m.symbolicMap.numDims]? := by
  rw [variableBound, if_neg (not_lt.mpr h.1), getSymbolBound, if_pos h.2]

theorem rescaleSymbol_step (h : Rescaled m factor shift s)
    (hp : (binary .mod (var id) (const c), ⟨r, r⟩) ∈ m.constraints)
    (hid : s.map.symbolicMap.numDims ≤ id) (hl : s.toReplace.lookup (var id) = none)
    (hx : SymbolExact m id c r) :
    Yields (rescaleSymbol s id c r) (fun s' =>
      Rescaled m (Function.update factor id c) (Function.update shift id r) s' ∧
        s'.toReplace = (var id, ((const c).mul (var id)).add (const r)) :: s.toReplace) := by
  have ⟨hc, hr, hb⟩ := (h.symbol id).not_replaced hl
  have hrange : s.map.IsRangeVar id := ⟨hid, h.numDims ▸ h.length ▸ hx.isRange⟩
  have hrange' : m.IsRangeVar id := ⟨h.numDims ▸ hid, hx.isRange⟩
  obtain ⟨i, hi⟩ : ∃ i, s.map.rangeVars[id - s.map.symbolicMap.numDims]? = some i :=
    ⟨_, List.getElem?_eq_getElem hrange.2⟩
  have hi' : m.variableBound id = some i := by rw [← hb, variableBound_of_rangeVar hrange, hi]
  have hbound id' := variableBound_set_rangeVars (i := i.rescale c r) hrange
    (s.map.symbolicMap.replace (var id) (((const c).mul (var id)).add (const r))) rfl id'
  have hlookup id' (hne : id' ≠ id) (e : SymbolicExpr) :
      ((var id, e) :: s.toReplace).lookup (var id') = s.toReplace.lookup (var id') := by
    rw [List.lookup_cons, beq_eq_false_iff_ne.mpr (by simpa using hne)]
  simp only [rescaleSymbol, hi, Option.bind_eq_bind, Option.bind_some]
  refine .pure ⟨⟨fun id' => ?symbol, ?vars, ?deleted, ?result, h.numDims, ?length, h.empty⟩, rfl⟩
  case symbol =>
    by_cases hne : id' = id
    case pos =>
      subst hne
      rw [Function.update_self, Function.update_self]
      have ⟨hf, ht⟩ := hx.bounds i hi'
      refine .rescaled (by simp) hx.residue hrange' hp ⟨i, i.rescale c r, hi', by simp [hbound], ?_⟩
      exact (truncationExact_iff hf (hx.residue.1.trans_lt hx.residue.2)).mp ht
    case neg =>
      rw [Function.update_of_ne hne, Function.update_of_ne hne]
      have hb' : _ = s.map.variableBound id' := (hbound id').trans (if_neg hne)
      cases h.symbol id'
      case kept hl hc hr hb            => exact .kept ((hlookup id' hne _).trans hl) hc hr (hb'.trans hb)
      case rescaled hl hres hrg hcs hb =>
        obtain ⟨i, i', hi, hi', hiff⟩ := hb
        exact .rescaled ((hlookup id' hne _).trans hl) hres hrg hcs ⟨i, i', hi, hb'.trans hi', hiff⟩
  case vars =>
    intro e e' he
    rw [List.lookup_cons] at he
    split at he
    case h_1 heq => exact ⟨id, by simpa using heq⟩
    case h_2     => exact h.vars e e' he
  case deleted =>
    intro d hd
    cases List.mem_cons.mp hd
    case inl hd => exact ⟨id, by simpa using hd, by simp⟩
    case inr hd =>
      obtain ⟨id', hd, hl'⟩ := h.deleted d hd
      have hne : id' ≠ id := fun he => hl' (he ▸ hl)
      exact ⟨id', by rwa [Function.update_of_ne hne], by rwa [hlookup id' hne]⟩
  case result =>
    intro ρ
    have hu : unscale factor shift (Function.update ρ id (c * ρ id + r)) =
        unscale (Function.update factor id c) (Function.update shift id r) ρ := by
      funext id'
      by_cases hne : id' = id
      case pos => simp [hne, unscale, hc, hr]
      case neg => simp [unscale, Function.update_of_ne hne]
    rw [← hu, ← h.result]
    simp [SymbolicMap.replace, eval_replace_var]
  case length => rw [List.length_set, h.length]

-- The loop over the constraints. The constraints `pre` are processed.
structure RescalingInv (m : IndexingMap) (pre post : List (SymbolicExpr × Interval)) (s : Rescaling) :
    Prop where
  split    : m.constraints = pre ++ post
  rescaled : ∃ factor shift, Rescaled m factor shift s
  firsts   : ∀ e e', (e, e') ∈ s.toReplace →
    ∃ id c r, IsFirst m id c r ∧ e = var id ∧ e' = ((const c).mul (var id)).add (const r)
  seen     : ∀ id c r, m.symbolicMap.numDims ≤ id → 0 < c →
    (binary .mod (var id) (const c), ⟨r, r⟩) ∈ pre → s.toReplace.lookup (var id) ≠ none

-- A constraint that is skipped.
theorem RescalingInv.skip (h : RescalingInv m pre (p :: post) s)
    (hp : ∀ id c r, m.symbolicMap.numDims ≤ id → 0 < c → p = (binary .mod (var id) (const c), ⟨r, r⟩) →
      s.toReplace.lookup (var id) ≠ none) : RescalingInv m (pre ++ [p]) post s where
  split    := by simpa using h.split
  rescaled := h.rescaled
  firsts   := h.firsts
  seen id c r hid hc hmem := by
    cases List.mem_append.mp hmem
    case inl hmem => exact h.seen id c r hid hc hmem
    case inr hmem => exact hp id c r hid hc (List.mem_singleton.mp hmem).symm

theorem rescaleConstraint_inv (hx : ∀ id c r, IsFirst m id c r → SymbolExact m id c r)
    (h : RescalingInv m pre (p :: post) s) :
    Yields (rescaleConstraint s p) (RescalingInv m (pre ++ [p]) post) := by
  obtain ⟨factor, shift, hr⟩ := h.rescaled
  obtain ⟨e, i⟩ := p
  simp only [rescaleConstraint]
  split
  case h_2 hn =>
    refine .pure (h.skip fun id c r _ _ he => ?_)
    obtain ⟨rfl, rfl⟩ := Prod.mk.inj he
    exact absurd rfl (hn id c ⟨r, r⟩)
  case h_1 id c i heq =>
    obtain ⟨rfl, rfl⟩ := Prod.mk.inj heq
    split
    case isFalse hn =>
      refine .pure (h.skip fun id' c' r' hid hc he hl => hn ?_)
      obtain ⟨he, rfl⟩ := Prod.mk.inj he
      obtain ⟨rfl, rfl⟩ : id = id' ∧ c = c' := by simpa using he
      exact ⟨by simp [Interval.isPoint], hc, hr.numDims ▸ hid, hl⟩
    case isTrue hc =>
      obtain ⟨hpt, hc, hid, hl⟩ := hc
      obtain ⟨r, rfl⟩ : ∃ r, i = ⟨r, r⟩ := ⟨i.lower, Interval.eq_mk_of_isPoint hpt⟩
      have hmem : (binary .mod (var id) (const c), ⟨r, r⟩) ∈ m.constraints := by simp [h.split]
      have hfirst : IsFirst m id c r :=
        ⟨hr.numDims ▸ hid, hc, pre, post, h.split, fun c' hc' r' hm => h.seen id c' r' (hr.numDims ▸ hid) hc' hm hl⟩
      refine (rescaleSymbol_step hr hmem hid hl (hx id c r hfirst)).imp fun s' hs' => ?_
      obtain ⟨hr', hrep⟩ := hs'
      refine ⟨by simpa using h.split, ⟨_, _, hr'⟩, fun e e' he => ?firsts, fun id' c' r' hid' hc' hm => ?seen⟩
      case firsts =>
        rw [hrep] at he
        cases List.mem_cons.mp he
        case inr he => exact h.firsts e e' he
        case inl he =>
          obtain ⟨rfl, rfl⟩ := Prod.mk.inj he
          exact ⟨id, c, r, hfirst, rfl, rfl⟩
      case seen =>
        rw [hrep, MapVector.lookup_cons]
        by_cases he : id' = id
        case pos => simp [he]
        case neg =>
          rw [if_neg (by simpa using he)]
          cases List.mem_append.mp hm
          case inl hm => exact h.seen id' c' r' hid' hc' hm
          case inr hm => simp [he] at hm

theorem rescaled_init (m : IndexingMap) : Rescaled m (fun _ => 1) (fun _ => 0) ⟨[], [], m⟩ where
  symbol id  := .kept rfl rfl rfl rfl
  vars e e'  := by simp
  deleted d  := by simp
  result ρ   := by
    have : unscale (fun _ => 1) (fun _ => 0) ρ = ρ := by
      funext id
      simp [unscale]
    rw [this]
  numDims    := rfl
  length     := rfl
  empty      := rfl

section Domain

-- The keys of the rewritten constraints.
def rewrittenKeys (constraints : List (SymbolicExpr × Interval)) (s : Rescaling) : List SymbolicExpr :=
  (constraints.filter (·.1 ∉ s.toDelete)).map (·.1.replace s.toReplace)

theorem mem_replaceConstraints {constraints : List (SymbolicExpr × Interval)}
    (h : (rewrittenKeys constraints s).Nodup) :
    p ∈ replaceConstraints constraints s ↔
      ∃ q ∈ constraints, q.1 ∉ s.toDelete ∧ (q.1.replace s.toReplace, q.2) = p := by
  have heq : replaceConstraints constraints s =
      (constraints.filter (·.1 ∉ s.toDelete)).foldl
        (fun new c => MapVector.set new (c.1.replace s.toReplace) c.2) [] := by
    rw [List.foldl_filter, replaceConstraints]
    congr
    funext new c
    by_cases hc : c.1 ∈ s.toDelete <;> simp [hc]
  rw [heq, MapVector.foldl_set (by simpa [MapVector.keys, rewrittenKeys] using h)]
  simp [and_assoc]

theorem RescaledSymbol.unscale_iff (h : RescaledSymbol m s id c r) :
    (∀ i', s.map.variableBound id = some i' → x ∈ i') ↔
      ∀ i, m.variableBound id = some i → c * x + r ∈ i := by
  cases h
  case kept hc hr hb           => simp [hc, hr, hb]
  case rescaled _ _ _ _ hb =>
    obtain ⟨i, i', hi, hi', hx⟩ := hb
    simp [hi, hi', hx]

theorem Rescaled.satisfied (h : Rescaled m factor shift s) (hn : (MapVector.keys m.constraints).Nodup)
    (hk : (rewrittenKeys m.constraints s).Nodup) :
    (∀ p ∈ replaceConstraints m.constraints s, p.1.eval ρ ∈ p.2) ↔
      m.ConstraintsSatisfied (unscale factor shift ρ) := by
  constructor
  case mp =>
    intro hs q hq
    by_cases hd : q.1 ∈ s.toDelete
    case neg =>
      have := hs _ ((mem_replaceConstraints hk).mpr ⟨q, hq, hd, rfl⟩)
      rwa [h.eval_replace] at this
    case pos =>
      obtain ⟨id, hid, hl⟩ := h.deleted q.1 hd
      cases h.symbol id
      case kept hl' _ _ _ => contradiction
      case rescaled hres _ hc _ =>
        have hv := MapVector.value_unique hn (k := q.1) hq (hid ▸ hc)
        have hpos := hres.1.trans_lt hres.2
        have he : q.1.eval (unscale factor shift ρ) = shift id := by
          rw [hid, eval_modOp hpos]
          simp [eval, unscale, Int.emod_eq_of_lt hres.1 hres.2]
        rw [he, hv, Interval.mem_def]
        exact ⟨le_rfl, le_rfl⟩
  case mpr =>
    intro hs p hp
    obtain ⟨q, hq, _, rfl⟩ := (mem_replaceConstraints hk).mp hp
    rw [h.eval_replace]
    exact hs q hq

theorem Rescaled.domain (h : Rescaled m factor shift s) (hn : (MapVector.keys m.constraints).Nodup)
    (hk : (rewrittenKeys m.constraints s).Nodup) (ρ : Nat → Int) :
    { s.map with constraints := replaceConstraints m.constraints s : IndexingMap }.Domain ρ ↔
      m.Domain (unscale factor shift ρ) := by
  have hb : s.map.InBounds ρ ↔ m.InBounds (unscale factor shift ρ) :=
    forall_congr' fun id => (h.symbol id).unscale_iff
  have hs := h.satisfied (ρ := ρ) hn hk
  constructor
  case mp  => exact fun hd => ⟨h.empty ▸ hd.1, hb.mp hd.2, hs.mp hd.3⟩
  case mpr => exact fun hd => ⟨h.empty.trans hd.1, hb.mpr hd.2, hs.mpr hd.3⟩

theorem RescaledSymbol.factor_pos (h : RescaledSymbol m s id c r) : 0 < c := by
  cases h
  case kept hc _ _            => omega
  case rescaled _ hres _ _ _  => omega

-- The residue of a rescaled symbol is known in the domain.
theorem RescaledSymbol.exists_unscale (h : RescaledSymbol m s id c r) (hd : m.Domain ρ) :
    c * ((ρ id - r) / c) + r = ρ id := by
  cases h
  case kept hc hr _ => simp [hc, hr]
  case rescaled hres _ hcs _ =>
    have hm := hd.constraints _ hcs
    rw [eval_modOp (hres.1.trans_lt hres.2), Interval.mem_def] at hm
    have hdvd : c ∣ ρ id - r := by
      have : ρ id % c = r := le_antisymm hm.2 hm.1
      exact this ▸ Int.dvd_self_sub_emod
    rw [Int.mul_ediv_cancel' hdvd]
    omega

theorem Rescaled.bijOn (h : Rescaled m factor shift s) (hn : (MapVector.keys m.constraints).Nodup)
    (hk : (rewrittenKeys m.constraints s).Nodup) :
    Set.BijOn (unscale factor shift)
      {ρ | { s.map with constraints := replaceConstraints m.constraints s : IndexingMap }.Domain ρ}
      {ρ | m.Domain ρ} := by
  refine ⟨fun ρ hd => (h.domain hn hk ρ).mp hd, fun ρ _ ρ' _ he => ?inj, fun ρ hd => ?surj⟩
  case inj =>
    funext id
    have hid : factor id * ρ id + shift id = factor id * ρ' id + shift id := congrFun he id
    exact Int.eq_of_mul_eq_mul_left (h.symbol id).factor_pos.ne' (by omega)
  case surj =>
    have he : unscale factor shift (fun id => (ρ id - shift id) / factor id) = ρ :=
      funext fun id => (h.symbol id).exists_unscale hd
    exact ⟨_, (h.domain hn hk _).mpr (by rwa [he]), he⟩

end Domain

section Condition

variable {groups : List (Int × List SymbolicExpr)} {g : Int × List SymbolicExpr} {m₁ : IndexingMap} {b : Bool}

-- The bounds after the roundings, and that these do not overflow.
def roundedAll (gs : List (Int × Int)) (i : Interval) : Interval :=
  gs.foldl (fun i g => i.rounded g.1 g.2) i

def RoundsFit (i : Interval) : List (Int × Int) → Prop
  | []               => True
  | (div, res) :: gs => RoundFits i div res ∧ RoundsFit (i.rounded div res) gs

theorem RoundsFit.roundAll_eq {i : Interval} {gs : List (Int × Int)} (h : RoundsFit i gs) :
    roundAll gs i = roundedAll gs i := by
  induction gs generalizing i
  case nil          => rfl
  case cons g gs hi =>
    obtain ⟨hf, h⟩ := h
    have hround := hi h
    rw [← hf.round_eq] at hround
    simpa [roundAll, roundedAll, hf.round_eq] using hround

-- The groups of a symbol that may give its first constraint. The merged constraints come last, unless they
-- overwrite a constraint.
def FirstGroup (m : IndexingMap) (id : Nat) (groups : List (Int × List SymbolicExpr))
    (g : Int × List SymbolicExpr) (div : Int) : Prop :=
  if 1 < g.2.length then
    (∀ g' ∈ groups, 1 < g'.2.length) ∨
    (binary .mod (var id) (const div) ∈ MapVector.keys m.constraints ∧ binary .mod (var id) (const div) ∉ g.2)
  else
    ∀ g' ∈ groups, ¬1 < g'.2.length → ∀ op ∈ g.2, ∀ op' ∈ g'.2,
      ¬[op', op].Sublist (MapVector.keys m.constraints)

-- A symbol is rescaled by the modulus `div` and the residue `res`.
structure Rescales (m : IndexingMap) (id : Nat) (groups : List (Int × List SymbolicExpr)) (div res : Int) :
    Prop where
  symbol : m.symbolicMap.numDims ≤ id
  lhs    : LhsGroups m (var id) groups
  first  : ∃ ops, (res, ops) ∈ groups ∧ m.lcmOfDivisors ops = some div ∧ FirstGroup m id groups (res, ops) div

-- The symbol is a range variable, the residue is possible, and the bounds after the roundings are divided
-- exactly.
structure RescaleExact (m : IndexingMap) (id : Nat) (groups : List (Int × List SymbolicExpr)) (div res : Int) :
    Prop where
  isRange : id - m.symbolicMap.numDims < m.rangeVars.length
  residue : 0 ≤ res ∧ res < div
  fits    : ∀ i, m.variableBound id = some i → RoundsFit i (m.residues groups)
  bounds  : ∀ i, m.variableBound id = some i →
    RescaleFits (roundedAll (m.residues groups) i) res ∧ TruncationExact (roundedAll (m.residues groups) i) div res

-- The left-hand sides of the constraints and of the merged constraints.
def ConstraintExpr (m : IndexingMap) (e : SymbolicExpr) : Prop :=
  e ∈ MapVector.keys m.constraints ∨ ∃ g i, Merged m g (e, i)

-- Two constraints that are rewritten to the same expression overwrite each other.
structure RescalingExact (m : IndexingMap) : Prop where
  merge    : ModsExact m
  symbols  : ∀ id groups div res, Rescales m id groups div res → RescaleExact m id groups div res
  distinct : ∀ replacements : List (SymbolicExpr × SymbolicExpr),
    (∀ e e', (e, e') ∈ replacements → ∃ id groups div res, Rescales m id groups div res ∧
      e = var id ∧ e' = ((const div).mul (var id)).add (const res)) →
    Set.InjOn (·.replace replacements) {e | ConstraintExpr m e}

theorem Merged.spec {r : Int} (hgs : LhsGroups m (var id) groups)
    (h : Merged m g (binary .mod (var id) (const c), ⟨r, r⟩)) :
    g ∈ groups ∧ g.1 = r ∧ 1 < g.2.length ∧ m.lcmOfDivisors g.2 = some c := by
  obtain ⟨lhs, groups', div, ⟨hgs', hg⟩, ⟨hlen, hdiv⟩, he⟩ := h
  obtain ⟨he, hi⟩ := Prod.mk.inj he
  obtain ⟨rfl, rfl⟩ : var id = lhs ∧ c = div := by simpa using he
  exact ⟨hgs'.unique hgs ▸ hg, (Interval.mk.inj hi).1.symm, hlen, hdiv⟩

theorem nodup_not_before {α : Type} {l : List α} {a b : α} (hn : l.Nodup) (h : [a, b].Sublist l) :
    ¬[b, a].Sublist l := by
  induction l
  case nil => simp at h
  case cons x l hi =>
    have ⟨hx, hn⟩ := List.nodup_cons.mp hn
    intro h'
    cases h
    case cons h =>
      cases h'
      case cons h'      => exact hi hn h h'
      case cons_cons h' => exact hx (h.subset (by simp))
    case cons_cons h =>
      cases h'
      case cons h'      => exact hx (h'.subset (by simp))
      case cons_cons h' => exact hx (h.subset (by simp))

theorem nodup_append_filter {α : Type} [DecidableEq α] {l l' : List α} (hn : (l ++ l').Nodup) :
    (l ++ l').filter (· ∈ l) = l := by
  have hd := (List.nodup_append.mp hn).2.2
  rw [List.filter_append, List.filter_eq_self.mpr (by simp), List.filter_eq_nil_iff.mpr, List.append_nil]
  exact fun x hx => by simpa using fun hl => hd x hl x hx rfl

theorem LhsGroups.eq_of_residue {g' : Int × List SymbolicExpr} (hm : ModConstraints m)
    (hgs : LhsGroups m (var id) groups) (hg : g ∈ groups) (hg' : g' ∈ groups) (he : g.1 = g'.1) : g = g' :=
  List.inj_on_of_nodup_map (hgs.spec hm).2.1 hg hg' he

-- The constraints of the map `m₁` after merging, and where they come from.
section Merged

variable {old new : List (SymbolicExpr × Interval)} {op : SymbolicExpr} (hm : ModConstraints m)
  (h : LhsInv m [] (b, m₁)) (hgs : LhsGroups m (var id) groups)

include h

theorem LhsInv.kept_single (hgs : LhsGroups m (var id) groups) (hg : g ∈ groups) (hlen : ¬1 < g.2.length)
    (hop : op ∈ g.2) : (op, ⟨g.1, g.1⟩) ∈ m₁.constraints :=
  h.kept (var id) groups hgs (by simp [MapVector.keys]) g hg hlen op hop

theorem sublist_of_sublist_merged (hsplit : m₁.constraints = old ++ new)
    (hkeys : (MapVector.keys old).Sublist (MapVector.keys m.constraints)) {op' : SymbolicExpr}
    (hop : op ∈ MapVector.keys old) (hop' : op' ∈ MapVector.keys old)
    (hs : [op', op].Sublist (MapVector.keys m₁.constraints)) :
    [op', op].Sublist (MapVector.keys m.constraints) := by
  have hsplit : MapVector.keys m₁.constraints = MapVector.keys old ++ MapVector.keys new := by
    simp [hsplit, MapVector.keys]
  rw [hsplit] at hs
  have hs := hs.filter (· ∈ MapVector.keys old)
  rw [nodup_append_filter (hsplit ▸ h.same.nodup), List.filter_eq_self.mpr (by simp [hop, hop'])] at hs
  exact hs.trans hkeys

include hm hgs

-- The single constraints are kept in their order.
theorem mem_old_of_single (hsplit : m₁.constraints = old ++ new) (hnew : ∀ p ∈ new, ∃ g, Merged m g p)
    (hg : g ∈ groups) (hlen : ¬1 < g.2.length) (hop : op ∈ g.2) : op ∈ MapVector.keys old := by
  have hmem := h.kept_single hgs hg hlen hop
  obtain ⟨c', _, rfl⟩ := ((hgs.spec hm).2.2 g hg).1.ops op hop
  rw [hsplit] at hmem
  cases List.mem_append.mp hmem
  case inl hmem => exact MapVector.mem_keys_of_mem hmem
  case inr hmem =>
    obtain ⟨g', hm'⟩ := hnew _ hmem
    obtain ⟨hg', he, hlen', _⟩ := hm'.spec hgs
    exact absurd (hgs.eq_of_residue hm hg' hg he ▸ hlen') hlen

theorem IsFirst.sublist (hf : IsFirst m₁ id c r) (hg : g ∈ groups) (hlen : ¬1 < g.2.length) (hop : op ∈ g.2)
    (hne : op ≠ binary .mod (var id) (const c)) :
    [binary .mod (var id) (const c), op].Sublist (MapVector.keys m₁.constraints) := by
  obtain ⟨l₁, l₂, heq, hno⟩ := hf.first
  have hmem := h.kept_single hgs hg hlen hop
  obtain ⟨c', hc', rfl⟩ := ((hgs.spec hm).2.2 g hg).1.ops op hop
  rw [heq] at hmem
  have hmem := (List.mem_append.mp hmem).resolve_left (hno c' hc' g.1)
  have hmem := (List.mem_cons.mp hmem).resolve_left fun he => hne (Prod.mk.inj he).1
  rw [heq, MapVector.keys, List.map_append, List.map_cons]
  refine List.Sublist.trans ?_ (List.sublist_append_right _ _)
  exact (List.singleton_sublist.mpr (MapVector.mem_keys_of_mem hmem)).cons_cons _

variable (hf : IsFirst m₁ id c r)

include hf

theorem firstGroup_of_single (hlen : ¬1 < g.2.length) (hg : g ∈ groups) (hop : g.2 = [binary .mod (var id) (const c)]) :
    FirstGroup m id groups g c := by
  obtain ⟨old, new, hsplit, hord⟩ := h.order
  rw [FirstGroup, if_neg hlen]
  intro g' hg' hlen' op ho op' hop' hsub
  rw [hop] at ho
  obtain rfl := List.mem_singleton.mp ho
  have hne : op' ≠ binary .mod (var id) (const c) := by
    rintro rfl
    exact List.nodup_iff_sublist.mp hm.nodup _ hsub
  have hold' := mem_old_of_single hm h hgs hsplit hord.new hg' hlen' hop'
  have hold := mem_old_of_single hm h hgs hsplit hord.new hg hlen (hop ▸ ho)
  have hs := sublist_of_sublist_merged h hsplit hord.keys hold' hold (hf.sublist hm h hgs hg' hlen' hop' hne)
  exact nodup_not_before hm.nodup hsub hs

theorem firstGroup_of_merged (hlen : 1 < g.2.length) (hg : g ∈ groups) (hr : r = g.1) : FirstGroup m id groups g c := by
  obtain ⟨old, new, hsplit, hord⟩ := h.order
  have hp : (binary .mod (var id) (const c), ⟨r, r⟩) ∈ m₁.constraints := by
    obtain ⟨l₁, l₂, heq, _⟩ := hf.first
    simp [heq]
  rw [FirstGroup, if_pos hlen]
  by_contra hn
  obtain ⟨hn, hn'⟩ := not_or.mp hn
  push Not at hn
  obtain ⟨g', hg', hlen'⟩ := hn
  have hlen' := not_lt.mpr hlen'
  obtain ⟨op, hop⟩ := List.exists_mem_of_ne_nil _ ((hgs.spec hm).2.2 g' hg').1.nonempty
  have hne : op ≠ binary .mod (var id) (const c) := by
    rintro rfl
    have hmem := h.kept_single hgs hg' hlen' hop
    have he := (Interval.mk.inj (MapVector.value_unique h.same.nodup hmem hp)).1
    exact hlen' (hgs.eq_of_residue hm hg' hg (he.trans hr) ▸ hlen)
  have hs := hf.sublist hm h hgs hg' hlen' hop hne
  have hp' := hsplit ▸ hp
  cases List.mem_append.mp hp'
  case inr hp' =>
    -- The merged constraint stands after the constraints of the map.
    have hold := mem_old_of_single hm h hgs hsplit hord.new hg' hlen' hop
    have hs' : [op, binary .mod (var id) (const c)].Sublist (MapVector.keys m₁.constraints) := by
      rw [hsplit, MapVector.keys, List.map_append]
      exact (List.singleton_sublist.mpr hold).append (List.singleton_sublist.mpr (MapVector.mem_keys_of_mem hp'))
    exact nodup_not_before h.same.nodup hs hs'
  case inl hp' =>
    refine hn' ⟨hord.keys.subset (MapVector.mem_keys_of_mem hp'), fun hmem => ?_⟩
    cases hord.old _ hp'
    case inl ho => exact ho.2 ⟨var id, groups, hgs, by simp [MapVector.keys], g, hg, hlen, hmem⟩
    case inr ho =>
      obtain ⟨g', hm', hnot⟩ := ho
      obtain ⟨hg', he, _, _⟩ := hm'.spec hgs
      exact hnot (hgs.eq_of_residue hm hg' hg (he.trans hr) ▸ hmem)

end Merged

theorem exists_firstGroup (hm : ModConstraints m) (hx : ModsExact m) (h : LhsInv m [] (b, m₁))
    (hf : IsFirst m₁ id c r) : ∃ groups, Rescales m id groups c r := by
  have hid := h.same.result ▸ hf.symbol
  obtain ⟨l₁, l₂, heq, _⟩ := hf.first
  obtain ⟨groups, hgs, ho⟩ := h.origin (var id) c ⟨r, r⟩ (by simp [heq]) (by simp [MapVector.keys])
  cases ho
  case inl ho =>
    obtain ⟨ops, hg, hop⟩ := hgs.exists_mem hm ho.1
    have hlen : ¬1 < ops.length := fun hlen => ho.2 _ hg hlen hop
    have hops : ops = [binary .mod (var id) (const c)] := by
      have hone : ops.length = 1 := Nat.le_antisymm (Nat.le_of_not_lt hlen) (List.length_pos_of_mem hop)
      obtain ⟨op, rfl⟩ := List.length_eq_one_iff.mp hone
      rw [List.mem_singleton.mp hop]
    obtain ⟨pre, post, hpre⟩ := List.append_of_mem hg
    obtain ⟨div, hdiv, _⟩ := (hx _ _ hgs).merge pre _ post hpre
    obtain ⟨hpos, hl⟩ := lcmOfDivisors_spec ((hgs.spec hm).2.2 _ hg).1.ops hdiv
    have hl : ∀ x, div ∣ x ↔ c ∣ x := fun x => by simpa [hops] using hl x
    have hdc : div = c := Int.dvd_antisymm hpos.le hf.positive.le ((hl c).mpr dvd_rfl) ((hl div).mp dvd_rfl)
    exact ⟨groups, hid, hgs, ops, hg, hdc ▸ hdiv, firstGroup_of_single hm h hgs hf hlen hg hops⟩
  case inr ho =>
    obtain ⟨g, hg, hlen, hdiv, hi⟩ := ho
    obtain rfl : r = g.1 := (Interval.mk.inj hi).1
    exact ⟨groups, hid, hgs, g.2, hg, hdiv, firstGroup_of_merged hm h hgs hf hlen hg rfl⟩

theorem symbolExact_of_rescales {s : Bool × IndexingMap} {r : Int} (hm : ModConstraints m)
    (h : LhsInv m [] s) (hr : Rescales m id groups c r)
    (hx : RescaleExact m id groups c r) : SymbolExact s.2 id c r where
  isRange := by rw [h.same.result, h.same.length]; exact hx.isRange
  residue := hx.residue
  bounds  := by
    intro i' hi'
    obtain ⟨i, hi⟩ := Option.isSome_iff_exists.mp ((hr.lhs.spec hm).1.2 id rfl)
    have hround := h.rounded id groups i hr.lhs (by simp [MapVector.keys]) hi
    cases hi'.symm.trans hround
    rw [(hx.fits i hi).roundAll_eq]
    exact hx.bounds i hi

theorem constraintExpr_of_mem {s : Bool × IndexingMap} (h : LhsInv m [] s) (hp : p ∈ s.2.constraints) :
    ConstraintExpr m p.1 := by
  obtain ⟨old, new, hsplit, hord⟩ := h.order
  rw [hsplit] at hp
  cases List.mem_append.mp hp
  case inl hp => exact .inl (hord.keys.subset (MapVector.mem_keys_of_mem hp))
  case inr hp =>
    obtain ⟨g, hg⟩ := hord.new p hp
    exact .inr ⟨g, p.2, hg⟩

end Condition

-- `m₁` is the map with merged constraints.
structure ChangeOfVariables (m m₁ m' : IndexingMap) (factor shift : Nat → Int) : Prop where
  symbol  : ∀ id, (factor id = 1 ∧ shift id = 0 ∧ m'.variableBound id = m₁.variableBound id) ∨
    (m₁.IsRangeVar id ∧ (binary .mod (var id) (const (factor id)), ⟨shift id, shift id⟩) ∈ m₁.constraints)
  numDims : m'.symbolicMap.numDims = m.symbolicMap.numDims
  bijOn   : Set.BijOn (unscale factor shift) {ρ | m'.Domain ρ} {ρ | m.Domain ρ}
  result  : ∀ ρ, m'.symbolicMap.exprs.map (·.eval ρ) =
    m.symbolicMap.exprs.map (·.eval (unscale factor shift ρ))

-- A symbol with a known remainder that is added to a dimension.
def symbolMod (ranges rts : List Interval) : IndexingMap where
  symbolicMap  := ⟨1, 1, [binary .add (var 0) (var 1)]⟩
  dimVars      := [⟨0, 9⟩]
  rangeVars    := ranges
  rtVars       := rts
  constraints  := [(binary .mod (var 1) (const 3), ⟨1, 1⟩), (binary .add (var 0) (var 1), ⟨0, 25⟩)]
  isKnownEmpty := false

theorem modConstraints_symbolMod {ranges rts : List Interval}
    (h : ((symbolMod ranges rts).variableBound 1).isSome) : ModConstraints (symbolMod ranges rts) where
  nodup           := by simp [MapVector.keys, symbolMod]
  modulus l r hk  := by
    have : l = var 1 ∧ r = const 3 := by simpa [MapVector.keys, symbolMod] using hk
    exact ⟨3, by decide, this.2⟩
  noConst l r hk  := by
    have : l = var 1 ∧ r = const 3 := by simpa [MapVector.keys, symbolMod] using hk
    rw [this.1]
    rfl
  bound id r hk   := by
    have : id = 1 ∧ r = const 3 := by simpa [MapVector.keys, symbolMod] using hk
    rwa [this.1]

theorem lhsGroups_symbolMod {ranges rts : List Interval} {lhs : SymbolicExpr}
    {groups : List (Int × List SymbolicExpr)} (h : LhsGroups (symbolMod ranges rts) lhs groups) :
    lhs = var 1 ∧ groups = [(1, [binary .mod (var 1) (const 3)])] := by
  obtain ⟨ops, hops, hgs⟩ := h
  have hl : groupByLhs (symbolMod ranges rts).constraints = [(var 1, [binary .mod (var 1) (const 3)])] := rfl
  rw [hl] at hops
  obtain ⟨rfl, rfl⟩ := Prod.mk.inj (List.mem_singleton.mp hops)
  have hr : groupByResidue (symbolMod ranges rts).constraints [binary .mod (var 1) (const 3)] =
      some [(1, [binary .mod (var 1) (const 3)])] := rfl
  exact ⟨rfl, (Option.some.inj (hr.symm.trans hgs)).symm⟩

theorem rescales_symbolMod {ranges rts : List Interval} {groups : List (Int × List SymbolicExpr)}
    (h : Rescales (symbolMod ranges rts) id groups c r) :
    id = 1 ∧ groups = [(1, [binary .mod (var 1) (const 3)])] ∧ c = 3 ∧ r = 1 := by
  obtain ⟨hid, hgroups⟩ := lhsGroups_symbolMod h.lhs
  obtain ⟨ops, hg, hdiv, _⟩ := h.first
  rw [hgroups] at hg
  obtain ⟨rfl, rfl⟩ := Prod.mk.inj (List.mem_singleton.mp hg)
  have hl : (symbolMod ranges rts).lcmOfDivisors [binary .mod (var 1) (const 3)] = some 3 := rfl
  exact ⟨by simpa using hid, hgroups, (Option.some.inj (hl.symm.trans hdiv)).symm, rfl⟩

theorem constraintExpr_symbolMod {ranges rts : List Interval} {e : SymbolicExpr}
    (h : ConstraintExpr (symbolMod ranges rts) e) :
    e = binary .mod (var 1) (const 3) ∨ e = binary .add (var 0) (var 1) := by
  cases h
  case inl h => simpa [MapVector.keys, symbolMod] using h
  case inr h =>
    obtain ⟨g, i, lhs, groups, div, hg, hlen, _⟩ := h
    rw [(lhsGroups_symbolMod hg.1).2] at hg
    rw [List.mem_singleton.mp hg.2] at hlen
    simp at hlen

-- The remainder is bounded and the sum is not.
theorem replace_symbolMod_ne {σ : List (SymbolicExpr × SymbolicExpr)}
    (h : ∀ e e', (e, e') ∈ σ → e = var 1 ∧ e' = ((const 3).mul (var 1)).add (const 1)) :
    (binary .mod (var 1) (const 3)).replace σ ≠ (binary .add (var 0) (var 1)).replace σ := by
  have hvars : ReplacesVars σ := fun e e' he => ⟨1, (h e e' (MapVector.mem_of_lookup he)).1⟩
  have h0 (ρ : Nat → Int) : ((var 0).replace σ).eval ρ = ρ 0 := by
    rw [replace]
    cases hl : σ.lookup (var 0)
    case none   => rfl
    case some e => simpa using (h _ e (MapVector.mem_of_lookup hl)).1
  have h1 (ρ : Nat → Int) : ((var 1).replace σ).eval ρ = ρ 1 ∨ ((var 1).replace σ).eval ρ = 3 * ρ 1 + 1 := by
    rw [replace]
    cases hl : σ.lookup (var 1)
    case none   => exact .inl rfl
    case some e =>
      obtain rfl := (h _ e (MapVector.mem_of_lookup hl)).2
      exact .inr (by simp [eval_add, eval_mul, eval])
  intro he
  have he := congrArg (eval fun id => if id = 0 then 3 else 0) he
  rw [SymbolicExpr.eval_replace hvars, SymbolicExpr.eval_replace hvars, eval_modOp (by decide)] at he
  simp only [eval, BinaryOp.eval, h0, if_true] at he
  cases h1 fun id => if id = 0 then 3 else 0
  case inl h1 => simp [h1] at he
  case inr h1 => simp [h1] at he

end IndexingMap
end Indexing
