import XlaModel.Indexing.Compress
import XlaModel.Indexing.Theorems.Rescale

namespace Indexing.IndexingMap

open Symbolic SymbolicExpr Fallible

variable {m m' : IndexingMap} {ρ : Nat → Int} {expr : SymbolicExpr} {range i : Interval} {id : Nat}

-- The bounds of all variables.
def vars (m : IndexingMap) : List Interval :=
  m.dimVars ++ (m.rangeVars ++ m.rtVars)

def numVars (m : IndexingMap) : Nat :=
  m.symbolicMap.numDims + m.symbolicMap.numSymbols

def results (m : IndexingMap) (ρ : Nat → Int) : List Int :=
  m.symbolicMap.exprs.map (·.eval ρ)

-- The expressions only use variables of the map.
structure Valid (m : IndexingMap) : Prop where
  dims        : m.dimVars.length = m.symbolicMap.numDims
  symbols     : m.rangeVars.length + m.rtVars.length = m.symbolicMap.numSymbols
  exprs       : ∀ e ∈ m.symbolicMap.exprs, ∀ id ∈ e.usedVariables, id < m.numVars
  constraints : ∀ e ∈ MapVector.keys m.constraints, ∀ id ∈ e.usedVariables, id < m.numVars
  nodup       : (MapVector.keys m.constraints).Nodup

theorem Valid.length_vars (h : m.Valid) : m.vars.length = m.numVars := by
  simp only [vars, List.length_append, numVars, h.dims, h.symbols]

theorem variableBound_eq (h : m.dimVars.length = m.symbolicMap.numDims) (id : Nat) :
    m.variableBound id = m.vars[id]? := by
  simp only [variableBound, getDimensionBound, getSymbolBound, vars, ← h]
  split
  case isTrue hd  => rw [List.getElem?_append_left hd]
  case isFalse hd =>
    rw [List.getElem?_append_right (by omega)]
    split
    case isTrue hs  => rw [List.getElem?_append_left hs]
    case isFalse hs => rw [List.getElem?_append_right (by omega)]

theorem Valid.variableBound_isSome (h : m.Valid) (hid : id < m.numVars) :
    ∃ i, m.variableBound id = some i := by
  rw [variableBound_eq h.dims]
  exact ⟨_, List.getElem?_eq_getElem (h.length_vars ▸ hid)⟩

-- The map after adding a constraint.
structure Added (m : IndexingMap) (expr : SymbolicExpr) (range : Interval) (m' : IndexingMap) : Prop where
  valid      : m'.Valid
  numDims    : m'.symbolicMap.numDims = m.symbolicMap.numDims
  numSymbols : m'.symbolicMap.numSymbols = m.symbolicMap.numSymbols
  ranges     : m'.rangeVars.length = m.rangeVars.length
  domain     : ∀ ρ, m'.Domain ρ ↔ m.Domain ρ ∧ expr.eval ρ ∈ range
  result     : ∀ ρ, m'.Domain ρ → m'.results ρ = m.results ρ

theorem Valid.resetToKnownEmpty (h : m.Valid) : m.resetToKnownEmpty.Valid where
  dims        := by simpa [IndexingMap.resetToKnownEmpty] using h.dims
  symbols     := by simpa [IndexingMap.resetToKnownEmpty] using h.symbols
  exprs       := by simp [IndexingMap.resetToKnownEmpty, usedVariables]
  constraints := by simp [IndexingMap.resetToKnownEmpty, MapVector.keys]
  nodup       := List.nodup_nil

theorem not_domain_resetToKnownEmpty : ¬m.resetToKnownEmpty.Domain ρ := by
  intro h
  have := h.notEmpty
  contradiction

theorem Added.reset (h : m.Valid) (hd : ∀ ρ, m.Domain ρ → expr.eval ρ ∉ range) :
    Added m expr range m.resetToKnownEmpty where
  valid      := h.resetToKnownEmpty
  numDims    := rfl
  numSymbols := rfl
  ranges     := by simp [IndexingMap.resetToKnownEmpty]
  domain ρ   := ⟨fun h => (not_domain_resetToKnownEmpty h).elim, fun h => (hd ρ h.1 h.2).elim⟩
  result ρ h := (not_domain_resetToKnownEmpty h).elim

-- The bounds and the constraints of `m'` are reset if one of them is empty.
theorem Added.resetIfEmpty (h : Added m expr range m') (hm : ∀ ρ, m'.Domain ρ → ∃ v, v ∈ i) :
    Added m expr range (m'.resetIfEmpty i) := by
  rw [IndexingMap.resetIfEmpty]
  split
  case isTrue  => exact h
  case isFalse hf =>
    have hd ρ : ¬m'.Domain ρ := by
      intro hd
      obtain ⟨v, hv⟩ := hm ρ hd
      exact hf (Interval.isFeasible_of_mem hv)
    exact {
      valid      := h.valid.resetToKnownEmpty
      numDims    := h.numDims
      numSymbols := h.numSymbols
      ranges     := by simpa [IndexingMap.resetToKnownEmpty] using h.ranges
      domain ρ   := ⟨fun h => (not_domain_resetToKnownEmpty h).elim,
        fun hr => (hd ρ ((h.domain ρ).mpr hr)).elim⟩
      result ρ h := (not_domain_resetToKnownEmpty h).elim
    }

section Variable

theorem addVariableConstraint_eq (h : m.dimVars.length = m.symbolicMap.numDims)
    (hi : m.variableBound id = some i) :
    m.addVariableConstraint id range =
      some ((m.setVariableBound id (i.intersect range)).resetIfEmpty (i.intersect range)) := by
  simp only [addVariableConstraint, h]
  rw [variableBound] at hi
  split
  case isTrue hd =>
    rw [if_pos hd] at hi
    simp [hi, setVariableBound, hd]
  case isFalse hd =>
    rw [if_neg hd] at hi
    have heq : m.setSymbolBound (id - m.symbolicMap.numDims) (i.intersect range) =
        m.setVariableBound id (i.intersect range) := by
      rw [setSymbolBound, setVariableBound, if_neg hd]
    simp [hi, heq]

theorem inBounds_intersect (hi : m.variableBound id = some i) :
    (m.setVariableBound id (i.intersect range)).InBounds ρ ↔ m.InBounds ρ ∧ ρ id ∈ range := by
  simp only [InBounds, variableBound_setVariableBound, hi, Option.map_some]
  constructor
  case mp =>
    intro h
    have hid := Interval.mem_intersect_iff.mp (h id _ (if_pos rfl))
    refine ⟨fun id' i' hi' => ?_, hid.2⟩
    by_cases he : id' = id
    case neg => exact h id' i' (by rwa [if_neg he])
    case pos =>
      rw [he, hi] at hi'
      exact he ▸ Option.some.inj hi' ▸ hid.1
  case mpr =>
    intro h id' i' hi'
    split at hi'
    case isFalse    => exact h.1 id' i' hi'
    case isTrue he =>
      rw [← Option.some.inj hi', he]
      exact Interval.mem_intersect_iff.mpr ⟨h.1 id i hi, h.2⟩

theorem addVariableConstraint_added (h : m.Valid) (hid : id < m.numVars) :
    Yields (m.addVariableConstraint id range) (Added m (var id) range) := by
  obtain ⟨i, hi⟩ := h.variableBound_isSome hid
  rw [addVariableConstraint_eq h.dims hi]
  have hs := symbolicMap_setVariableBound m id (i.intersect range)
  have hc := constraints_setVariableBound m id (i.intersect range)
  have he := isKnownEmpty_setVariableBound m id (i.intersect range)
  have ⟨hdims, hranges, hrts⟩ := length_setVariableBound m id (i.intersect range)
  refine .pure (Added.resetIfEmpty ⟨⟨?dims, ?symbols, ?exprs, ?constraints, ?nodup⟩, ?numDims, ?numSymbols,
      hranges, fun ρ => ?domain, fun ρ _ => ?result⟩ fun ρ hd => ?bound)
  case dims  => rw [hdims, hs, h.dims]
  case symbols  => rw [hranges, hrts, hs, h.symbols]
  case exprs  => rw [numVars, hs]; exact h.exprs
  case constraints  => rw [numVars, hs, hc]; exact h.constraints
  case nodup  => rw [hc]; exact h.nodup
  case numDims  => rw [hs]
  case numSymbols  => rw [hs]
  case domain  =>
    have hb : _ ↔ m.InBounds ρ ∧ ρ id ∈ range := inBounds_intersect hi
    constructor
    case mp =>
      intro hd
      have hin := hb.mp hd.2
      exact ⟨⟨he ▸ hd.1, hin.1, by have := hd.3; rwa [ConstraintsSatisfied, hc] at this⟩, hin.2⟩
    case mpr =>
      intro hd
      exact ⟨he ▸ hd.1.1, hb.mpr ⟨hd.1.2, hd.2⟩, by rw [ConstraintsSatisfied, hc]; exact hd.1.3⟩
  case result  => rw [results, hs]; rfl
  case bound =>
    have hv := variableBound_setVariableBound m id id (i.intersect range)
    rw [if_pos rfl, hi] at hv
    exact ⟨ρ id, hd.inBounds id _ hv⟩

end Variable

section Insert

-- Only the constraints change.
theorem Added.of_constraints {constraints : List (SymbolicExpr × Interval)} (h : m.Valid)
    (hn : (MapVector.keys constraints).Nodup)
    (hv : ∀ e ∈ MapVector.keys constraints, e = expr ∨ e ∈ MapVector.keys m.constraints)
    (he : ∀ id ∈ expr.usedVariables, id < m.numVars)
    (hs : ∀ ρ, (∀ c ∈ constraints, c.1.eval ρ ∈ c.2) ↔ m.ConstraintsSatisfied ρ ∧ expr.eval ρ ∈ range) :
    Added m expr range { m with constraints } where
  valid := {
    dims        := h.dims
    symbols     := h.symbols
    exprs       := h.exprs
    constraints := by
      intro e hk
      cases hv e hk
      case inl heq => exact heq ▸ he
      case inr hk  => exact h.constraints e hk
    nodup       := hn
  }
  numDims    := rfl
  numSymbols := rfl
  ranges     := rfl
  domain ρ   :=
    ⟨fun hd => ⟨⟨hd.1, hd.2, ((hs ρ).mp hd.3).1⟩, ((hs ρ).mp hd.3).2⟩,
      fun hd => ⟨hd.1.1, hd.1.2, (hs ρ).mpr ⟨hd.1.3, hd.2⟩⟩⟩
  result _ _ := rfl

theorem insertConstraint_added (h : m.Valid) (he : ∀ id ∈ expr.usedVariables, id < m.numVars) :
    Added m expr range (m.insertConstraint expr range) := by
  rw [insertConstraint]
  split
  case h_1 hl =>
    have hk : expr ∉ MapVector.keys m.constraints := by
      intro hk
      obtain ⟨i, hi⟩ := MapVector.mem_keys.mp hk
      rw [MapVector.lookup_of_mem h.nodup hi] at hl
      contradiction
    refine Added.of_constraints h ?nodup ?mem he fun ρ => ?satisfied
    case nodup =>
      rw [MapVector.keys, List.map_append]
      exact MapVector.nodup_concat h.nodup hk
    case mem => simp [MapVector.keys, or_comm]
    case satisfied => simp [ConstraintsSatisfied, or_imp, forall_and]
  case h_2 current hl =>
    have hmem := MapVector.mem_of_lookup hl
    have hs ρ : (∀ c ∈ MapVector.set m.constraints expr (current.intersect range), c.1.eval ρ ∈ c.2) ↔
        m.ConstraintsSatisfied ρ ∧ expr.eval ρ ∈ range := by
      constructor
      case mp =>
        intro hs
        have hi := Interval.mem_intersect_iff.mp (hs _ (MapVector.mem_set.mpr (.inl rfl)))
        refine ⟨fun c hc => ?_, hi.2⟩
        by_cases hk : c.1 = expr
        case neg => exact hs c (MapVector.mem_set.mpr (.inr ⟨hc, hk⟩))
        case pos =>
          have := MapVector.value_unique (k := c.1) h.nodup hc (hk ▸ hmem)
          rw [hk, this]
          exact hi.1
      case mpr =>
        intro hs c hc
        cases MapVector.mem_set.mp hc
        case inl heq => exact heq ▸ Interval.mem_intersect_iff.mpr ⟨hs.1 _ hmem, hs.2⟩
        case inr hc  => exact hs.1 c hc.1
    refine (Added.of_constraints h (MapVector.nodup_set h.nodup) (fun e hk => ?_) he hs).resetIfEmpty
      fun ρ hd => ⟨_, hd.constraints _ (MapVector.mem_set.mpr (.inl rfl))⟩
    obtain ⟨i, hi⟩ := MapVector.mem_keys.mp hk
    cases MapVector.mem_set.mp hi
    case inl heq => exact .inl (congrArg Prod.fst heq)
    case inr hi  => exact .inr (MapVector.mem_keys_of_mem hi.1)

end Insert

theorem addConstraint_added (h : m.Valid) (he : ∀ id ∈ expr.usedVariables, id < m.numVars) :
    Yields (m.addConstraint expr range) (Added m expr range) := by
  simp only [addConstraint]
  split
  case isTrue hk =>
    have hd ρ : ¬m.Domain ρ := fun hd => by simp [hd.notEmpty] at hk
    exact .pure ⟨h, rfl, rfl, rfl, fun ρ => ⟨fun h => (hd ρ h).elim, fun h => (hd ρ h.1).elim⟩,
      fun ρ _ => rfl⟩
  case isFalse =>
    split
    case isTrue hf =>
      exact .pure (.reset h fun _ _ hv => hf (Interval.isFeasible_of_mem hv))
    case isFalse =>
      split
      case h_1 id   => exact addVariableConstraint_added h (he id (by simp [usedVariables]))
      case h_3      => exact .pure (insertConstraint_added h he)
      case h_2 v    =>
        refine .pure ?_
        split
        case isTrue hv  =>
          exact ⟨h, rfl, rfl, rfl, fun ρ => ⟨fun hd => ⟨hd, hv⟩, fun hd => hd.1⟩, fun _ _ => rfl⟩
        case isFalse hv => exact .reset h fun _ _ => hv

-- Adds a list of constraints.
structure AddedAll (m : IndexingMap) (constraints : List (SymbolicExpr × Interval)) (m' : IndexingMap) :
    Prop where
  valid      : m'.Valid
  numDims    : m'.symbolicMap.numDims = m.symbolicMap.numDims
  numSymbols : m'.symbolicMap.numSymbols = m.symbolicMap.numSymbols
  ranges     : m'.rangeVars.length = m.rangeVars.length
  domain     : ∀ ρ, m'.Domain ρ ↔ m.Domain ρ ∧ ∀ c ∈ constraints, c.1.eval ρ ∈ c.2
  result     : ∀ ρ, m'.Domain ρ → m'.results ρ = m.results ρ

theorem addConstraints_added {constraints : List (SymbolicExpr × Interval)} (h : m.Valid)
    (he : ∀ c ∈ constraints, ∀ id ∈ c.1.usedVariables, id < m.numVars) :
    Yields (m.addConstraints constraints) (AddedAll m constraints) := by
  rw [addConstraints]
  induction constraints generalizing m
  case nil => exact .pure ⟨h, rfl, rfl, rfl, by simp, fun _ _ => rfl⟩
  case cons c cs hi =>
    rw [List.foldlM_cons]
    refine .bind (addConstraint_added h (he c List.mem_cons_self)) fun m₁ h₁ => ?_
    have hn : m₁.numVars = m.numVars := by rw [numVars, numVars, h₁.numDims, h₁.numSymbols]
    refine (hi h₁.valid fun c hc => hn ▸ he c (.tail _ hc)).imp fun m₂ h₂ => ?_
    refine ⟨h₂.valid, h₂.numDims.trans h₁.numDims, h₂.numSymbols.trans h₁.numSymbols,
      h₂.ranges.trans h₁.ranges, fun ρ => ?_, fun ρ hd => ?_⟩
    · rw [h₂.domain, h₁.domain, List.forall_mem_cons, and_assoc]
    · rw [h₂.result ρ hd, h₁.result ρ ((h₂.domain ρ).mp hd).1]

end Indexing.IndexingMap
