import XlaModel.Indexing.Compose
import XlaModel.Indexing.Theorems.Compress

namespace Indexing

open Symbolic SymbolicExpr Fallible

section SymbolicMap

variable {sm other : SymbolicMap} {e : SymbolicExpr} {ρ : Nat → Int}

theorem replaceDimsAndSymbols_permute {syms : List (Option SymbolicExpr)}
    (hs : syms ≠ [] → syms.length = sm.numSymbols) (numDims numSymbols : Nat) :
    sm.replaceDimsAndSymbols [] syms numDims numSymbols =
      some ⟨numDims, numSymbols, sm.exprs.map (·.replaceVariables (createVariableRange sm.numDims 0 ++
        (if syms ≠ [] then syms else createVariableRange sm.numSymbols numDims)))⟩ := by
  rw [SymbolicMap.replaceDimsAndSymbols, if_pos ⟨fun h => (h rfl).elim, hs⟩]
  simp

-- The symbols of the other map follow those of this map.
def shiftSymbols (sm other : SymbolicMap) (id : Nat) : Nat :=
  if id < other.numDims then id else other.numDims + sm.numSymbols + (id - other.numDims)

def shiftReplacements (sm other : SymbolicMap) : List (Option SymbolicExpr) :=
  createVariableRange other.numDims 0 ++
    createVariableRange other.numSymbols (other.numDims + sm.numSymbols)

def composeReplacements (sm other : SymbolicMap) : List (Option SymbolicExpr) :=
  (other.exprs.map fun e => some (e.replaceVariables (shiftReplacements sm other))) ++
    createVariableRange sm.numSymbols other.numDims

theorem compose_eq (h : sm.numDims = other.exprs.length) :
    sm.compose other = some ⟨other.numDims, sm.numSymbols + other.numSymbols,
      sm.exprs.map (·.replaceVariables (composeReplacements sm other))⟩ := by
  rw [SymbolicMap.compose, if_neg (not_not.mpr h)]
  dsimp only
  rw [replaceDimsAndSymbols_eq length_createVariableRange length_createVariableRange]
  rw [Option.bind_eq_bind, Option.bind_some, replaceDimsAndSymbols_eq (by simp [h])
    length_createVariableRange]
  dsimp only
  rw [List.map_map]
  rfl

theorem getElem?_shiftReplacements (h : i < other.numDims + other.numSymbols) :
    (shiftReplacements sm other)[i]? = some (some (var (shiftSymbols sm other i))) := by
  rw [shiftReplacements, shiftSymbols]
  split
  case isTrue hd =>
    rw [List.getElem?_append_left (by rwa [length_createVariableRange]), getElem?_createVariableRange hd,
      zero_add]
  case isFalse hd =>
    rw [List.getElem?_append_right (by rw [length_createVariableRange]; omega), length_createVariableRange,
      getElem?_createVariableRange (by omega)]

-- The variables of this map in terms of the variables of the composition.
def composeValues (sm other : SymbolicMap) (ρ : Nat → Int) (id : Nat) : Int :=
  if id < sm.numDims then
    (other.exprs.map (·.eval (ρ ∘ shiftSymbols sm other))).getD id 0
  else
    ρ (other.numDims + (id - sm.numDims))

variable (hn : sm.numDims = other.exprs.length)
  (hother : ∀ e ∈ other.exprs, ∀ id ∈ e.usedVariables, id < other.numDims + other.numSymbols)
include hn hother

theorem replaceVariables_compose {id : Nat} (hid : id < sm.numDims + sm.numSymbols) :
    ((var id).replaceVariables (composeReplacements sm other)).eval ρ = composeValues sm other ρ id ∧
      ∀ id' ∈ ((var id).replaceVariables (composeReplacements sm other)).usedVariables,
        id' < other.numDims + (sm.numSymbols + other.numSymbols) := by
  rw [composeValues]
  split
  case isTrue hd =>
    have hlt : id < other.exprs.length := hn ▸ hd
    have hmem := List.getElem_mem hlt
    have hr : Renamed (shiftSymbols sm other) other.exprs[id]
        (other.exprs[id].replaceVariables (shiftReplacements sm other)) :=
      renamed_replaceVariables fun id' hid' =>
        replaceVariables_of_getElem? (getElem?_shiftReplacements (hother _ hmem id' hid'))
    have hv : (var id).replaceVariables (composeReplacements sm other) =
        other.exprs[id].replaceVariables (shiftReplacements sm other) := by
      refine replaceVariables_of_getElem? ?_
      rw [composeReplacements, List.getElem?_append_left (by simpa using hlt)]
      simp [hlt]
    rw [hv, hr.eval]
    refine ⟨by simp [hlt], fun id' hid' => ?_⟩
    obtain ⟨id'', hid'', rfl⟩ := hr.used id' hid'
    have := hother _ hmem id'' hid''
    rw [shiftSymbols]
    split <;> omega
  case isFalse hd =>
    have hv : (var id).replaceVariables (composeReplacements sm other) =
        var (other.numDims + (id - sm.numDims)) := by
      refine replaceVariables_of_getElem? ?_
      rw [composeReplacements, List.getElem?_append_right (by simp; omega), List.length_map, ← hn,
        getElem?_createVariableRange (by omega)]
    rw [hv]
    refine ⟨rfl, fun id' hid' => ?_⟩
    have : id' = other.numDims + (id - sm.numDims) := by simpa [usedVariables] using hid'
    omega

theorem eval_compose (he : ∀ id ∈ e.usedVariables, id < sm.numDims + sm.numSymbols) :
    (e.replaceVariables (composeReplacements sm other)).eval ρ = e.eval (composeValues sm other ρ) := by
  rw [eval_replaceVariables]
  exact eval_congr_used fun id hid => (replaceVariables_compose hn hother (he id hid)).1

theorem used_compose (he : ∀ id ∈ e.usedVariables, id < sm.numDims + sm.numSymbols) :
    ∀ id ∈ (e.replaceVariables (composeReplacements sm other)).usedVariables,
      id < other.numDims + (sm.numSymbols + other.numSymbols) := by
  intro id' hid'
  obtain ⟨id, hid, hid'⟩ := usedVariables_replaceVariables hid'
  have := @replaceVariables_compose sm other (fun _ => 0) hn hother id (he id hid)
  exact this.2 id' hid'

end SymbolicMap

section Bounds

variable {xs ys : List Interval} {ρ ρ' : Nat → Int}

-- The values lie in the bounds of a list of variables.
def ListBounds (vars : List Interval) (ρ : Nat → Int) : Prop :=
  ∀ id i, vars[id]? = some i → ρ id ∈ i

theorem listBounds_append :
    ListBounds (xs ++ ys) ρ ↔ ListBounds xs ρ ∧ ListBounds ys (fun id => ρ (xs.length + id)) := by
  constructor
  case mp =>
    intro h
    refine ⟨fun id i hi => h id i ?_, fun id i hi => h _ i ?_⟩
    · rwa [List.getElem?_append_left (List.getElem?_eq_some_iff.mp hi).1]
    · rwa [List.getElem?_append_right (by omega), Nat.add_sub_cancel_left]
  case mpr =>
    intro h id i hi
    by_cases hlt : id < xs.length
    case pos => exact h.1 id i (by rwa [List.getElem?_append_left hlt] at hi)
    case neg =>
      have hle := not_lt.mp hlt
      rw [List.getElem?_append_right hle] at hi
      have : ρ (xs.length + (id - xs.length)) ∈ i := h.2 _ i hi
      rwa [Nat.add_sub_cancel' hle] at this

theorem listBounds_congr (h : ∀ id < xs.length, ρ id = ρ' id) : ListBounds xs ρ ↔ ListBounds xs ρ' := by
  refine forall₃_congr fun id i hi => ?_
  rw [h id (List.getElem?_eq_some_iff.mp hi).1]

theorem not_listBounds (h : i ∈ xs) (hi : i.isFeasible = false) : ¬ListBounds xs ρ := by
  intro hb
  obtain ⟨id, hid⟩ := List.mem_iff_getElem?.mp h
  have := Interval.isFeasible_of_mem (hb id i hid)
  simp [hi] at this

end Bounds

namespace IndexingMap

variable {first second m : IndexingMap} {ρ : Nat → Int}

theorem inBounds_iff (h : m.dimVars.length = m.symbolicMap.numDims) :
    m.InBounds ρ ↔ ListBounds m.vars ρ := by
  simp only [InBounds, ListBounds, variableBound_eq h]

theorem verifyVariableIntervals_of_listBounds (h : ListBounds m.vars ρ) : m.verifyVariableIntervals = true := by
  have hall {i} (hi : i ∈ m.vars) : i.isFeasible = true := by
    by_contra hn
    exact not_listBounds hi (Bool.not_eq_true _ ▸ hn) h
  simp only [verifyVariableIntervals, decide_eq_true_eq, List.all_eq_true]
  refine ⟨fun i hi => hall ?_, fun i hi => hall ?_, fun i hi => hall ?_⟩
  · exact List.mem_append_left _ hi
  · exact List.mem_append_right _ (List.mem_append_left _ hi)
  · exact List.mem_append_right _ (List.mem_append_right _ hi)

section Parts

variable (first second)

-- The variables of the first map in the composed map.
def firstVar (id : Nat) : Nat :=
  let dims := first.symbolicMap.numDims
  if id < dims then
    id
  else if id - dims < first.rangeVars.length then
    dims + second.rangeVars.length + (id - dims)
  else
    dims + second.rangeVars.length + first.rangeVars.length + second.rtVars.length +
      (id - dims - first.rangeVars.length)

-- The symbols of the second map in the composed map.
def secondVar (id : Nat) : Nat :=
  let dims := first.symbolicMap.numDims
  if id < second.rangeVars.length then
    dims + id
  else
    dims + second.rangeVars.length + first.rangeVars.length + (id - second.rangeVars.length)

def firstPart (ρ : Nat → Int) : Nat → Int :=
  ρ ∘ firstVar first second

-- The dimensions of the second map are the results of the first map.
def secondPart (ρ : Nat → Int) (id : Nat) : Int :=
  if id < second.symbolicMap.numDims then
    (first.results (firstPart first second ρ)).getD id 0
  else
    ρ (secondVar first second (id - second.symbolicMap.numDims))

-- The order of the symbols after the composition of the symbolic maps to the order of the composed map.
def composedVar (id : Nat) : Nat :=
  let dims := first.symbolicMap.numDims
  let range₁ := first.rangeVars.length
  let range₂ := second.rangeVars.length
  let rt₂ := second.rtVars.length
  if id < dims + range₂ then
    id
  else if id < dims + range₂ + rt₂ then
    id + range₁
  else if id < dims + range₂ + rt₂ + range₁ then
    id - rt₂
  else
    id

end Parts

-- Both maps are valid and the second map is applied to the results of the first map.
structure Composable (first second : IndexingMap) : Prop where
  arities : first.symbolicMap.exprs.length = second.symbolicMap.numDims
  first   : first.Valid
  second  : second.Valid

namespace Composable

variable {id : Nat} (h : Composable first second)
include h

theorem composedVar_shiftSymbols :
    composedVar first second (shiftSymbols second.symbolicMap first.symbolicMap id) =
      firstVar first second id := by
  have h₁ := h.first.symbols
  have h₂ := h.second.symbols
  simp only [shiftSymbols, composedVar, firstVar]
  split_ifs <;> omega

theorem composedVar_symbol (hid : id < second.symbolicMap.numSymbols) :
    composedVar first second (first.symbolicMap.numDims + id) = secondVar first second id := by
  have h₂ := h.second.symbols
  simp only [composedVar, secondVar]
  split_ifs <;> omega

theorem composedVar_lt {n : Nat} (hn : n = first.symbolicMap.numDims + (second.symbolicMap.numSymbols +
    first.symbolicMap.numSymbols)) (hid : id < n) : composedVar first second id < n := by
  have h₁ := h.first.symbols
  have h₂ := h.second.symbols
  simp only [composedVar]
  split_ifs <;> omega

theorem eval_composed {e : SymbolicExpr} (he : ∀ id ∈ e.usedVariables, id < second.numVars) :
    e.eval (composeValues second.symbolicMap first.symbolicMap (ρ ∘ composedVar first second)) =
      e.eval (secondPart first second ρ) := by
  refine eval_congr_used fun id hid => ?_
  have hlt := he id hid
  simp only [numVars] at hlt
  rw [composeValues, secondPart]
  split
  case isTrue hd =>
    have hlen : id < first.symbolicMap.exprs.length := h.arities ▸ hd
    simp only [results, List.getD_eq_getElem?_getD, List.getElem?_map, List.getElem?_eq_getElem hlen,
      Option.map_some, Option.getD_some]
    refine eval_congr_used fun id' hid' => ?_
    have hlt' := h.first.exprs _ (List.getElem_mem hlen) id' hid'
    exact congrArg ρ h.composedVar_shiftSymbols
  case isFalse hd => exact congrArg ρ (h.composedVar_symbol (by omega))

abbrev permutedSymbols (first second : IndexingMap) : List (Option SymbolicExpr) :=
  getComposedSymbolsPermutationToCorrectOrder first second first.symbolicMap.numDims

omit h in
theorem permutedSymbols_eq_nil : permutedSymbols first second = [] ↔ second.rtVars.length = 0 := by
  rw [permutedSymbols, getComposedSymbolsPermutationToCorrectOrder]
  constructor
  case mpr => exact fun ht => if_pos ht
  case mp =>
    intro hp
    by_contra ht
    rw [if_neg ht] at hp
    have := congrArg List.length hp
    simp only [List.length_append, length_createVariableRange, List.length_nil] at this
    omega

theorem length_permutedSymbols (hp : permutedSymbols first second ≠ []) :
    (permutedSymbols first second).length = second.symbolicMap.numSymbols + first.symbolicMap.numSymbols := by
  have h₁ := h.first.symbols
  have h₂ := h.second.symbols
  rw [permutedSymbols, getComposedSymbolsPermutationToCorrectOrder] at hp ⊢
  split
  case isTrue ht  => rw [if_pos ht] at hp; contradiction
  case isFalse ht =>
    simp only [List.length_append, length_createVariableRange]
    omega

omit h in
theorem composedVar_of_no_rtVars (ht : second.rtVars.length = 0) (id : Nat) :
    composedVar first second id = id := by
  simp only [composedVar, ht]
  split_ifs <;> omega

def permutation (first second : IndexingMap) : List (Option SymbolicExpr) :=
  createVariableRange first.symbolicMap.numDims 0 ++
    (if permutedSymbols first second ≠ [] then permutedSymbols first second else
      createVariableRange (second.symbolicMap.numSymbols + first.symbolicMap.numSymbols)
        first.symbolicMap.numDims)

theorem getElem?_permutation (hid : id < first.symbolicMap.numDims +
    (second.symbolicMap.numSymbols + first.symbolicMap.numSymbols)) :
    (permutation first second)[id]? = some (some (var (composedVar first second id))) := by
  have h₁ := h.first.symbols
  have h₂ := h.second.symbols
  by_cases hd : id < first.symbolicMap.numDims
  case pos =>
    have hv : composedVar first second id = id := by
      simp only [composedVar]
      split_ifs <;> omega
    rw [permutation, List.getElem?_append_left (by rwa [length_createVariableRange]),
      getElem?_createVariableRange hd, zero_add, hv]
  case neg =>
    rw [permutation, List.getElem?_append_right (by rw [length_createVariableRange]; omega),
      length_createVariableRange]
    by_cases ht : second.rtVars.length = 0
    case pos =>
      rw [if_neg (not_not.mpr (permutedSymbols_eq_nil.mpr ht)), getElem?_createVariableRange (by omega), composedVar_of_no_rtVars ht,
        Nat.add_sub_cancel' (by omega)]
    case neg =>
      have hp : permutedSymbols first second ≠ [] := fun hp => ht (permutedSymbols_eq_nil.mp hp)
      rw [if_pos hp, permutedSymbols, getComposedSymbolsPermutationToCorrectOrder, if_neg ht]
      simp only [composedVar, List.getElem?_append, List.length_append, length_createVariableRange]
      -- The four groups of symbols.
      split_ifs
      all_goals first
        | omega
        | rw [getElem?_createVariableRange (by omega), Option.some_inj, Option.some_inj, var.injEq]
          omega

-- An expression of the second map in the variables of the composed map.
structure ComposedExpr (first second : IndexingMap) (e e' : SymbolicExpr) : Prop where
  eval : ∀ ρ, e'.eval ρ = e.eval (secondPart first second ρ)
  used : ∀ id ∈ e'.usedVariables, id < first.symbolicMap.numDims +
    (second.symbolicMap.numSymbols + first.symbolicMap.numSymbols)

theorem composedExpr_permuted {e : SymbolicExpr} (he : ∀ id ∈ e.usedVariables, id < second.numVars) :
    ComposedExpr first second e
      ((e.replaceVariables (composeReplacements second.symbolicMap first.symbolicMap)).replaceVariables
        (permutation first second)) := by
  have hused := used_compose h.arities.symm h.first.exprs he
  have hr := renamed_replaceVariables fun id hid =>
    replaceVariables_of_getElem? (h.getElem?_permutation (hused id hid))
  refine ⟨fun ρ => ?eval, fun id' hid' => ?used⟩
  case eval => rw [hr.eval, eval_compose h.arities.symm h.first.exprs he, h.eval_composed he]
  case used =>
    obtain ⟨id, hid, rfl⟩ := hr.used id' hid'
    exact h.composedVar_lt rfl (hused id hid)

theorem composedExpr_of_no_rtVars {e : SymbolicExpr} (he : ∀ id ∈ e.usedVariables, id < second.numVars)
    (ht : second.rtVars.length = 0) :
    ComposedExpr first second e
      (e.replaceVariables (composeReplacements second.symbolicMap first.symbolicMap)) := by
  refine ⟨fun ρ => ?_, used_compose h.arities.symm h.first.exprs he⟩
  have hρ : ρ ∘ composedVar first second = ρ := funext fun id => congrArg ρ (composedVar_of_no_rtVars ht id)
  rw [eval_compose h.arities.symm h.first.exprs he, ← h.eval_composed he, hρ]

-- The symbolic map of the composition.
structure ComposedMap (first second : IndexingMap) (sm : SymbolicMap) : Prop where
  numDims    : sm.numDims = first.symbolicMap.numDims
  numSymbols : sm.numSymbols = second.symbolicMap.numSymbols + first.symbolicMap.numSymbols
  exprs      : List.Forall₂ (ComposedExpr first second) second.symbolicMap.exprs sm.exprs

theorem composeSymbolicMaps_spec : Yields (composeSymbolicMaps first second) (ComposedMap first second) := by
  rw [composeSymbolicMaps, compose_eq h.arities.symm, Option.bind_eq_bind, Option.bind_some]
  dsimp only
  split
  case isTrue hp =>
    rw [replaceDimsAndSymbols_permute h.length_permutedSymbols]
    refine .pure ⟨rfl, rfl, ?_⟩
    rw [List.map_map, List.forall₂_map_right_iff, List.forall₂_same]
    exact fun e he => h.composedExpr_permuted (h.second.exprs e he)
  case isFalse hp =>
    refine .pure ⟨rfl, rfl, ?_⟩
    rw [List.forall₂_map_right_iff, List.forall₂_same]
    exact fun e he => h.composedExpr_of_no_rtVars (h.second.exprs e he)
      (permutedSymbols_eq_nil.mp (not_not.mp hp))

theorem getElem?_toComposed (hm : m.rangeVars.length = second.rangeVars.length + first.rangeVars.length)
    (hn : m.symbolicMap.numSymbols = second.symbolicMap.numSymbols + first.symbolicMap.numSymbols)
    (hid : id < first.numVars) :
    (createVariableRange first.symbolicMap.numDims 0 ++ mapSymbolsToComposedSymbolsList first m)[id]? =
      some (some (var (firstVar first second id))) := by
  have h₁ := h.first.symbols
  have h₂ := h.second.symbols
  simp only [numVars] at hid
  simp only [mapSymbolsToComposedSymbolsList, firstVar, List.getElem?_append, length_createVariableRange,
    hm, hn]
  split_ifs
  all_goals
    rw [getElem?_createVariableRange (by omega), Option.some_inj, Option.some_inj, var.injEq]
    omega

theorem firstVar_lt (hid : id < first.numVars) :
    firstVar first second id < first.symbolicMap.numDims +
      (second.symbolicMap.numSymbols + first.symbolicMap.numSymbols) := by
  have h₁ := h.first.symbols
  have h₂ := h.second.symbols
  simp only [numVars] at hid
  simp only [firstVar]
  split_ifs <;> omega

omit h in
theorem map_eval_eq (hf : List.Forall₂ (ComposedExpr first second) exprs exprs') :
    exprs'.map (·.eval ρ) = exprs.map (·.eval (secondPart first second ρ)) := by
  induction hf
  case nil => rfl
  case cons he _ hi => rw [List.map_cons, List.map_cons, he.eval, hi]

def composedVars (first second : IndexingMap) : List Interval :=
  first.dimVars ++ ((second.rangeVars ++ first.rangeVars) ++ (second.rtVars ++ first.rtVars))

-- The composed map before the constraints are added.
structure Created (first second m : IndexingMap) : Prop where
  valid      : m.Valid
  numDims    : m.symbolicMap.numDims = first.symbolicMap.numDims
  numSymbols : m.symbolicMap.numSymbols = second.symbolicMap.numSymbols + first.symbolicMap.numSymbols
  ranges     : m.rangeVars.length = second.rangeVars.length + first.rangeVars.length
  domain     : ∀ ρ, m.Domain ρ ↔ ListBounds (composedVars first second) ρ
  result     : ∀ ρ, m.Domain ρ → m.results ρ = second.results (secondPart first second ρ)

theorem create_spec (hsm : ComposedMap first second sm) :
    Created first second (create sm first.dimVars (second.rangeVars ++ first.rangeVars)
      (second.rtVars ++ first.rtVars)) := by
  have h₁ := h.first.symbols
  have h₂ := h.second.symbols
  let m : IndexingMap := ⟨sm, first.dimVars, second.rangeVars ++ first.rangeVars,
    second.rtVars ++ first.rtVars, [], false⟩
  have hdims : m.dimVars.length = m.symbolicMap.numDims := h.first.dims.trans hsm.numDims.symm
  have hvalid : m.Valid :=
    { dims        := hdims
      symbols     := by
        show (second.rangeVars ++ first.rangeVars).length + (second.rtVars ++ first.rtVars).length = _
        rw [List.length_append, List.length_append, hsm.numSymbols]
        omega
      exprs       := by
        intro e' he' id hid
        obtain ⟨e, he, hr⟩ := forall₂_exists hsm.exprs he'
        rw [numVars, hsm.numDims, hsm.numSymbols]
        exact hr.used id hid
      constraints := by simp [m, MapVector.keys]
      nodup       := List.nodup_nil }
  have hdomain ρ : m.Domain ρ ↔ ListBounds (composedVars first second) ρ := by
    have hb : m.InBounds ρ ↔ _ := inBounds_iff hdims
    exact ⟨fun hd => hb.mp hd.2, fun hl => ⟨rfl, hb.mpr hl, by simp [ConstraintsSatisfied, m]⟩⟩
  rw [create]
  split
  case isTrue =>
    exact ⟨hvalid, hsm.numDims, hsm.numSymbols, List.length_append, hdomain, fun ρ _ => map_eval_eq hsm.exprs⟩
  case isFalse hf =>
    refine ⟨hvalid.resetToKnownEmpty, hsm.numDims, hsm.numSymbols, ?knownEmpty, fun ρ => ?domain, fun ρ hd => ?result⟩
    case knownEmpty => simp [IndexingMap.resetToKnownEmpty]
    case result => exact (not_domain_resetToKnownEmpty hd).elim
    case domain =>
      refine ⟨fun hd => (not_domain_resetToKnownEmpty hd).elim, fun hl => (hf ?_).elim⟩
      exact verifyVariableIntervals_of_listBounds (m := m) hl

-- The bounds and the constraints of both maps.
structure Points (first second : IndexingMap) (ρ : Nat → Int) : Prop where
  firstBounds       : first.InBounds (firstPart first second ρ)
  firstConstraints  : first.ConstraintsSatisfied (firstPart first second ρ)
  secondBounds      : second.InBounds (secondPart first second ρ)
  secondConstraints : second.ConstraintsSatisfied (secondPart first second ρ)

theorem firstBounds_iff : first.InBounds (firstPart first second ρ) ↔
    ListBounds first.dimVars ρ ∧
    ListBounds first.rangeVars (fun id => ρ (first.dimVars.length + (second.rangeVars.length + id))) ∧
    ListBounds first.rtVars (fun id => ρ (first.dimVars.length +
      ((second.rangeVars.length + first.rangeVars.length) + (second.rtVars.length + id)))) := by
  have hd := h.first.dims
  rw [inBounds_iff hd, vars, listBounds_append, listBounds_append]
  refine and_congr (listBounds_congr fun id hid => ?_)
    (and_congr (listBounds_congr fun id hid => ?_) (listBounds_congr fun id hid => ?_))
  all_goals
    refine congrArg ρ ?_
    simp only [firstVar]
    split_ifs <;> omega

theorem secondBounds_iff : second.InBounds (secondPart first second ρ) ↔
    ListBounds second.dimVars (secondPart first second ρ) ∧
    ListBounds second.rangeVars (fun id => ρ (first.dimVars.length + id)) ∧
    ListBounds second.rtVars (fun id => ρ (first.dimVars.length +
      ((second.rangeVars.length + first.rangeVars.length) + id))) := by
  have hd := h.second.dims
  have hd₁ := h.first.dims
  rw [inBounds_iff hd, vars, listBounds_append, listBounds_append]
  refine and_congr_right fun _ => and_congr (listBounds_congr fun id hid => ?_)
    (listBounds_congr fun id hid => ?_)
  all_goals
    rw [secondPart, if_neg (by omega)]
    refine congrArg ρ ?_
    simp only [secondVar]
    split_ifs <;> omega

omit h in
theorem composedBounds_iff : ListBounds (composedVars first second) ρ ↔
    (ListBounds first.dimVars ρ ∧
      ListBounds second.rangeVars (fun id => ρ (first.dimVars.length + id)) ∧
      ListBounds first.rangeVars (fun id => ρ (first.dimVars.length + (second.rangeVars.length + id)))) ∧
    ListBounds second.rtVars (fun id => ρ (first.dimVars.length +
      ((second.rangeVars.length + first.rangeVars.length) + id))) ∧
    ListBounds first.rtVars (fun id => ρ (first.dimVars.length +
      ((second.rangeVars.length + first.rangeVars.length) + (second.rtVars.length + id)))) := by
  rw [composedVars, listBounds_append, listBounds_append, listBounds_append, listBounds_append,
    List.length_append, and_assoc, and_assoc, and_assoc]

theorem secondDims_iff :
    ListBounds second.dimVars (secondPart first second ρ) ↔
      ∀ c ∈ first.symbolicMap.exprs.zip second.dimVars, c.1.eval (firstPart first second ρ) ∈ c.2 := by
  have hvalue {id : Nat} (hid : id < second.dimVars.length) (he : id < first.symbolicMap.exprs.length) :
      secondPart first second ρ id = first.symbolicMap.exprs[id].eval (firstPart first second ρ) := by
    rw [secondPart, if_pos (h.second.dims ▸ hid)]
    simp [results, he]
  constructor
  case mp =>
    intro hl c hc
    obtain ⟨id, hid⟩ := List.mem_iff_getElem?.mp hc
    obtain ⟨he, hi⟩ := List.getElem?_zip_eq_some.mp hid
    have hlt := (List.getElem?_eq_some_iff.mp hi).1
    obtain ⟨hlt', he⟩ := List.getElem?_eq_some_iff.mp he
    have := hl id c.2 hi
    rwa [hvalue hlt hlt', he] at this
  case mpr =>
    intro hc id i hi
    have hlt := (List.getElem?_eq_some_iff.mp hi).1
    have hlt' : id < first.symbolicMap.exprs.length := by rw [h.arities, ← h.second.dims]; exact hlt
    rw [hvalue hlt hlt']
    refine hc (first.symbolicMap.exprs[id], i) (List.mem_iff_getElem?.mpr ⟨id, ?_⟩)
    exact List.getElem?_zip_eq_some.mpr ⟨List.getElem?_eq_getElem hlt', hi⟩

-- The steps of the composition, with the constraints that are added.
structure Composed (first second m : IndexingMap) : Prop where
  valid  : m.Valid
  domain : ∀ ρ, m.Domain ρ ↔ Points first second ρ
  result : ∀ ρ, m.Domain ρ → m.results ρ = second.results (secondPart first second ρ)

theorem remapConstraints_spec (hm : m.symbolicMap.numDims = first.symbolicMap.numDims) :
    Yields (remapConstraints first second m) (List.Forall₂
      (fun c c' => ComposedExpr first second c.1 c'.1 ∧ c'.2 = c.2) second.constraints) := by
  have hn : (⟨second.symbolicMap.numDims, second.symbolicMap.numSymbols,
      MapVector.keys second.constraints⟩ : SymbolicMap).numDims = first.symbolicMap.exprs.length :=
    h.arities.symm
  rw [remapConstraints, compose_eq hn, hm, Option.bind_eq_bind, Option.bind_some]
  dsimp only
  rw [replaceDimsAndSymbols_permute h.length_permutedSymbols, Option.bind_some]
  refine .pure ?_
  rw [List.map_map, MapVector.keys, List.map_map, List.zip_map', List.forall₂_map_right_iff,
    List.forall₂_same]
  exact fun c hc => ⟨h.composedExpr_permuted (h.second.constraints _ (MapVector.mem_keys_of_mem hc)), rfl⟩

omit h in
theorem satisfied_remapped {cs constraints : List (SymbolicExpr × Interval)}
    (hc : List.Forall₂ (fun c c' => ComposedExpr first second c.1 c'.1 ∧ c'.2 = c.2) cs constraints) :
    (∀ c ∈ constraints, c.1.eval ρ ∈ c.2) ↔ ∀ c ∈ cs, c.1.eval (secondPart first second ρ) ∈ c.2 := by
  induction hc
  case nil => simp
  case cons hr _ hi => rw [List.forall_mem_cons, List.forall_mem_cons, hi, hr.1.eval, hr.2]

-- The constraints and the results of the first map are renamed in the same way.
theorem renamed_first (hm : m.rangeVars.length = second.rangeVars.length + first.rangeVars.length)
    (hn : m.symbolicMap.numSymbols = second.symbolicMap.numSymbols + first.symbolicMap.numSymbols)
    (hd : numDims = first.symbolicMap.numDims) {e : SymbolicExpr}
    (he : ∀ id ∈ e.usedVariables, id < first.numVars) :
    Renamed (firstVar first second) e (e.replaceVariables
      (createVariableRange numDims 0 ++ mapSymbolsToComposedSymbolsList first m)) :=
  renamed_replaceVariables fun id hid => replaceVariables_of_getElem?
    (hd ▸ h.getElem?_toComposed hm hn (he id hid))

theorem composeIndexingMaps_spec : Yields (composeIndexingMaps first second) (Composed first second) := by
  refine .bind h.composeSymbolicMaps_spec fun sm hsm => ?_
  have hm := h.create_spec hsm
  refine .bind (h.remapConstraints_spec hm.numDims) fun constraints hc => ?_
  refine .bind (addConstraints_added hm.valid fun c hmem id hid => ?used) fun m₁ h₁ => ?_
  case used =>
    obtain ⟨_, _, hr⟩ := forall₂_exists hc hmem
    rw [numVars, hm.numDims, hm.numSymbols]
    exact hr.1.used id hid
  have hren {e : SymbolicExpr} (he : ∀ id ∈ e.usedVariables, id < first.numVars) :=
    h.renamed_first (h₁.ranges.trans hm.ranges) (h₁.numSymbols.trans hm.numSymbols) hsm.numDims he
  have hused {e : SymbolicExpr} (he : ∀ id ∈ e.usedVariables, id < first.numVars) :
      ∀ id ∈ (e.replaceVariables (createVariableRange sm.numDims 0 ++
        mapSymbolsToComposedSymbolsList first m₁)).usedVariables, id < m₁.numVars := by
    intro id' hid'
    obtain ⟨id, hid, rfl⟩ := (hren he).used id' hid'
    rw [numVars, h₁.numDims, h₁.numSymbols, hm.numDims, hm.numSymbols]
    exact h.firstVar_lt (he id hid)
  have hfirst {c} (hc : c ∈ first.constraints) := h.first.constraints _ (MapVector.mem_keys_of_mem hc)
  refine .bind (addConstraints_added h₁.valid fun c hmem => ?used) fun m₂ h₂ => ?_
  case used =>
    obtain ⟨q, hq, rfl⟩ := List.mem_map.mp hmem
    exact hused (hfirst hq)
  refine (addConstraints_added h₂.valid fun c hmem => ?used).imp fun m₃ h₃ => ?_
  case used =>
    obtain ⟨e, he, heq⟩ := List.mem_map.mp (List.of_mem_zip hmem).1
    have hn : m₂.numVars = m₁.numVars := by rw [numVars, numVars, h₂.numDims, h₂.numSymbols]
    rw [hn, ← heq]
    exact hused (h.first.exprs e he)
  refine ⟨h₃.valid, fun ρ => ?domain, fun ρ hd => ?result⟩
  case result =>
    have hd₂ := ((h₃.domain ρ).mp hd).1
    have hd₁ := ((h₂.domain ρ).mp hd₂).1
    rw [h₃.result ρ hd, h₂.result ρ hd₂, h₁.result ρ hd₁]
    exact hm.result ρ ((h₁.domain ρ).mp hd₁).1
  case domain =>
    have hcs : (∀ c ∈ first.constraints.map fun c => (c.1.replaceVariables (createVariableRange sm.numDims 0 ++
        mapSymbolsToComposedSymbolsList first m₁), c.2), c.1.eval ρ ∈ c.2) ↔
        first.ConstraintsSatisfied (firstPart first second ρ) := by
      rw [List.forall_mem_map]
      refine forall₂_congr fun c hmem => ?_
      rw [(hren (hfirst hmem)).eval]
      rfl
    have hdims : (∀ c ∈ (first.symbolicMap.exprs.map (·.replaceVariables (createVariableRange sm.numDims 0 ++
        mapSymbolsToComposedSymbolsList first m₁))).zip second.dimVars, c.1.eval ρ ∈ c.2) ↔
        ListBounds second.dimVars (secondPart first second ρ) := by
      rw [h.secondDims_iff, List.zip_map_left, List.forall_mem_map]
      refine forall₂_congr fun c hmem => ?_
      have he := h.first.exprs _ (List.of_mem_zip (a := c.1) (b := c.2) hmem).1
      exact iff_of_eq (congrArg (· ∈ c.2) ((hren he).eval ρ))
    rw [h₃.domain, h₂.domain, h₁.domain, hm.domain, composedBounds_iff, satisfied_remapped hc, hcs, hdims]
    constructor
    case mp =>
      rintro ⟨⟨⟨⟨⟨hd₁, hr₂, hr₁⟩, ht₂, ht₁⟩, hc₂⟩, hc₁⟩, hd₂⟩
      exact ⟨h.firstBounds_iff.mpr ⟨hd₁, hr₁, ht₁⟩, hc₁, h.secondBounds_iff.mpr ⟨hd₂, hr₂, ht₂⟩, hc₂⟩
    case mpr =>
      intro hp
      obtain ⟨hd₁, hr₁, ht₁⟩ := h.firstBounds_iff.mp hp.firstBounds
      obtain ⟨hd₂, hr₂, ht₂⟩ := h.secondBounds_iff.mp hp.secondBounds
      exact ⟨⟨⟨⟨⟨hd₁, hr₂, hr₁⟩, ht₂, ht₁⟩, hp.secondConstraints⟩, hp.firstConstraints⟩, hd₂⟩

end Composable

-- The composed domain is the domain of the relational composition.
def IsComposition (first second m : IndexingMap) : Prop :=
  ∀ ρ, m.Domain ρ ↔ first.Domain (firstPart first second ρ) ∧ second.Domain (secondPart first second ρ)

theorem composeIndexingMaps_isComposition_iff (first second : IndexingMap) (h : Composable first second) :
    ∃ m, composeIndexingMaps first second = some m ∧ m.Valid ∧
      (∀ ρ, m.Domain ρ → m.results ρ = second.results (secondPart first second ρ)) ∧
      (IsComposition first second m ↔
        (first.isKnownEmpty = false ∧ second.isKnownEmpty = false) ∨
        ∀ ρ, ¬Composable.Points first second ρ) := by
  obtain ⟨m, heq, hm⟩ := h.composeIndexingMaps_spec
  refine ⟨m, heq, hm.valid, hm.result, ?_⟩
  constructor
  case mp =>
    intro hc
    by_cases hp : ∃ ρ, Composable.Points first second ρ
    case neg => exact .inr fun ρ hρ => hp ⟨ρ, hρ⟩
    case pos =>
      obtain ⟨ρ, hρ⟩ := hp
      have ⟨h₁, h₂⟩ := (hc ρ).mp ((hm.domain ρ).mpr hρ)
      exact .inl ⟨h₁.notEmpty, h₂.notEmpty⟩
  case mpr =>
    intro hc ρ
    rw [hm.domain]
    cases hc
    case inl he =>
      exact ⟨fun hp => ⟨⟨he.1, hp.1, hp.2⟩, ⟨he.2, hp.3, hp.4⟩⟩,
        fun hd => ⟨hd.1.2, hd.1.3, hd.2.2, hd.2.3⟩⟩
    case inr hn =>
      exact ⟨fun hp => (hn ρ hp).elim, fun hd => (hn ρ ⟨hd.1.2, hd.1.3, hd.2.2, hd.2.3⟩).elim⟩

-- Both maps have range variables and runtime variables.
def consumer : IndexingMap where
  symbolicMap  := ⟨1, 2, [binary .add (var 0) (var 1), binary .add (var 0) (var 2)]⟩
  dimVars      := [⟨0, 9⟩]
  rangeVars    := [⟨0, 3⟩]
  rtVars       := [⟨0, 5⟩]
  constraints  := [(binary .add (var 1) (var 2), ⟨0, 6⟩)]
  isKnownEmpty := false

def producer : IndexingMap where
  symbolicMap  := ⟨2, 2, [binary .add (var 0) (var 2), binary .add (var 1) (var 3)]⟩
  dimVars      := [⟨0, 11⟩, ⟨0, 12⟩]
  rangeVars    := [⟨0, 1⟩]
  rtVars       := [⟨0, 2⟩]
  constraints  := [(binary .add (var 1) (var 3), ⟨1, 13⟩)]
  isKnownEmpty := false

theorem composeIndexingMaps_isComposition_iff_symbols :
    ∃ m, composeIndexingMaps consumer producer = some m ∧ m.Valid ∧
      (∀ ρ, m.Domain ρ → m.results ρ = producer.results (secondPart consumer producer ρ)) ∧
      (IsComposition consumer producer m ↔
        (consumer.isKnownEmpty = false ∧ producer.isKnownEmpty = false) ∨
        ∀ ρ, ¬Composable.Points consumer producer ρ) := by
  refine composeIndexingMaps_isComposition_iff consumer producer ⟨by decide, ?consumer, ?producer⟩
  case consumer => exact ⟨by decide, by decide, by decide, by decide, by decide⟩
  case producer => exact ⟨by decide, by decide, by decide, by decide, by decide⟩

def scalar (exprs : List SymbolicExpr) : IndexingMap :=
  create ⟨0, 0, exprs⟩ [] [] []

-- A constraint on a constant empties the domain of a map without variables.
theorem composeIndexingMaps_not_isComposition :
    ∃ first, (scalar []).addConstraint (const 1) ⟨0, 0⟩ = some first ∧
      Composable first (scalar [const 5]) ∧
      ¬ ∃ m, composeIndexingMaps first (scalar [const 5]) = some m ∧
        IsComposition first (scalar [const 5]) m := by
  refine ⟨(scalar []).resetToKnownEmpty, by decide, ⟨by decide, ?consumer, ?producer⟩, ?notComposition⟩
  case consumer => exact ⟨by decide, by decide, by decide, by decide, by decide⟩
  case producer => exact ⟨by decide, by decide, by decide, by decide, by decide⟩
  case notComposition =>
    rintro ⟨m, heq, hc⟩
    have he : composeIndexingMaps (scalar []).resetToKnownEmpty (scalar [const 5]) =
        some (scalar [const 5]) := by
      decide
    cases he.symm.trans heq
    have hd := (hc fun _ => 0).mp (by decide)
    exact not_domain_resetToKnownEmpty hd.1

end IndexingMap
end Indexing
