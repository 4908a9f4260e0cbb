import XlaModel.Indexing.Compose
import XlaModel.Indexing.Theorems.Compose

namespace Indexing

open Symbolic SymbolicExpr Fallible

section ListBounds

variable {xs ys : List Interval} {f : Nat → Nat} {ρ : Nat → Int}

theorem bijOn_of_lt (hm : ∀ id < n, f id < n) (hi : ∀ id id', id < id' → id' < n → f id ≠ f id') :
    Set.BijOn f (Set.Iio n) (Set.Iio n) := by
  have hinj : Set.InjOn f (Set.Iio n) := by
    intro id hid id' hid' he
    obtain h | h | h := lt_trichotomy id id'
    · exact (hi id id' h hid' he).elim
    · exact h
    · exact (hi id' id h hid he.symm).elim
  refine ⟨fun id hid => hm id hid, hinj, ?_⟩
  have hsurj := Finset.surjOn_of_injOn_of_card_le (s := Finset.range n) (t := Finset.range n) f
    (fun id hid => by simpa using hm id (by simpa using hid)) (by simpa using hinj) le_rfl
  simpa using hsurj

-- Renamed variables keep their bounds.
theorem listBounds_renamed (hf : Set.BijOn f (Set.Iio xs.length) (Set.Iio ys.length))
    (h : ∀ id < xs.length, ys[f id]? = xs[id]?) : ListBounds ys ρ ↔ ListBounds xs (ρ ∘ f) := by
  constructor
  case mp  =>
    intro hb id i hi
    exact hb (f id) i ((h id (List.getElem?_eq_some_iff.mp hi).1).trans hi)
  case mpr =>
    intro hb id' i hi
    obtain ⟨id, hid, rfl⟩ := hf.surjOn (List.getElem?_eq_some_iff.mp hi).1
    exact hb id i ((h id hid).symm.trans hi)

end ListBounds

theorem replaceDimsAndSymbols_symbols {sm : SymbolicMap} {syms : List (Option SymbolicExpr)}
    (hs : syms.length = sm.numSymbols) (numDims numSymbols : Nat) :
    sm.replaceDimsAndSymbols [] syms numDims numSymbols =
      some ⟨numDims, numSymbols, sm.exprs.map (·.replaceVariables (createVariableRange sm.numDims 0 ++ syms))⟩ := by
  rw [replaceDimsAndSymbols_permute fun _ => hs]
  split_ifs
  case pos   => rfl
  case neg h =>
    -- There are no symbols to replace.
    obtain rfl := not_not.mp h
    rw [← hs]
    rfl

namespace IndexingMap

variable {m : IndexingMap} {f : Nat → Nat}

-- The variables of a map are given other ids and keep their bounds.
structure RenamesVars (f : Nat → Nat) (m : IndexingMap) (σ : List (Option SymbolicExpr)) (vars : List Interval) :
    Prop where
  length   : vars.length = m.numVars
  bijOn    : Set.BijOn f (Set.Iio m.numVars) (Set.Iio m.numVars)
  replaced : ∀ id < m.numVars, σ[id]? = some (some (var (f id)))
  bounds   : ∀ id < m.numVars, vars[f id]? = m.vars[id]?

-- A map with renamed variables that has the points of another map, known to be empty or not.
structure Converted (f : Nat → Nat) (m : IndexingMap) (numDims : Nat) (m' : IndexingMap) : Prop where
  valid   : m'.Valid
  numDims : m'.symbolicMap.numDims = numDims
  numVars : m'.numVars = m.numVars
  domain  : ∀ ρ, m'.Domain ρ ↔ m.InBounds (ρ ∘ f) ∧ m.ConstraintsSatisfied (ρ ∘ f)
  results : ∀ ρ, m'.Domain ρ → m'.results ρ = m.results (ρ ∘ f)

section CreateConstrained

variable {dims ranges rts xs : List Interval} {σ : List (Option SymbolicExpr)} {e : SymbolicExpr}

theorem RenamesVars.renamed (h : RenamesVars f m σ xs) (he : ∀ id ∈ e.usedVariables, id < m.numVars) :
    Renamed f e (e.replaceVariables σ) :=
  renamed_replaceVariables fun id hid => replaceVariables_of_getElem? (h.replaced id (he id hid))

theorem RenamesVars.used (h : RenamesVars f m σ xs) (he : ∀ id ∈ e.usedVariables, id < m.numVars) :
    ∀ id ∈ (e.replaceVariables σ).usedVariables, id < m.numVars := by
  intro id' hid'
  obtain ⟨id, hid, rfl⟩ := (h.renamed he).used id' hid'
  exact h.bijOn.mapsTo (he id hid)

theorem createConstrained_spec (hv : m.Valid) (hr : RenamesVars f m σ (dims ++ (ranges ++ rts))) :
    Yields (createConstrained
      ⟨dims.length, ranges.length + rts.length, m.symbolicMap.exprs.map (·.replaceVariables σ)⟩ dims ranges rts
      (m.constraints.map fun c => (c.1.replaceVariables σ, c.2))) (Converted f m dims.length) := by
  let base : IndexingMap :=
    ⟨⟨dims.length, ranges.length + rts.length, m.symbolicMap.exprs.map (·.replaceVariables σ)⟩, dims, ranges, rts,
      [], false⟩
  have hn : base.numVars = m.numVars := by
    rw [← hr.length, List.length_append, List.length_append]
    rfl
  have hbase : base.Valid :=
    { dims        := rfl
      symbols     := rfl
      exprs       := by
        rw [hn]
        exact List.forall_mem_map.mpr fun e he => hr.used (hv.exprs e he)
      constraints := by simp [base, MapVector.keys]
      nodup       := List.nodup_nil }
  have hf : Set.BijOn f (Set.Iio m.vars.length) (Set.Iio (dims ++ (ranges ++ rts)).length) := by
    rw [hr.length, hv.length_vars]
    exact hr.bijOn
  have hbounds ρ : ListBounds (dims ++ (ranges ++ rts)) ρ ↔ m.InBounds (ρ ∘ f) := by
    rw [inBounds_iff hv.dims]
    exact listBounds_renamed hf fun id hid => hr.bounds id (hv.length_vars ▸ hid)
  have hresults ρ : base.results ρ = m.results (ρ ∘ f) := by
    rw [results, results, List.map_map]
    exact List.map_congr_left fun e he => (hr.renamed (hv.exprs e he)).eval ρ
  rw [createConstrained]
  split
  case isTrue =>
    refine (addConstraints_added hbase fun c hc => ?used).imp fun m' hm => ?converted
    case used =>
      obtain ⟨q, hq, rfl⟩ := List.mem_map.mp hc
      rw [hn]
      exact hr.used (hv.constraints _ (MapVector.mem_keys_of_mem hq))
    case converted =>
      have hdomain ρ : base.Domain ρ ↔ m.InBounds (ρ ∘ f) :=
        ⟨fun hd => (hbounds ρ).mp ((inBounds_iff hbase.dims).mp hd.inBounds),
          fun hb => ⟨rfl, (inBounds_iff hbase.dims).mpr ((hbounds ρ).mpr hb), by simp [ConstraintsSatisfied, base]⟩⟩
      refine ⟨hm.valid, hm.numDims, ?numVars, fun ρ => ?domain, fun ρ hd => (hm.result ρ hd).trans (hresults ρ)⟩
      case numVars => rw [numVars, hm.numDims, hm.numSymbols, ← hn, numVars]
      case domain =>
        rw [hm.domain, hdomain, List.forall_mem_map]
        refine and_congr_right fun _ => forall₂_congr fun c hc => ?_
        rw [(hr.renamed (hv.constraints _ (MapVector.mem_keys_of_mem hc))).eval]
  case isFalse hinfeasible =>
    refine .pure ⟨hbase.resetToKnownEmpty, rfl, hn, fun ρ => ?domain, fun ρ hd => ?result⟩
    case result => exact (not_domain_resetToKnownEmpty hd).elim
    case domain =>
      refine ⟨fun hd => (not_domain_resetToKnownEmpty hd).elim, fun hp => (hinfeasible ?_).elim⟩
      exact verifyVariableIntervals_of_listBounds (m := base) ((hbounds ρ).mpr hp.1)

end CreateConstrained

theorem renamesVars_symbols (hv : m.Valid) :
    RenamesVars id m (createVariableRange m.symbolicMap.numDims 0 ++
      createVariableRange (m.rangeVars.length + m.rtVars.length) m.symbolicMap.numDims) m.vars where
  length       := hv.length_vars
  bijOn        := Set.bijOn_id _
  bounds id _  := rfl
  replaced id hid := by
    have hs := hv.symbols
    rw [numVars] at hid
    rw [List.getElem?_append, length_createVariableRange]
    split_ifs
    case pos hd => rw [getElem?_createVariableRange hd, zero_add, id_eq]
    case neg hd => rw [getElem?_createVariableRange (by omega), Nat.add_sub_cancel' (not_lt.mp hd), id_eq]

theorem convertSymbolsToDimensions_spec (hv : m.Valid) (he : m.isKnownEmpty = false)
    (hs : m.symbolicMap.numSymbols ≠ 0) : Yields m.convertSymbolsToDimensions (Converted id m m.numVars) := by
  have hsyms := hv.symbols
  have hlen := hv.length_vars
  have hr : RenamesVars id m (createVariableRange m.symbolicMap.numDims 0 ++
      createVariableRange (m.rangeVars.length + m.rtVars.length) m.symbolicMap.numDims) (m.vars ++ ([] ++ [])) := by
    simpa using renamesVars_symbols hv
  have hspec := createConstrained_spec hv hr
  rw [hlen] at hspec
  rw [convertSymbolsToDimensions]
  dsimp only
  rw [if_neg (by simp [he, hs]), replaceDimsAndSymbols_symbols (by rw [length_createVariableRange, hsyms]),
    Option.bind_eq_bind, Option.bind_some]
  exact hspec

end IndexingMap

section ChosenBefore

variable {indices : List Nat}

-- The number of chosen range variables before a range variable.
def chosenBefore (indices : List Nat) (i : Nat) : Nat :=
  indices.countP (· < i)

theorem chosenBefore_cons : chosenBefore (a :: indices) i = (if a < i then 1 else 0) + chosenBefore indices i := by
  rw [chosenBefore, List.countP_cons, add_comm]
  simp [chosenBefore]

theorem chosenBefore_succ (h : indices.Nodup) (i : Nat) :
    chosenBefore indices (i + 1) = chosenBefore indices i + if i ∈ indices then 1 else 0 := by
  induction indices
  case nil => rfl
  case cons a indices hi =>
    obtain ⟨ha, hn⟩ := List.nodup_cons.mp h
    rw [chosenBefore_cons, chosenBefore_cons, hi hn]
    by_cases he : a = i
    case pos =>
      subst he
      simp [ha, add_comm]
    case neg =>
      have hm : i ∈ a :: indices ↔ i ∈ indices := by simp [Ne.symm he]
      simp only [hm]
      split_ifs <;> omega

theorem chosenBefore_of_lt (h : indices.Nodup) (hij : i < j) :
    chosenBefore indices i + (if i ∈ indices then 1 else 0) ≤ chosenBefore indices j ∧
      chosenBefore indices j + (if i ∈ indices then 0 else 1) ≤ chosenBefore indices i + (j - i) := by
  induction hij
  case refl =>
    rw [chosenBefore_succ h]
    split_ifs <;> omega
  case step j hij hi =>
    rw [chosenBefore_succ h]
    have := Nat.le_of_succ_le hij
    split_ifs at hi ⊢ <;> omega

theorem chosenBefore_le (h : indices.Nodup) (i : Nat) : chosenBefore indices i ≤ i := by
  induction i
  case zero      => simp [chosenBefore]
  case succ i hi =>
    rw [chosenBefore_succ h]
    split_ifs <;> omega

theorem chosenBefore_eq_zero (h : ∀ j ∈ indices, i ≤ j) : chosenBefore indices i = 0 := by
  rw [chosenBefore, List.countP_eq_zero]
  simpa using h

theorem chosenBefore_eq_length (h : ∀ j ∈ indices, j < i) : chosenBefore indices i = indices.length := by
  rw [chosenBefore, List.countP_eq_length]
  simpa using h

-- A chosen range variable is found after the chosen range variables before it.
theorem getElem?_chosenBefore (h : indices.Pairwise (· < ·)) :
    indices[chosenBefore indices i]? = some i ↔ i ∈ indices := by
  refine ⟨List.mem_of_getElem?, fun hi => ?_⟩
  induction indices
  case nil => cases hi
  case cons a indices hind =>
    obtain ⟨ha, hs⟩ := List.pairwise_cons.mp h
    cases hi
    case head =>
      rw [chosenBefore_eq_zero (by simpa using fun j hj => (ha j hj).le), List.getElem?_cons_zero]
    case tail hi =>
      rw [chosenBefore_cons, if_pos (ha i hi), add_comm, List.getElem?_cons_succ, hind hs hi]

-- The chosen range variables follow the dimensions, the other symbols keep their order.
def convertedVar (numDims : Nat) (indices : List Nat) (id : Nat) : Nat :=
  let before := chosenBefore indices (id - numDims)
  if id < numDims then
    id
  else if id - numDims ∈ indices then
    numDims + before
  else
    numDims + indices.length + (id - numDims - before)

end ChosenBefore

namespace IndexingMap

section RangeVars

variable {m : IndexingMap} {numDims : Nat} {indices : List Nat} {dimVars xs : List Interval} {x : Interval}
  {s : ConvertedVars}

-- The state after some range variables.
structure RangeVarsConverted (numDims : Nat) (indices : List Nat) (dimVars xs : List Interval) (s : ConvertedVars) :
    Prop where
  count    : s.updatedCount = chosenBefore indices xs.length
  replaced : s.symbolReplacements =
    (List.range xs.length).map fun i => some (var (convertedVar numDims indices (numDims + i)))
  dims     : s.dims.length = numDims + chosenBefore indices xs.length
  ranges   : s.rangeVars.length + chosenBefore indices xs.length = xs.length
  old      : ∀ id < numDims, s.dims[id]? = dimVars[id]?
  chosen   : ∀ i < xs.length, i ∈ indices → s.dims[numDims + chosenBefore indices i]? = xs[i]?
  kept     : ∀ i < xs.length, i ∉ indices → s.rangeVars[i - chosenBefore indices i]? = xs[i]?

theorem convertRangeVar_spec (hs : indices.Pairwise (· < ·)) (h : RangeVarsConverted numDims indices dimVars xs s) :
    RangeVarsConverted numDims indices dimVars (xs ++ [x]) (convertRangeVar numDims indices s (x, xs.length)) := by
  have hsucc := chosenBefore_succ hs.nodup xs.length
  have hranges := h.ranges
  have hbefore {i} (hi : i < xs.length) := chosenBefore_of_lt hs.nodup hi
  rw [convertRangeVar, h.count]
  dsimp only
  split
  case isTrue hc =>
    have hm : xs.length ∈ indices := (getElem?_chosenBefore hs).mp hc
    rw [if_pos hm] at hsucc
    constructor
    case count    => simp [hsucc]
    case dims     => simp [hsucc, h.dims]; omega
    case ranges   => simp [hsucc]; omega
    case replaced =>
      dsimp only
      rw [h.replaced, List.length_append, List.length_singleton, List.range_succ, List.map_append, List.map_singleton,
        convertedVar]
      simp [hm]
    case old =>
      intro id hid
      rw [List.getElem?_append_left (by rw [h.dims]; omega), h.old id hid]
    case chosen =>
      intro i hi him
      obtain hlt | rfl := Nat.lt_succ_iff_lt_or_eq.mp (by simpa using hi)
      case inl =>
        have := (hbefore hlt).1
        rw [if_pos him] at this
        rw [List.getElem?_append_left (by rw [h.dims]; omega), List.getElem?_append_left hlt, h.chosen i hlt him]
      case inr =>
        rw [← h.dims, List.getElem?_concat_length, List.getElem?_concat_length]
    case kept =>
      intro i hi him
      obtain hlt | rfl := Nat.lt_succ_iff_lt_or_eq.mp (by simpa using hi)
      case inl => rw [List.getElem?_append_left hlt, h.kept i hlt him]
      case inr => exact absurd hm him
  case isFalse hc =>
    have hm : xs.length ∉ indices := fun hm => hc ((getElem?_chosenBefore hs).mpr hm)
    rw [if_neg hm] at hsucc
    constructor
    case count    => simp [hsucc]
    case dims     => simp [hsucc, h.dims]
    case ranges   => simp [hsucc]; omega
    case old      => exact h.old
    case replaced =>
      dsimp only
      rw [h.replaced, List.length_append, List.length_singleton, List.range_succ, List.map_append, List.map_singleton,
        convertedVar]
      simp [hm]
    case chosen =>
      intro i hi him
      obtain hlt | rfl := Nat.lt_succ_iff_lt_or_eq.mp (by simpa using hi)
      case inl => rw [List.getElem?_append_left hlt, h.chosen i hlt him]
      case inr => exact absurd him hm
    case kept =>
      intro i hi him
      obtain hlt | rfl := Nat.lt_succ_iff_lt_or_eq.mp (by simpa using hi)
      case inl =>
        have := (hbefore hlt).2
        rw [if_neg him] at this
        have := chosenBefore_le hs.nodup i
        rw [List.getElem?_append_left (by omega), List.getElem?_append_left hlt, h.kept i hlt him]
      case inr =>
        have hlen : xs.length - chosenBefore indices xs.length = s.rangeVars.length := by omega
        rw [hlen, List.getElem?_concat_length, List.getElem?_concat_length]

theorem convertRangeVars_spec (hs : indices.Pairwise (· < ·)) (hd : dimVars.length = numDims) (xs : List Interval) :
    RangeVarsConverted numDims indices dimVars xs (convertRangeVars numDims indices dimVars xs) := by
  induction xs using List.reverseRecOn
  case nil =>
    have hz : chosenBefore indices 0 = 0 := chosenBefore_eq_zero fun j _ => Nat.zero_le j
    constructor
    case dims => simpa [convertRangeVars, hz]
    all_goals simp [convertRangeVars, hz]
  case append_singleton xs x hi =>
    rw [convertRangeVars, List.zipIdx_append, List.foldl_append]
    simpa [convertRangeVars] using convertRangeVar_spec (x := x) hs hi

section Convert

variable (hv : m.Valid) (hs : indices.Pairwise (· < ·)) (hlt : ∀ i ∈ indices, i < m.rangeVars.length)
include hv hs hlt

theorem convertedVar_bijOn :
    Set.BijOn (convertedVar m.symbolicMap.numDims indices) (Set.Iio m.numVars) (Set.Iio m.numVars) := by
  have hsym := hv.symbols
  have hlen : chosenBefore indices m.rangeVars.length = indices.length := chosenBefore_eq_length hlt
  have hle := chosenBefore_le hs.nodup m.rangeVars.length
  have hchosen {i} (hm : i ∈ indices) : chosenBefore indices i < indices.length := by
    have hbefore := (chosenBefore_of_lt hs.nodup (hlt i hm)).1
    rw [if_pos hm] at hbefore
    omega
  refine bijOn_of_lt (fun id hid => ?lt) fun id id' hid hid' => ?inj
  case lt =>
    have hle := chosenBefore_le hs.nodup (id - m.symbolicMap.numDims)
    rw [numVars] at hid ⊢
    simp only [convertedVar]
    split_ifs
    case pos => exact hid
    case pos hd hm =>
      have := hchosen hm
      omega
    case neg hd hm =>
      obtain hi | hi := Nat.lt_or_ge (id - m.symbolicMap.numDims) m.rangeVars.length
      case inl =>
        have hbefore := (chosenBefore_of_lt hs.nodup hi).2
        rw [if_neg hm] at hbefore
        omega
      case inr =>
        have hbefore := chosenBefore_eq_length fun j hj => (hlt j hj).trans_le hi
        omega
  case inj =>
    by_cases hd : id < m.symbolicMap.numDims
    case pos =>
      simp only [convertedVar, hd, if_true]
      split_ifs <;> omega
    case neg =>
      have hi : id - m.symbolicMap.numDims < id' - m.symbolicMap.numDims := by omega
      have hbefore := chosenBefore_of_lt hs.nodup hi
      have hle := chosenBefore_le hs.nodup (id - m.symbolicMap.numDims)
      have hle' := chosenBefore_le hs.nodup (id' - m.symbolicMap.numDims)
      have hd' : ¬id' < m.symbolicMap.numDims := by omega
      simp only [convertedVar, hd, hd', if_false]
      split_ifs at hbefore ⊢
      case pos           => omega
      case neg hm hm'    => have := hchosen hm; omega
      case pos hm hm'    => have := hchosen hm'; omega
      case neg           => omega

theorem renamesVars_rangeVars
    (hc : RangeVarsConverted m.symbolicMap.numDims indices m.dimVars m.rangeVars s) :
    RenamesVars (convertedVar m.symbolicMap.numDims indices) m
      (createVariableRange m.symbolicMap.numDims 0 ++ (s.symbolReplacements ++ createVariableRange m.rtVars.length
        (m.symbolicMap.numDims + indices.length + (m.rangeVars.length - indices.length))))
      (s.dims ++ (s.rangeVars ++ m.rtVars)) := by
  have hsym := hv.symbols
  have hdims := hc.dims
  have hranges := hc.ranges
  have hlen : chosenBefore indices m.rangeVars.length = indices.length := chosenBefore_eq_length hlt
  rw [hlen] at hdims hranges
  have hafter {i} (hi : m.rangeVars.length ≤ i) : chosenBefore indices i = indices.length ∧ i ∉ indices :=
    ⟨chosenBefore_eq_length fun j hj => (hlt j hj).trans_le hi, fun hm => (hlt i hm).not_ge hi⟩
  have hbefore {i} (hi : i < m.rangeVars.length) := chosenBefore_of_lt hs.nodup hi
  simp only [hlen] at hbefore
  constructor
  case length =>
    rw [List.length_append, List.length_append, numVars]
    omega
  case bijOn    => exact convertedVar_bijOn hv hs hlt
  case replaced =>
    intro id hid
    rw [numVars] at hid
    simp only [List.getElem?_append, length_createVariableRange, hc.replaced, List.length_map, List.length_range]
    split_ifs
    case pos hd => rw [getElem?_createVariableRange hd, zero_add, convertedVar, if_pos hd]
    case pos hd hr =>
      rw [List.getElem?_map, List.getElem?_range hr, Option.map_some, Nat.add_sub_cancel' (not_lt.mp hd)]
    case neg hd hr =>
      obtain ⟨hb, hm⟩ := hafter (not_lt.mp hr)
      rw [getElem?_createVariableRange (by omega), convertedVar]
      simp only [hd, if_false, hm, hb]
      rw [Option.some_inj, Option.some_inj, var.injEq]
      omega
  case bounds =>
    intro id hid
    rw [numVars] at hid
    rw [vars, convertedVar]
    have hdv := hv.dims
    by_cases hd : id < m.symbolicMap.numDims
    case pos =>
      rw [if_pos hd, List.getElem?_append_left (by omega), List.getElem?_append_left (by omega), hc.old id hd]
    case neg =>
      obtain ⟨i, rfl⟩ := Nat.exists_eq_add_of_le (not_lt.mp hd)
      have hold : (m.dimVars ++ (m.rangeVars ++ m.rtVars))[m.symbolicMap.numDims + i]? =
          (m.rangeVars ++ m.rtVars)[i]? := by
        rw [← hdv, List.getElem?_append_right (Nat.le_add_right _ _), Nat.add_sub_cancel_left]
      rw [if_neg hd, hold, Nat.add_sub_cancel_left]
      obtain hr | hr := Nat.lt_or_ge i m.rangeVars.length
      case inr =>
        obtain ⟨hb, hm⟩ := hafter hr
        rw [if_neg hm, hb, List.getElem?_append_right (by omega), List.getElem?_append_right (by omega),
          List.getElem?_append_right hr]
        congr 1
        omega
      case inl =>
        rw [List.getElem?_append_left hr]
        split_ifs
        case pos hm =>
          have := (hbefore hr).1
          rw [if_pos hm] at this
          rw [List.getElem?_append_left (by omega), hc.chosen i hr hm]
        case neg hm =>
          have := (hbefore hr).2
          rw [if_neg hm] at this
          have := chosenBefore_le hs.nodup i
          rw [List.getElem?_append_right (by omega), List.getElem?_append_left (by omega), ← hc.kept i hr hm]
          congr 1
          omega

theorem convertRangeVariablesToDimensions_spec :
    Yields (m.convertRangeVariablesToDimensions indices)
      (Converted (convertedVar m.symbolicMap.numDims indices) m (m.symbolicMap.numDims + indices.length)) := by
  have hsym := hv.symbols
  have hlen : chosenBefore indices m.rangeVars.length = indices.length := chosenBefore_eq_length hlt
  have hc := convertRangeVars_spec hs hv.dims m.rangeVars
  have hr := renamesVars_rangeVars hv hs hlt hc
  have hdims := hc.dims
  have hranges := hc.ranges
  have hcount := hc.count
  rw [hlen] at hdims hranges hcount
  have hspec := createConstrained_spec hv hr
  have hsymbols : m.symbolicMap.numSymbols - indices.length =
      (convertRangeVars m.symbolicMap.numDims indices m.dimVars m.rangeVars).rangeVars.length + m.rtVars.length := by
    omega
  have hl : ((convertRangeVars m.symbolicMap.numDims indices m.dimVars m.rangeVars).symbolReplacements ++
      createVariableRange m.rtVars.length (m.symbolicMap.numDims + indices.length +
        (m.rangeVars.length - indices.length))).length = m.symbolicMap.numSymbols := by
    rw [List.length_append, hc.replaced, List.length_map, List.length_range, length_createVariableRange, hsym]
  rw [convertRangeVariablesToDimensions]
  dsimp only
  rw [if_neg (not_not.mpr (hs.imp Nat.le_of_lt)), if_neg (not_not.mpr hcount), if_neg (not_not.mpr hl),
    replaceDimsAndSymbols_symbols hl, Option.bind_eq_bind, Option.bind_some, hsymbols]
  rw [hdims] at hspec
  exact hspec

end Convert

end RangeVars

section Relabels

variable {m m' : IndexingMap} {f : Nat → Nat} {ρ ρ' : Nat → Int} {n : Nat}

-- The values are in the bounds and satisfy the constraints, even if the map is known to be empty.
structure Point (m : IndexingMap) (ρ : Nat → Int) : Prop where
  inBounds    : m.InBounds ρ
  constraints : m.ConstraintsSatisfied ρ

theorem Point.congr (hv : m.Valid) (hρ : ∀ id < m.numVars, ρ id = ρ' id) (h : m.Point ρ) : m.Point ρ' where
  inBounds := by
    rw [inBounds_iff hv.dims, ← listBounds_congr fun id hid => hρ id (hv.length_vars ▸ hid)]
    exact (inBounds_iff hv.dims).mp h.inBounds
  constraints c hc := by
    rw [← eval_congr_used fun id hid => hρ id (hv.constraints _ (MapVector.mem_keys_of_mem hc) id hid)]
    exact h.constraints c hc

-- The points of the new map are the points of the old map under the renaming, with the same results.
structure Relabels (f : Nat → Nat) (m m' : IndexingMap) : Prop where
  bijOn   : Set.BijOn f (Set.Iio m.numVars) (Set.Iio m'.numVars)
  domain  : ∀ ρ, m'.Domain ρ ↔ m.Domain (ρ ∘ f)
  results : ∀ ρ, m'.Domain ρ → m'.results ρ = m.results (ρ ∘ f)

theorem Relabels.refl (m : IndexingMap) : Relabels id m m :=
  ⟨Set.bijOn_id _, fun _ => .rfl, fun _ _ => rfl⟩

theorem Converted.relabels_iff (hv : m.Valid) (hf : Set.BijOn f (Set.Iio m.numVars) (Set.Iio m.numVars))
    (h : Converted f m n m') : Relabels f m m' ↔ m.isKnownEmpty = false ∨ ∀ ρ, ¬m.Point ρ := by
  constructor
  case mp =>
    intro hr
    by_cases hp : ∃ ρ, m.Point ρ
    case neg => exact .inr fun ρ hρ => hp ⟨ρ, hρ⟩
    case pos =>
      obtain ⟨ρ, hρ⟩ := hp
      -- The values of the old variables are those of the new variables they come from.
      have hinv := hf.invOn_invFunOn
      have hρ' : m.Point ((ρ ∘ Function.invFunOn f (Set.Iio m.numVars)) ∘ f) :=
        hρ.congr hv fun id hid => congrArg ρ (hinv.1 hid).symm
      exact .inl ((hr.domain _).mp ((h.domain _).mpr ⟨hρ'.1, hρ'.2⟩)).notEmpty
  case mpr =>
    intro hc
    refine ⟨h.numVars ▸ hf, fun ρ => ?_, h.results⟩
    rw [h.domain]
    refine ⟨fun hp => ⟨?_, hp.1, hp.2⟩, fun hd => ⟨hd.2, hd.3⟩⟩
    exact hc.resolve_right fun hn => hn _ ⟨hp.1, hp.2⟩

end Relabels

theorem convertVariables_relabels_iff (m : IndexingMap) (rangeVarIndices : List Nat) (hv : m.Valid)
    (hs : rangeVarIndices.Pairwise (· < ·)) (hlt : ∀ i ∈ rangeVarIndices, i < m.rangeVars.length) :
    (∃ m', m.convertSymbolsToDimensions = some m' ∧ m'.Valid ∧ Relabels id m m' ∧
      (m.isKnownEmpty = false → m'.symbolicMap.numDims = m.numVars)) ∧
    ∃ m', m.convertRangeVariablesToDimensions rangeVarIndices = some m' ∧ m'.Valid ∧
      m'.symbolicMap.numDims = m.symbolicMap.numDims + rangeVarIndices.length ∧
      (∀ ρ, m'.Domain ρ → m'.results ρ = m.results (ρ ∘ convertedVar m.symbolicMap.numDims rangeVarIndices)) ∧
      (Relabels (convertedVar m.symbolicMap.numDims rangeVarIndices) m m' ↔
        m.isKnownEmpty = false ∨ ∀ ρ, ¬m.Point ρ) := by
  refine ⟨?symbols, ?ranges⟩
  case symbols =>
    by_cases hc : m.isKnownEmpty = true ∨ m.symbolicMap.numSymbols = 0
    case pos =>
      refine ⟨m, if_pos hc, hv, .refl m, fun he => ?_⟩
      rw [numVars, hc.resolve_left (by simp [he]), add_zero]
    case neg =>
      have he : m.isKnownEmpty = false := Bool.not_eq_true _ ▸ fun he => hc (.inl he)
      obtain ⟨m', hm, h⟩ := convertSymbolsToDimensions_spec hv he fun hz => hc (.inr hz)
      exact ⟨m', hm, h.valid, (h.relabels_iff hv (Set.bijOn_id _)).mpr (.inl he), fun _ => h.numDims⟩
  case ranges =>
    obtain ⟨m', hm, h⟩ := convertRangeVariablesToDimensions_spec hv hs hlt
    exact ⟨m', hm, h.valid, h.numDims, h.results, h.relabels_iff hv (convertedVar_bijOn hv hs hlt)⟩

-- Two of three range variables become dimensions.
def gather : IndexingMap where
  symbolicMap  := ⟨1, 4, [binary .add (var 0) (var 3), binary .add (var 1) (var 4), var 2]⟩
  dimVars      := [⟨0, 9⟩]
  rangeVars    := [⟨0, 3⟩, ⟨0, 4⟩, ⟨0, 5⟩]
  rtVars       := [⟨0, 7⟩]
  constraints  := [(binary .add (var 3) (var 4), ⟨0, 6⟩)]
  isKnownEmpty := false

theorem convertVariables_relabels_iff_gather :
    (∃ m', gather.convertSymbolsToDimensions = some m' ∧ m'.Valid ∧ Relabels id gather m' ∧
      (gather.isKnownEmpty = false → m'.symbolicMap.numDims = gather.numVars)) ∧
    ∃ m', gather.convertRangeVariablesToDimensions [0, 2] = some m' ∧ m'.Valid ∧
      m'.symbolicMap.numDims = gather.symbolicMap.numDims + [0, 2].length ∧
      (∀ ρ, m'.Domain ρ → m'.results ρ = gather.results (ρ ∘ convertedVar gather.symbolicMap.numDims [0, 2])) ∧
      (Relabels (convertedVar gather.symbolicMap.numDims [0, 2]) gather m' ↔
        gather.isKnownEmpty = false ∨ ∀ ρ, ¬gather.Point ρ) :=
  convertVariables_relabels_iff gather [0, 2] ⟨by decide, by decide, by decide, by decide, by decide⟩ (by decide)
    (by decide)

-- The map is known to be empty, but neither its runtime variable nor a constraint shows it.
theorem not_convertRangeVariables_relabels :
    ∃ m, (create ⟨0, 1, [var 0]⟩ [] [] [⟨0, 5⟩]).addConstraint (const 1) ⟨0, 0⟩ = some m ∧ m.Valid ∧
      ∃ m', m.convertRangeVariablesToDimensions [] = some m' ∧
        ¬Relabels (convertedVar m.symbolicMap.numDims []) m m' := by
  refine ⟨(create ⟨0, 1, [var 0]⟩ [] [] [⟨0, 5⟩]).resetToKnownEmpty, by decide,
    ⟨by decide, by decide, by decide, by decide, by decide⟩, create ⟨0, 1, [const 0]⟩ [] [] [⟨0, 5⟩], by decide, ?_⟩
  intro h
  have hd : (create ⟨0, 1, [const 0]⟩ [] [] [⟨0, 5⟩]).Domain fun _ => 0 := by decide
  exact not_domain_resetToKnownEmpty ((h.domain _).mp hd)

end IndexingMap
end Indexing
