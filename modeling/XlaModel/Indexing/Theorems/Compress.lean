import XlaModel.Indexing.Compress
import XlaModel.Indexing.Theorems.AddConstraint

namespace Indexing

open Symbolic SymbolicExpr Fallible Compaction

section Renamed

variable {f g : Nat → Nat} {e e' e'' : SymbolicExpr} {σ : List (Option SymbolicExpr)}

-- The variables of an expression are renamed.
structure Renamed (f : Nat → Nat) (e e' : SymbolicExpr) : Prop where
  eval : ∀ ρ, e'.eval ρ = e.eval (ρ ∘ f)
  used : ∀ id' ∈ e'.usedVariables, ∃ id ∈ e.usedVariables, id' = f id

theorem Renamed.refl : Renamed (fun id => id) e e :=
  ⟨fun _ => rfl, fun id hid => ⟨id, hid, rfl⟩⟩

theorem Renamed.trans (h : Renamed f e e') (h' : Renamed g e' e'') : Renamed (g ∘ f) e e'' where
  eval ρ := by rw [h'.eval, h.eval]; rfl
  used id'' hid'' := by
    obtain ⟨id', hid', rfl⟩ := h'.used id'' hid''
    obtain ⟨id, hid, rfl⟩ := h.used id' hid'
    exact ⟨id, hid, rfl⟩

theorem Renamed.congr (h : Renamed f e e') (hf : ∀ id ∈ e.usedVariables, f id = g id) : Renamed g e e' where
  eval ρ := by
    rw [h.eval]
    exact eval_congr_used fun id hid => congrArg ρ (hf id hid)
  used id' hid' := by
    obtain ⟨id, hid, rfl⟩ := h.used id' hid'
    exact ⟨id, hid, hf id hid⟩

theorem renamed_replaceVariables (h : ∀ id ∈ e.usedVariables, (var id).replaceVariables σ = var (f id)) :
    Renamed f e (e.replaceVariables σ) where
  eval ρ := by
    rw [eval_replaceVariables]
    refine eval_congr_used fun id hid => ?_
    rw [h id hid]
    rfl
  used id' hid' := by
    obtain ⟨id, hid, h'⟩ := usedVariables_replaceVariables hid'
    rw [h id hid] at h'
    exact ⟨id, hid, by simpa [usedVariables] using h'⟩

theorem replaceVariables_of_getElem? {id : Nat} (h : σ[id]? = some (some e)) :
    (var id).replaceVariables σ = e := by
  rw [replaceVariables, h]
  rfl

theorem getElem?_createVariableRange (h : i < num) :
    (createVariableRange num offset)[i]? = some (some (var (offset + i))) := by
  simp [createVariableRange, h]

theorem length_createVariableRange : (createVariableRange num offset).length = num := by
  simp [createVariableRange]

theorem length_compactReplacements (removed : Option SymbolicExpr) (start : Nat) (mask : List Bool) :
    (compactReplacements removed start mask).length = mask.length := by
  induction mask generalizing start
  case nil => rfl
  case cons b mask hi => cases b <;> simp [compactReplacements, hi]

theorem getElem?_compactReplacements {mask : List Bool} (removed : Option SymbolicExpr) (start : Nat)
    (hk : Kept mask i) (h : i < mask.length) :
    (compactReplacements removed start mask)[i]? = some (some (var (start + rank mask i))) := by
  induction mask generalizing start i
  case nil => simp at h
  case cons b mask hi =>
    cases i
    case zero   => cases b <;> simp_all [Kept, compactReplacements, rank]
    case succ i =>
      have hl : i < mask.length := by simpa using h
      have hk' : Kept mask i := by simpa [Kept] using hk
      cases b
      case true  => simpa [compactReplacements, rank] using hi start hk' hl
      case false =>
        have := hi (start + 1) hk' hl
        simp only [compactReplacements, rank, List.getElem?_cons_succ, this]
        rw [Nat.add_right_comm, Nat.add_assoc]

end Renamed

section Forall₂

theorem forall₂_exists {R : α → β → Prop} (h : List.Forall₂ R xs ys) (hy : y ∈ ys) : ∃ x ∈ xs, R x y := by
  induction h
  case nil => simp at hy
  case cons x y' xs ys hr _ hi =>
    cases List.mem_cons.mp hy
    case inl hy => exact ⟨x, List.mem_cons_self, hy ▸ hr⟩
    case inr hy =>
      obtain ⟨x', hx', hr'⟩ := hi hy
      exact ⟨x', .tail _ hx', hr'⟩

theorem forall₂_trans {R : α → β → Prop} {S : β → γ → Prop} {T : α → γ → Prop}
    (h : List.Forall₂ R xs ys) (h' : List.Forall₂ S ys zs)
    (ht : ∀ x ∈ xs, ∀ y z, R x y → S y z → T x z) : List.Forall₂ T xs zs := by
  induction h generalizing zs
  case nil => cases h'; exact .nil
  case cons x y xs ys hr _ hi =>
    cases h'
    case cons z zs hs h' =>
      exact .cons (ht x List.mem_cons_self y z hr hs) (hi h' fun x hx => ht x (.tail _ hx))

end Forall₂

section SymbolicMap

variable {sm sm' : SymbolicMap} {D S : List Bool}

theorem replaceDimsAndSymbols_eq {dims syms : List (Option SymbolicExpr)}
    (hd : dims.length = sm.numDims) (hs : syms.length = sm.numSymbols) :
    sm.replaceDimsAndSymbols dims syms numDims numSymbols =
      some ⟨numDims, numSymbols, sm.exprs.map (·.replaceVariables (dims ++ syms))⟩ := by
  have hdims : (if dims ≠ [] then dims else createVariableRange sm.numDims 0) = dims := by
    split
    case isTrue    => rfl
    case isFalse h =>
      have : dims = [] := by simpa using h
      simp [this, ← hd, createVariableRange]
  have hsyms : (if syms ≠ [] then syms else createVariableRange sm.numSymbols numDims) = syms := by
    split
    case isTrue    => rfl
    case isFalse h =>
      have : syms = [] := by simpa using h
      simp [this, ← hs, createVariableRange]
  rw [SymbolicMap.replaceDimsAndSymbols, if_pos ⟨fun _ => hd, fun _ => hs⟩, hdims, hsyms]

theorem replaceDimsAndSymbols_spec {dims syms : List (Option SymbolicExpr)} {f : Nat → Nat}
    (hd : dims.length = sm.numDims) (hs : syms.length = sm.numSymbols)
    (h : ∀ e ∈ sm.exprs, ∀ id ∈ e.usedVariables, (dims ++ syms)[id]? = some (some (var (f id)))) :
    Yields (sm.replaceDimsAndSymbols dims syms numDims numSymbols) fun sm' =>
      sm'.numDims = numDims ∧ sm'.numSymbols = numSymbols ∧
        List.Forall₂ (Renamed f) sm.exprs sm'.exprs := by
  rw [replaceDimsAndSymbols_eq hd hs]
  refine .pure ⟨rfl, rfl, ?_⟩
  rw [List.forall₂_map_right_iff, List.forall₂_same]
  intro e he
  exact renamed_replaceVariables fun id hid => replaceVariables_of_getElem? (h e he id hid)

-- The expressions only use variables that are kept.
def UsesKept (sm : SymbolicMap) (mask : List Bool) : Prop :=
  ∀ e ∈ sm.exprs, ∀ id ∈ e.usedVariables, id < sm.numDims + sm.numSymbols ∧ Kept mask id

theorem getD_getUnusedDimensions (h : i < sm.numDims) :
    sm.getUnusedDimensions.getD i false = decide (i ∉ sm.usedVariables) := by
  simp [SymbolicMap.getUnusedDimensions, h]

theorem getD_getUnusedSymbols (h : i < sm.numSymbols) :
    sm.getUnusedSymbols.getD i false = decide (sm.numDims + i ∉ sm.usedVariables) := by
  simp [SymbolicMap.getUnusedSymbols, h]

theorem not_mem_usedVariables {id : Nat} (h : UsesKept sm mask) (hk : ¬Kept mask id) : id ∉ sm.usedVariables := by
  intro hid
  obtain ⟨e, he, hid⟩ := List.mem_flatMap.mp hid
  exact hk (h e he id hid).2

theorem compressDims_spec (hl : D.length = sm.numDims) (h : UsesKept sm D) :
    Yields (sm.compressDims D) fun sm' => sm'.numDims = D.count false ∧ sm'.numSymbols = sm.numSymbols ∧
      List.Forall₂ (Renamed (rank D)) sm.exprs sm'.exprs := by
  have hcount := count_false D
  rw [SymbolicMap.compressDims, if_neg (not_not.mpr hl)]
  split
  case isTrue hz =>
    refine .pure ⟨by omega, rfl, List.forall₂_same.mpr fun e _ => ?_⟩
    exact Renamed.refl.congr fun id _ => (rank_of_count_eq_zero hz id).symm
  case isFalse hz =>
    rw [if_neg]
    case hnc =>
      rintro ⟨i, hi, hd, hu⟩
      rw [getD_getUnusedDimensions hi, decide_eq_true_eq, not_not] at hu
      exact not_mem_usedVariables h (not_kept_iff.mpr hd) hu
    rw [← hl, ← hcount]
    refine replaceDimsAndSymbols_spec ?length length_createVariableRange fun e he id hid => ?kept
    case length => rw [length_compactReplacements, hl]
    case kept =>
      have ⟨hlt, hk⟩ := h e he id hid
      by_cases hd : id < D.length
      case pos =>
        rw [List.getElem?_append_left (by rwa [length_compactReplacements]),
          getElem?_compactReplacements none 0 hk hd, zero_add]
      case neg =>
        have hd := not_lt.mp hd
        rw [List.getElem?_append_right (by rwa [length_compactReplacements]), length_compactReplacements,
          getElem?_createVariableRange (by omega), rank_of_length_le hd]

theorem compressSymbols_spec (hl : S.length = sm.numSymbols)
    (h : UsesKept sm (List.replicate sm.numDims false ++ S)) :
    Yields (sm.compressSymbols S) fun sm' => sm'.numDims = sm.numDims ∧ sm'.numSymbols = S.count false ∧
      List.Forall₂ (Renamed (rank (List.replicate sm.numDims false ++ S))) sm.exprs sm'.exprs := by
  have hcount := count_false S
  rw [SymbolicMap.compressSymbols, if_neg (not_not.mpr hl)]
  split
  case isTrue hz =>
    refine .pure ⟨rfl, by omega, List.forall₂_same.mpr fun e _ => ?_⟩
    refine Renamed.refl.congr fun id _ => (rank_of_count_eq_zero ?_ id).symm
    simpa [List.count_append, List.count_replicate] using hz
  case isFalse hz =>
    rw [if_neg]
    case hnc =>
      rintro ⟨i, hi, hd, hu⟩
      rw [getD_getUnusedSymbols hi, decide_eq_true_eq, not_not] at hu
      refine not_mem_usedVariables h ?_ hu
      rw [kept_append_right (by simp), List.length_replicate, Nat.add_sub_cancel_left]
      exact not_kept_iff.mpr hd
    rw [← hl, ← hcount]
    refine replaceDimsAndSymbols_spec length_createVariableRange ?length fun e he id hid => ?kept
    case length => rw [length_compactReplacements, hl]
    case kept =>
      have ⟨hlt, hk⟩ := h e he id hid
      by_cases hd : id < sm.numDims
      case pos =>
        rw [List.getElem?_append_left (by rwa [length_createVariableRange]),
          getElem?_createVariableRange hd, rank_append_left (by simpa using hd), zero_add,
          rank_of_count_eq_zero (by simp [List.count_replicate])]
      case neg =>
        have hd := not_lt.mp hd
        rw [kept_append_right (by simpa using hd), List.length_replicate] at hk
        rw [List.getElem?_append_right (by rwa [length_createVariableRange]), length_createVariableRange,
          getElem?_compactReplacements none sm.numDims hk (by omega), rank_append_right (by simpa using hd)]
        simp

-- A symbolic map whose variables are renumbered.
structure CompressedMap (D S : List Bool) (sm sm' : SymbolicMap) : Prop where
  numDims    : sm'.numDims = D.count false
  numSymbols : sm'.numSymbols = S.count false
  exprs      : List.Forall₂ (Renamed (rank (D ++ S))) sm.exprs sm'.exprs

theorem usesKept_compressDims (hl : D.length = sm.numDims) (hs : S.length = sm.numSymbols)
    (h : UsesKept sm (D ++ S)) (hd : sm'.numDims = D.count false) (hn : sm'.numSymbols = sm.numSymbols)
    (he : List.Forall₂ (Renamed (rank D)) sm.exprs sm'.exprs) :
    UsesKept sm' (List.replicate sm'.numDims false ++ S) := by
  intro e' he' id' hid'
  obtain ⟨e, hmem, hr⟩ := forall₂_exists he he'
  obtain ⟨id, hid, rfl⟩ := hr.used id' hid'
  have ⟨hlt, hk⟩ := h e hmem id hid
  refine ⟨?_, hd ▸ kept_rank hk⟩
  by_cases hdim : id < D.length
  case pos =>
    have := rank_lt (kept_of_kept_append hk) hdim
    omega
  case neg =>
    rw [rank_of_length_le (not_lt.mp hdim)]
    omega

theorem compress_spec (hl : D.length = sm.numDims) (hs : S.length = sm.numSymbols)
    (h : UsesKept sm (D ++ S)) :
    Yields (sm.compress D S) (CompressedMap D S sm) := by
  have hdims : Yields (if D.count true > 0 then sm.compressDims D else some sm) fun sm' =>
      sm'.numDims = D.count false ∧ sm'.numSymbols = sm.numSymbols ∧
        List.Forall₂ (Renamed (rank D)) sm.exprs sm'.exprs := by
    split
    case isTrue  => exact compressDims_spec hl fun e he id hid =>
      ⟨(h e he id hid).1, kept_of_kept_append (h e he id hid).2⟩
    case isFalse hz =>
      have hz : D.count true = 0 := by omega
      refine .pure ⟨by rw [count_false]; omega, rfl, List.forall₂_same.mpr fun e _ => ?_⟩
      exact Renamed.refl.congr fun id _ => (rank_of_count_eq_zero hz id).symm
  refine .bind hdims fun sm₁ ⟨hd, hn, he⟩ => ?_
  have huses := usesKept_compressDims hl hs h hd hn he
  have hsyms : Yields (if S.count true > 0 then sm₁.compressSymbols S else some sm₁) fun sm' =>
      sm'.numDims = sm₁.numDims ∧ sm'.numSymbols = S.count false ∧
        List.Forall₂ (Renamed (rank (List.replicate sm₁.numDims false ++ S))) sm₁.exprs sm'.exprs := by
    split
    case isTrue     => exact compressSymbols_spec (hs.trans hn.symm) huses
    case isFalse hz =>
      have hz : S.count true = 0 := by omega
      refine .pure ⟨rfl, by rw [count_false]; omega, List.forall₂_same.mpr fun e _ => ?_⟩
      refine Renamed.refl.congr fun id _ => (rank_of_count_eq_zero ?_ id).symm
      simpa [List.count_append, List.count_replicate] using hz
  refine hsyms.imp fun sm₂ ⟨hd', hn', he'⟩ => ⟨hd'.trans hd, hn', forall₂_trans he he' ?_⟩
  intro e hmem e₁ e₂ h₁ h₂
  refine (h₁.trans h₂).congr fun id hid => ?_
  rw [hd]
  exact rank_rank (h e hmem id hid).2

end SymbolicMap

namespace IndexingMap

variable {m m' : IndexingMap} {σ : List (Option SymbolicExpr)} {D S : List Bool} {ρ ρ' : Nat → Int}

section Update

-- The constraints are those of `m` with replaced variables.
structure Updated (m : IndexingMap) (σ : List (Option SymbolicExpr)) (m' : IndexingMap) : Prop where
  valid  : m'.Valid
  shape  : m'.symbolicMap.numDims = m.symbolicMap.numDims ∧
    m'.symbolicMap.numSymbols = m.symbolicMap.numSymbols
  domain : ∀ ρ, m'.Domain ρ ↔ m.isKnownEmpty = false ∧ m.InBounds ρ ∧
    ∀ c ∈ m.constraints, (c.1.replaceVariables σ).eval ρ ∈ c.2
  result : ∀ ρ, m'.Domain ρ → m'.results ρ = m.results ρ

theorem updateConstraints_spec (hv : { m with constraints := [] : IndexingMap }.Valid)
    (hn : (MapVector.keys m.constraints).Nodup)
    (hu : ∀ e ∈ MapVector.keys m.constraints, ∀ id ∈ (e.replaceVariables σ).usedVariables, id < m.numVars) :
    Yields (m.updateConstraints σ) (Updated m σ) := by
  let updated := m.constraints.filter fun c => c.1.replaceVariables σ ≠ c.1
  let base := { m with constraints := (MapVector.keys updated).foldl MapVector.erase m.constraints }
  -- The constraints that are not replaced stay in the map.
  have hbase {c} : c ∈ base.constraints ↔ c ∈ m.constraints ∧ c.1.replaceVariables σ = c.1 := by
    rw [MapVector.mem_foldl_erase]
    refine and_congr_right fun hc => ?_
    constructor
    case mp =>
      intro hk
      by_contra hne
      exact hk (MapVector.mem_keys_of_mem (List.mem_filter.mpr ⟨hc, by simpa using hne⟩))
    case mpr =>
      intro heq hk
      obtain ⟨i, hi⟩ := MapVector.mem_keys.mp hk
      have := (List.mem_filter.mp hi).2
      simp [heq] at this
  have hvalid : base.Valid :=
    { dims        := hv.dims
      symbols     := hv.symbols
      exprs       := hv.exprs
      constraints := by
        intro e he id hid
        obtain ⟨i, hi⟩ := MapVector.mem_keys.mp he
        have ⟨hc, heq⟩ := hbase.mp hi
        exact hu e (MapVector.mem_keys_of_mem hc) id (heq.symm ▸ hid)
      nodup       := MapVector.nodup_foldl_erase hn }
  have hadd : Yields (m.updateConstraints σ)
      (AddedAll base (updated.map fun c => (c.1.replaceVariables σ, c.2))) := by
    refine addConstraints_added hvalid fun c hc id hid => ?_
    obtain ⟨q, hq, rfl⟩ := List.mem_map.mp hc
    exact hu q.1 (MapVector.mem_keys_of_mem (List.mem_filter.mp hq).1) id hid
  refine hadd.imp fun m' h => ⟨h.valid, ⟨h.numDims, h.numSymbols⟩, fun ρ => ?_, h.result⟩
  rw [h.domain]
  constructor
  case mp =>
    intro ⟨hd, hs⟩
    refine ⟨hd.notEmpty, hd.inBounds, fun c hc => ?_⟩
    by_cases heq : c.1.replaceVariables σ = c.1
    case pos =>
      rw [heq]
      exact hd.constraints c (hbase.mpr ⟨hc, heq⟩)
    case neg =>
      exact hs _ (List.mem_map_of_mem (List.mem_filter.mpr ⟨hc, by simpa using heq⟩))
  case mpr =>
    intro ⟨he, hb, hs⟩
    refine ⟨⟨he, hb, fun c hc => ?base⟩, fun c hc => ?added⟩
    case base =>
      have ⟨hc, heq⟩ := hbase.mp hc
      have := hs c hc
      rwa [heq] at this
    case added =>
      obtain ⟨q, hq, rfl⟩ := List.mem_map.mp hc
      exact hs q (List.mem_filter.mp hq).1

end Update

section CompressVars

-- `ρ'` is the restriction of `ρ` to the variables that are kept.
def Restricts (m : IndexingMap) (mask : List Bool) (ρ ρ' : Nat → Int) : Prop :=
  ∀ id < m.numVars, Kept mask id → ρ' (rank mask id) = ρ id

-- The bounds of the removed variables are ignored.
structure KeptDomain (m : IndexingMap) (mask : List Bool) (ρ : Nat → Int) : Prop where
  notEmpty    : m.isKnownEmpty = false
  inBounds    : ∀ id i, m.variableBound id = some i → Kept mask id → ρ id ∈ i
  constraints : m.ConstraintsSatisfied ρ

structure Compressed (m : IndexingMap) (mask : List Bool) (m' : IndexingMap) : Prop where
  valid  : m'.Valid
  domain : ∀ ρ ρ', m.Restricts mask ρ ρ' → (m'.Domain ρ' ↔ m.KeptDomain mask ρ)
  result : ∀ ρ ρ', m.Restricts mask ρ ρ' → m'.Domain ρ' → m'.results ρ' = m.results ρ

-- All constraints are renumbered correctly.
structure Compressible (m : IndexingMap) (D S : List Bool) : Prop where
  results     : UsesKept m.symbolicMap (D ++ S)
  constraints : ∀ e ∈ MapVector.keys m.constraints, ∀ id ∈ e.usedVariables, Kept (D ++ S) id
  symbols     : D.count true > 0 → S.count true = 0 →
    ∀ e ∈ MapVector.keys m.constraints, ∀ id ∈ e.usedVariables, id < m.symbolicMap.numDims

theorem ite_keep (h : c = 0 → mask.count true = 0) (xs : List α) :
    (if c > 0 then keep mask xs else xs) = keep mask xs := by
  split
  case isTrue    => rfl
  case isFalse hc => rw [keep_of_count_eq_zero (h (by omega))]

theorem keep_vars (hd : D.length = m.dimVars.length) (hs : S.length = m.rangeVars.length + m.rtVars.length) :
    keep D m.dimVars ++ (keep (S.take m.rangeVars.length) m.rangeVars ++
      keep (S.drop m.rangeVars.length) m.rtVars) = keep (D ++ S) m.vars := by
  have hr : m.rangeVars.length = (S.take m.rangeVars.length).length := by
    rw [List.length_take]
    omega
  rw [← keep_append hr, ← keep_append hd.symm, List.take_append_drop]
  rfl

theorem inBounds_keep {mask : List Bool} (hd : m.dimVars.length = m.symbolicMap.numDims)
    (hd' : m'.dimVars.length = m'.symbolicMap.numDims) (hv : m'.vars = keep mask m.vars)
    (hl : m.vars.length = m.numVars) (hr : m.Restricts mask ρ ρ') :
    m'.InBounds ρ' ↔ ∀ id i, m.variableBound id = some i → Kept mask id → ρ id ∈ i := by
  simp only [InBounds, variableBound_eq hd, variableBound_eq hd', hv]
  constructor
  case mp =>
    intro h id i hi hk
    have hid : id < m.numVars := hl ▸ (List.getElem?_eq_some_iff.mp hi).1
    rw [← hr id hid hk]
    exact h _ i (by rwa [getElem?_keep hk])
  case mpr =>
    intro h id' i hi
    obtain ⟨id, hk, rfl⟩ := exists_rank mask id'
    rw [getElem?_keep hk] at hi
    have hid : id < m.numVars := hl ▸ (List.getElem?_eq_some_iff.mp hi).1
    rw [hr id hid hk]
    exact h id i hi hk

theorem compressed_self {mask : List Bool} (hv : m.Valid) (hz : mask.count true = 0) :
    Compressed m mask m where
  valid := hv
  domain ρ ρ' hr := by
    have hb := inBounds_keep hv.dims hv.dims (keep_of_count_eq_zero hz m.vars).symm hv.length_vars hr
    have hc : m.ConstraintsSatisfied ρ' ↔ m.ConstraintsSatisfied ρ := by
      refine forall₂_congr fun c hc => ?_
      rw [eval_congr_used fun id hid => ?_]
      have := hr id (hv.constraints _ (MapVector.mem_keys_of_mem hc) id hid) (kept_of_count_eq_zero hz id)
      rwa [rank_of_count_eq_zero hz] at this
    exact ⟨fun h => ⟨h.1, hb.mp h.2, hc.mp h.3⟩, fun h => ⟨h.1, hb.mpr h.2, hc.mpr h.3⟩⟩
  result ρ ρ' hr _ := by
    refine List.map_congr_left fun e he => eval_congr_used fun id hid => ?_
    have := hr id (hv.exprs e he id hid) (kept_of_count_eq_zero hz id)
    rwa [rank_of_count_eq_zero hz] at this

-- The replacements for the constraints.
def constraintReplacements (m : IndexingMap) (D S : List Bool) : List (Option SymbolicExpr) :=
  (if D.count true > 0 then compactReplacements (some (const 0)) 0 D
    else createVariableRange m.symbolicMap.numDims 0) ++
  (if S.count true > 0 then
    compactReplacements (some (const 0)) (m.symbolicMap.numDims - D.count true) S else [])

theorem length_dimReplacements (hl : D.length = m.symbolicMap.numDims) :
    (if D.count true > 0 then compactReplacements (some (const 0)) 0 D
      else createVariableRange m.symbolicMap.numDims 0).length = m.symbolicMap.numDims := by
  split
  case isTrue  => rw [length_compactReplacements, hl]
  case isFalse => exact length_createVariableRange

theorem renamed_constraint (hv : m.Valid) (hl : D.length = m.symbolicMap.numDims)
    (hs : S.length = m.symbolicMap.numSymbols) (hc : Compressible m D S)
    (hchanged : D.count true > 0 ∨ S.count true > 0) (he : e ∈ MapVector.keys m.constraints) :
    Renamed (rank (D ++ S)) e (e.replaceVariables (m.constraintReplacements D S)) := by
  refine renamed_replaceVariables fun id hid => replaceVariables_of_getElem? ?_
  have hlt : id < m.symbolicMap.numDims + m.symbolicMap.numSymbols := hv.constraints e he id hid
  have hk := hc.constraints e he id hid
  rw [constraintReplacements]
  by_cases hd : id < m.symbolicMap.numDims
  case pos =>
    rw [List.getElem?_append_left (by rwa [length_dimReplacements hl]), rank_append_left (by omega)]
    split
    case isTrue     => rw [getElem?_compactReplacements _ 0 (kept_of_kept_append hk) (by omega), zero_add]
    case isFalse hz => rw [getElem?_createVariableRange hd, zero_add, rank_of_count_eq_zero (by omega)]
  case neg =>
    -- The symbols are replaced because a symbol is removed.
    have hsz : S.count true > 0 := by
      by_contra hz
      exact hd (hc.symbols (by omega) (by omega) e he id hid)
    have hd := not_lt.mp hd
    rw [kept_append_right (by omega)] at hk
    rw [List.getElem?_append_right (by rwa [length_dimReplacements hl]), length_dimReplacements hl,
      if_pos hsz, ← hl, getElem?_compactReplacements _ _ hk (by omega), ← count_false,
      rank_append_right (by omega)]

theorem compressVars_eq (h : D.count true > 0 ∨ S.count true > 0) :
    m.compressVars D S = (do
      let symbolicMap ← m.symbolicMap.compress D S
      let m' ← updateConstraints
        { m with
          symbolicMap
          dimVars   := keep D m.dimVars
          rangeVars := keep (S.take m.rangeVars.length) m.rangeVars
          rtVars    := keep (S.drop m.rangeVars.length) m.rtVars } (m.constraintReplacements D S)
      some (true, m')) := by
  have htake : S.count true = 0 → (S.take m.rangeVars.length).count true = 0 := fun hz =>
    Nat.eq_zero_of_le_zero (hz ▸ (List.take_sublist _ S).count_le true)
  have hdrop : S.count true = 0 → (S.drop m.rangeVars.length).count true = 0 := fun hz =>
    Nat.eq_zero_of_le_zero (hz ▸ (List.drop_sublist _ S).count_le true)
  rw [compressVars, if_neg (by omega)]
  simp only [ite_keep fun h : D.count true = 0 => h, ite_keep htake, ite_keep hdrop]
  rfl

theorem forall₂_results {f : Nat → Nat} (h : List.Forall₂ (Renamed f) exprs exprs')
    (hρ : ∀ e ∈ exprs, ∀ id ∈ e.usedVariables, ρ' (f id) = ρ id) :
    exprs'.map (·.eval ρ') = exprs.map (·.eval ρ) := by
  induction h
  case nil => rfl
  case cons e e' exprs exprs' hr _ hi =>
    have he : e.eval (ρ' ∘ f) = e.eval ρ := eval_congr_used (hρ e List.mem_cons_self)
    rw [List.map_cons, List.map_cons, hr.eval, he, hi fun e he => hρ e (.tail _ he)]

theorem valid_keep (hv : m.Valid) (hl : D.length = m.symbolicMap.numDims)
    (hs : S.length = m.symbolicMap.numSymbols) (hc : Compressible m D S)
    (hsm : CompressedMap D S m.symbolicMap sm) :
    IndexingMap.Valid { m with
      symbolicMap := sm
      dimVars     := keep D m.dimVars
      rangeVars   := keep (S.take m.rangeVars.length) m.rangeVars
      rtVars      := keep (S.drop m.rangeVars.length) m.rtVars
      constraints := [] } where
  dims := by rw [length_keep (hv.dims.trans hl.symm), hsm.numDims]
  symbols := by
    have hsym := hv.symbols
    rw [length_keep, length_keep, ← List.count_append, List.take_append_drop, hsm.numSymbols]
    · rw [List.length_drop]; omega
    · rw [List.length_take]; omega
  exprs := by
    intro e' he' id' hid'
    obtain ⟨e, he, hr⟩ := forall₂_exists hsm.exprs he'
    obtain ⟨id, hid, rfl⟩ := hr.used id' hid'
    have ⟨hlt, hk⟩ := hc.results e he id hid
    have := rank_lt hk (by rw [List.length_append]; omega)
    rw [List.count_append] at this
    rw [numVars, hsm.numDims, hsm.numSymbols]
    exact this
  constraints := by simp [MapVector.keys]
  nodup := List.nodup_nil

theorem compressVars_spec (hv : m.Valid) (hl : D.length = m.symbolicMap.numDims)
    (hs : S.length = m.symbolicMap.numSymbols) (hc : Compressible m D S) :
    Yields (m.compressVars D S)
      fun r => r.1 = decide ((D ++ S).count true > 0) ∧ Compressed m (D ++ S) r.2 := by
  by_cases hz : D.count true > 0 ∨ S.count true > 0
  case neg =>
    have hz' : (D ++ S).count true = 0 := by rw [List.count_append]; omega
    rw [compressVars, if_pos (by omega)]
    exact .pure ⟨(decide_eq_false (by omega)).symm, compressed_self hv hz'⟩
  case pos =>
    have hz' : (D ++ S).count true > 0 := by rw [List.count_append]; omega
    rw [compressVars_eq hz]
    refine .bind (compress_spec hl hs hc.results) fun sm hsm => ?_
    have hvalid := valid_keep hv hl hs hc hsm
    have hren {e} (he : e ∈ MapVector.keys m.constraints) := renamed_constraint hv hl hs hc hz he
    refine .bind (updateConstraints_spec hvalid hv.nodup ?used) fun m' hm' =>
      .pure ⟨(decide_eq_true hz').symm, ?projection⟩
    case used =>
      intro e he id' hid'
      obtain ⟨id, hid, rfl⟩ := (hren he).used id' hid'
      have hlt := hv.constraints e he id hid
      have := rank_lt (hc.constraints e he id hid) (by rw [List.length_append, hl, hs]; exact hlt)
      rw [List.count_append] at this
      rw [numVars, hsm.numDims, hsm.numSymbols]
      exact this
    case projection =>
      refine ⟨hm'.valid, fun ρ ρ' hr => ?domain, fun ρ ρ' hr hd => ?result⟩
      case domain =>
        have hkeep := keep_vars (hl.trans hv.dims.symm) (hs.trans hv.symbols.symm)
        have hb := inBounds_keep hv.dims hvalid.dims hkeep hv.length_vars hr
        have hcs : (∀ c ∈ m.constraints, (c.1.replaceVariables (m.constraintReplacements D S)).eval ρ' ∈ c.2) ↔
            m.ConstraintsSatisfied ρ := by
          refine forall₂_congr fun c hcm => ?_
          have hk := MapVector.mem_keys_of_mem hcm
          rw [(hren hk).eval, eval_congr_used fun id hid => ?_]
          exact hr id (hv.constraints _ hk id hid) (hc.constraints _ hk id hid)
        rw [hm'.domain]
        exact ⟨fun h => ⟨h.1, hb.mp h.2.1, hcs.mp h.2.2⟩, fun h => ⟨h.1, hb.mpr h.2, hcs.mpr h.3⟩⟩
      case result =>
        rw [hm'.result ρ' hd]
        exact forall₂_results hsm.exprs fun e he id hid =>
          hr id (hc.results e he id hid).1 (hc.results e he id hid).2

end CompressVars

section Detect

variable {removingDims removingSymbols : Bool} {unused : UnusedVariables}

theorem length_clearBits (bits : List Bool) (ids : List Nat) : (clearBits bits ids).length = bits.length := by
  rw [clearBits]
  induction ids generalizing bits
  case nil            => rfl
  case cons id ids hi => rw [List.foldl_cons, hi, List.length_set]

theorem getD_of_clearBits {bits : List Bool} {ids : List Nat} {id : Nat}
    (h : (clearBits bits ids).getD id false = true) : bits.getD id false = true := by
  rw [clearBits] at h
  induction ids generalizing bits
  case nil => exact h
  case cons id' ids hi =>
    have h := hi h
    rw [List.getD_eq_getElem?_getD, List.getElem?_set] at h
    split_ifs at h
    case pos => simp at h
    case neg => simp at h
    case neg => rwa [List.getD_eq_getElem?_getD]

-- Variables are only marked as used.
structure Detected (m : IndexingMap) (unused : UnusedVariables) : Prop where
  dims          : unused.unusedDims.length = m.symbolicMap.numDims
  symbols       : unused.unusedSymbols.length = m.symbolicMap.numSymbols
  unusedDims    : ∀ id, unused.unusedDims.getD id false = true →
    m.symbolicMap.getUnusedDimensions.getD id false = true
  unusedSymbols : ∀ id, unused.unusedSymbols.getD id false = true →
    m.symbolicMap.getUnusedSymbols.getD id false = true

theorem markUsedVariables_detected (numDims : Nat) (removingDims removingSymbols : Bool)
    (h : Detected m unused) (expr : SymbolicExpr) :
    Detected m (markUsedVariables numDims removingDims removingSymbols unused expr) := by
  simp only [markUsedVariables]
  split
  case isTrue  => exact ⟨h.dims, h.symbols, h.unusedDims, h.unusedSymbols⟩
  case isFalse =>
    exact {
      dims             := (length_clearBits ..).trans h.dims
      symbols          := (length_clearBits ..).trans h.symbols
      unusedDims id hu := h.unusedDims id (getD_of_clearBits hu)
      unusedSymbols id hu := h.unusedSymbols id (getD_of_clearBits hu)
    }

theorem detectUnusedVariables_detected (m : IndexingMap) (removingDims removingSymbols : Bool) :
    Detected m (m.detectUnusedVariables removingDims removingSymbols) := by
  have hinit : Detected m ⟨m.symbolicMap.getUnusedDimensions, m.symbolicMap.getUnusedSymbols, []⟩ :=
    ⟨by simp [SymbolicMap.getUnusedDimensions], by simp [SymbolicMap.getUnusedSymbols],
      fun _ h => h, fun _ h => h⟩
  have hfold := List.foldlRecOn (MapVector.keys m.constraints) _ hinit fun unused h expr _ =>
    markUsedVariables_detected m.symbolicMap.numDims removingDims removingSymbols h expr
  exact ⟨hfold.dims, hfold.symbols, hfold.unusedDims, hfold.unusedSymbols⟩

theorem Detected.usesKept (h : Detected m unused) (hv : m.Valid) :
    UsesKept m.symbolicMap (unused.unusedDims ++ unused.unusedSymbols) := by
  intro e he id hid
  have hlt : id < m.symbolicMap.numDims + m.symbolicMap.numSymbols := hv.exprs e he id hid
  refine ⟨hlt, ?_⟩
  have hused : id ∈ m.symbolicMap.usedVariables := List.mem_flatMap.mpr ⟨e, he, hid⟩
  by_contra hk
  by_cases hd : id < m.symbolicMap.numDims
  case pos =>
    rw [kept_append_left (by rwa [h.dims]), not_kept_iff] at hk
    have := h.unusedDims id hk
    rw [getD_getUnusedDimensions hd, decide_eq_true_eq] at this
    exact this hused
  case neg =>
    have hd := not_lt.mp hd
    rw [kept_append_right (by rwa [h.dims]), not_kept_iff, h.dims] at hk
    have := h.unusedSymbols _ hk
    rw [getD_getUnusedSymbols (by omega), decide_eq_true_eq, Nat.add_sub_cancel' hd] at this
    exact this hused

end Detect

section Projection

variable {mask : List Bool} {removed : List SymbolicExpr}

-- The domain of `m'` is the projection of the domain of `m` to the variables that are kept.
structure Projection (m m' : IndexingMap) (mask : List Bool) : Prop where
  valid  : m'.Valid
  domain : ∀ ρ', m'.Domain ρ' ↔ ∃ ρ, m.Domain ρ ∧ m.Restricts mask ρ ρ'
  result : ∀ ρ ρ', m.Domain ρ → m.Restricts mask ρ ρ' → m'.results ρ' = m.results ρ

theorem Valid.eraseConstraints (h : m.Valid) (removed : List SymbolicExpr) :
    (m.eraseConstraints removed).Valid where
  dims    := h.dims
  symbols := h.symbols
  exprs   := h.exprs
  constraints e he := by
    obtain ⟨i, hi⟩ := MapVector.mem_keys.mp he
    exact h.constraints e (MapVector.mem_keys_of_mem (MapVector.mem_foldl_erase.mp hi).1)
  nodup   := MapVector.nodup_foldl_erase h.nodup

theorem projection_of_compressed (hne : ∃ ρ, m.Domain ρ)
    (hu : ∀ e ∈ removed, ∀ id ∈ e.usedVariables, ¬Kept mask id)
    (hc : Compressed (m.eraseConstraints removed) mask m') : Projection m m' mask := by
  have hkept {ρ} (hd : m.Domain ρ) : (m.eraseConstraints removed).KeptDomain mask ρ :=
    ⟨hd.1, fun id i hi _ => hd.2 id i hi, fun c hcm => hd.3 c (MapVector.mem_foldl_erase.mp hcm).1⟩
  refine ⟨hc.valid, fun ρ' => ⟨fun hd => ?extend, fun ⟨ρ, hd, hr⟩ => ?restrict⟩, fun ρ ρ' hd hr => ?result⟩
  case restrict => exact (hc.domain ρ ρ' hr).mpr (hkept hd)
  case result => exact hc.result ρ ρ' hr ((hc.domain ρ ρ' hr).mpr (hkept hd))
  case extend =>
    -- The removed variables get the values of some point of the domain.
    obtain ⟨ρ₀, hd₀⟩ := hne
    let ρ := fun id => if id < m.numVars ∧ Kept mask id then ρ' (rank mask id) else ρ₀ id
    have hr : m.Restricts mask ρ ρ' := fun id hid hk => (if_pos ⟨hid, hk⟩).symm
    have hρ {id} (hk : ¬Kept mask id) : ρ id = ρ₀ id := if_neg fun h => hk h.2
    have hdk := (hc.domain ρ ρ' hr).mp hd
    refine ⟨ρ, ⟨hdk.notEmpty, fun id i hi => ?bounds, fun c hcm => ?constraints⟩, hr⟩
    case bounds =>
      by_cases hk : Kept mask id
      case pos => exact hdk.inBounds id i hi hk
      case neg => exact hρ hk ▸ hd₀.inBounds id i hi
    case constraints =>
      by_cases hrm : c.1 ∈ removed
      case neg => exact hdk.constraints c (MapVector.mem_foldl_erase.mpr ⟨hcm, hrm⟩)
      case pos =>
        rw [eval_congr_used fun id hid => hρ (hu c.1 hrm id hid)]
        exact hd₀.constraints c hcm

theorem restricts_congr {mask' : List Bool} (h : mask.count true = 0) (h' : mask'.count true = 0) :
    m.Restricts mask ρ ρ' ↔ m.Restricts mask' ρ ρ' := by
  simp only [Restricts, rank_of_count_eq_zero h, rank_of_count_eq_zero h', kept_of_count_eq_zero h,
    kept_of_count_eq_zero h']

theorem Projection.congr {mask' : List Bool} (hp : Projection m m' mask) (h : mask.count true = 0)
    (h' : mask'.count true = 0) : Projection m m' mask' where
  valid         := hp.valid
  domain ρ'     := by simp only [hp.domain, restricts_congr h h']
  result ρ ρ' hd hr := hp.result ρ ρ' hd ((restricts_congr h h').mpr hr)

-- A constraint that is not removed uses no removed variable. The symbols of the constraints are not
-- renumbered if only dimensions are removed.
structure CompressExact (m : IndexingMap) (D S : List Bool) (removed : List SymbolicExpr) : Prop where
  kept    : ∀ e ∈ MapVector.keys m.constraints, e ∉ removed → ∀ id ∈ e.usedVariables, Kept (D ++ S) id
  symbols : D.count true > 0 → S.count true = 0 →
    ∀ e ∈ MapVector.keys m.constraints, e ∉ removed → ∀ id ∈ e.usedVariables, id < m.symbolicMap.numDims

theorem compressVars_projection (hv : m.Valid) (hne : ∃ ρ, m.Domain ρ) (hl : D.length = m.symbolicMap.numDims)
    (hs : S.length = m.symbolicMap.numSymbols) (hr : UsesKept m.symbolicMap (D ++ S))
    (hu : ∀ e ∈ removed, ∀ id ∈ e.usedVariables, ¬Kept (D ++ S) id) (hx : CompressExact m D S removed) :
    Yields ((m.eraseConstraints removed).compressVars D S)
      fun r => r.1 = decide ((D ++ S).count true > 0) ∧ Projection m r.2 (D ++ S) := by
  have hmem {e} (he : e ∈ MapVector.keys (m.eraseConstraints removed).constraints) :
      e ∈ MapVector.keys m.constraints ∧ e ∉ removed := by
    obtain ⟨i, hi⟩ := MapVector.mem_keys.mp he
    have ⟨hi, hrm⟩ := MapVector.mem_foldl_erase.mp hi
    exact ⟨MapVector.mem_keys_of_mem hi, hrm⟩
  have hc : Compressible (m.eraseConstraints removed) D S :=
    { results           := hr
      constraints e he  := hx.kept e (hmem he).1 (hmem he).2
      symbols hd hz e he := hx.symbols hd hz e (hmem he).1 (hmem he).2 }
  refine (compressVars_spec (hv.eraseConstraints removed) hl hs hc).imp fun r hr => ⟨hr.1, ?_⟩
  exact projection_of_compressed hne hu hr.2

end Projection

section RemoveUnused

variable {rd rs : Bool} {e : SymbolicExpr}

theorem not_kept_of_unusedVarsOnly {id : Nat} (hl : D.length = numDims)
    (h : isFunctionOfUnusedVarsOnly (getUsedParameters e numDims) D S rd rs) (hid : id ∈ e.usedVariables) :
    (numDims ≤ id ∨ rd) ∧ ¬Kept (D ++ S) id := by
  simp only [isFunctionOfUnusedVarsOnly, decide_eq_true_eq] at h
  obtain ⟨hdims, _, hd, hs⟩ := h
  by_cases hlt : id < numDims
  case pos =>
    have hmem : id ∈ (getUsedParameters e numDims).dimensionIds := by simp [getUsedParameters, hid, hlt]
    refine ⟨.inr (hdims.resolve_left (List.ne_nil_of_mem hmem)), ?_⟩
    rw [kept_append_left (by omega), not_kept_iff]
    exact hd id hmem
  case neg =>
    have hle := not_lt.mp hlt
    have hmem : id - numDims ∈ (getUsedParameters e numDims).symbolIds :=
      List.mem_map_of_mem (List.mem_filter.mpr ⟨hid, by simpa using hle⟩)
    refine ⟨.inl hle, ?_⟩
    rw [kept_append_right (by omega), not_kept_iff, hl]
    exact hs _ hmem

theorem unusedVarsOnly_of_mem
    (h : e ∈ (m.detectUnusedVariables rd rs).constraintsWithUnusedVarsOnly) :
    isFunctionOfUnusedVarsOnly (getUsedParameters e m.symbolicMap.numDims)
      (m.detectUnusedVariables rd rs).unusedDims (m.detectUnusedVariables rd rs).unusedSymbols rd rs :=
  (List.mem_filter.mp h).2

def VarsExact (m : IndexingMap) : Prop :=
  let unused := m.detectUnusedVariables true true
  CompressExact m unused.unusedDims unused.unusedSymbols unused.constraintsWithUnusedVarsOnly

def SymbolsExact (m : IndexingMap) : Prop :=
  let unused := m.detectUnusedVariables false true
  CompressExact m (List.replicate m.symbolicMap.numDims false) unused.unusedSymbols
    unused.constraintsWithUnusedVarsOnly

theorem removeUnusedVars_spec (hv : m.Valid) (hne : ∃ ρ, m.Domain ρ) (hx : VarsExact m) :
    Yields m.removeUnusedVars fun r => Projection m r.2 r.1 := by
  have hdet := detectUnusedVariables_detected m true true
  have hcomp := compressVars_projection hv hne hdet.dims hdet.symbols (hdet.usesKept hv)
    (fun e he id hid => (not_kept_of_unusedVarsOnly hdet.dims (unusedVarsOnly_of_mem he) hid).2) hx
  refine .bind hcomp fun r hr => .pure ?_
  split
  case isTrue    => exact hr.2
  case isFalse h =>
    rw [hr.1, decide_eq_true_eq] at h
    exact hr.2.congr (by omega) rfl

theorem compressVars_nil : m.compressVars [] S = m.compressVars (List.replicate m.symbolicMap.numDims false) S := by
  simp [compressVars, SymbolicMap.compress, List.count_replicate]

theorem removeUnusedSymbols_spec (hv : m.Valid) (hne : ∃ ρ, m.Domain ρ) (hx : SymbolsExact m) :
    Yields m.removeUnusedSymbols
      fun r => Projection m r.2 (List.replicate m.symbolicMap.numDims false ++ r.1) := by
  have hdet := detectUnusedVariables_detected m false true
  have hzero : (List.replicate m.symbolicMap.numDims false ++ []).count true = 0 := by
    simp [List.count_replicate]
  rw [removeUnusedSymbols]
  split
  case isTrue =>
    have hself : Compressed (m.eraseConstraints []) _ m := compressed_self hv hzero
    exact .pure (projection_of_compressed hne (by simp) hself)
  case isFalse =>
    have huses : UsesKept m.symbolicMap (List.replicate m.symbolicMap.numDims false ++
        (m.detectUnusedVariables false true).unusedSymbols) := by
      intro e he id hid
      have ⟨hlt, hk⟩ := hdet.usesKept hv e he id hid
      refine ⟨hlt, ?_⟩
      by_cases hd : id < m.symbolicMap.numDims
      case pos =>
        rw [kept_append_left (by simpa using hd)]
        exact kept_of_count_eq_zero (by simp [List.count_replicate]) id
      case neg =>
        have hd := not_lt.mp hd
        rw [kept_append_right (by rwa [hdet.dims]), hdet.dims] at hk
        rwa [kept_append_right (by simpa using hd), List.length_replicate]
    have hcomp := compressVars_projection hv hne List.length_replicate hdet.symbols huses
      (fun e he id hid => ?unused) hx
    case unused =>
      have ⟨hd, hk⟩ := not_kept_of_unusedVarsOnly hdet.dims (unusedVarsOnly_of_mem he) hid
      have hd := hd.resolve_right (by simp)
      rw [kept_append_right (by rwa [hdet.dims]), hdet.dims] at hk
      rwa [kept_append_right (by simpa using hd), List.length_replicate]
    have hnil := @compressVars_nil
      (m.eraseConstraints (m.detectUnusedVariables false true).constraintsWithUnusedVarsOnly)
      (m.detectUnusedVariables false true).unusedSymbols
    replace hcomp := hnil ▸ hcomp
    refine .bind hcomp fun r hr => .pure ?_
    split
    case isTrue    => exact hr.2
    case isFalse h =>
      rw [hr.1, decide_eq_true_eq] at h
      exact hr.2.congr (by omega) hzero

theorem removeUnused_projection (m : IndexingMap) (hv : m.Valid) (hne : ∃ ρ, m.Domain ρ) :
    (VarsExact m → ∃ unused m', m.removeUnusedVars = some (unused, m') ∧ Projection m m' unused) ∧
    (SymbolsExact m → ∃ unused m', m.removeUnusedSymbols = some (unused, m') ∧
      Projection m m' (List.replicate m.symbolicMap.numDims false ++ unused)) := by
  constructor
  case left =>
    intro hx
    obtain ⟨⟨unused, m'⟩, heq, hp⟩ := removeUnusedVars_spec hv hne hx
    exact ⟨unused, m', heq, hp⟩
  case right =>
    intro hx
    obtain ⟨⟨unused, m'⟩, heq, hp⟩ := removeUnusedSymbols_spec hv hne hx
    exact ⟨unused, m', heq, hp⟩

-- The constraint on the first dimension and the first symbol is removed.
def unusedPair : IndexingMap where
  symbolicMap  := ⟨2, 2, [binary .add (var 1) (var 3)]⟩
  dimVars      := [⟨0, 4⟩, ⟨0, 9⟩]
  rangeVars    := [⟨0, 6⟩]
  rtVars       := [⟨0, 20⟩]
  constraints  := [(binary .add (var 0) (var 2), ⟨3, 5⟩), (binary .add (var 1) (var 3), ⟨0, 7⟩)]
  isKnownEmpty := false

theorem removeUnused_projection_pair :
    (∃ unused m', unusedPair.removeUnusedVars = some (unused, m') ∧ Projection unusedPair m' unused) ∧
    (∃ unused m', unusedPair.removeUnusedSymbols = some (unused, m') ∧
      Projection unusedPair m' (List.replicate unusedPair.symbolicMap.numDims false ++ unused)) := by
  have hv : unusedPair.Valid := ⟨by decide, by decide, by decide, by decide, by decide⟩
  have h := removeUnused_projection unusedPair hv ⟨fun id => if id = 0 then 3 else 0, by decide⟩
  exact ⟨h.1 ⟨by decide, by decide⟩, h.2 ⟨by decide, by decide⟩⟩

-- Only the dimension is removed.
def unusedDim : IndexingMap where
  symbolicMap  := ⟨1, 1, [var 1]⟩
  dimVars      := [⟨0, 4⟩]
  rangeVars    := [⟨0, 9⟩]
  rtVars       := []
  constraints  := [(binary .mod (var 1) (const 2), ⟨0, 0⟩)]
  isKnownEmpty := false

theorem removeUnused_not_projection :
    unusedDim.Valid ∧ (∃ ρ, unusedDim.Domain ρ) ∧
      ¬ ∃ unused m', unusedDim.removeUnusedVars = some (unused, m') ∧ Projection unusedDim m' unused := by
  refine ⟨⟨by decide, by decide, by decide, by decide, by decide⟩, ⟨fun _ => 0, by decide⟩, ?_⟩
  rintro ⟨unused, m', heq, hp⟩
  have he : unusedDim.removeUnusedVars = some ([true, false],
      { unusedDim with symbolicMap := ⟨0, 1, [var 0]⟩, dimVars := [] }) := by
    decide
  cases he.symm.trans heq
  -- The constraint still uses the old number of the symbol.
  have := hp.valid.constraints (binary .mod (var 1) (const 2)) (by decide) 1 (by decide)
  contradiction

end RemoveUnused
end IndexingMap
end Indexing
