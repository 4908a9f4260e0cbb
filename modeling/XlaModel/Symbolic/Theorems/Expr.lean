import XlaModel.Symbolic.Canonicalize
import XlaModel.Symbolic.Expr

namespace Symbolic

theorem modulo_eq_emod {a b : Int} (hb : b ≠ 0) : modulo a b = a % b := by
  have hr : a.tmod b + |b| = a % b ∨ a.tmod b + |b| = a % b + |b| := by
    rw [Int.tmod_eq_emod, Int.abs_eq_natAbs]
    split <;> omega
  have h₀ := Int.emod_nonneg a hb
  have ha : (a.tmod b + |b|).tmod b = (a.tmod b + |b|) % b := by
    refine Int.tmod_eq_emod_of_nonneg ?_
    have := abs_nonneg b
    cases hr <;> omega
  rw [modulo, ha]
  cases hr
  case inl h => rw [h, Int.emod_emod_of_dvd a (dvd_refl b)]
  case inr h => rw [h, Int.add_emod, Int.emod_eq_zero_of_dvd (self_dvd_abs b)]; simp

@[simp]
theorem modulo_one (a : Int) : modulo a 1 = 0 := by
  simp [modulo]

@[simp]
theorem modulo_neg_one (a : Int) : modulo a (-1) = 0 := by
  simp [modulo]

@[simp]
theorem divideCeil_one (a : Int) : divideCeil a 1 = a := by
  simp [divideCeil]

theorem BinaryOp.eval_comm {op : BinaryOp} (h : op.isCommutative) (a b : Int) :
    op.eval a b = op.eval b a := by
  cases op <;> simp [isCommutative] at h <;> simp [eval]
  case add => exact Int.add_comm ..
  case mul => exact Int.mul_comm ..
  case max => exact Int.max_comm ..
  case min => exact Int.min_comm ..

theorem BinaryOp.isDivision_of_isCommutative {op : BinaryOp} (h : op.isCommutative) :
    op.isDivision = false := by
  cases op <;> first | rfl | contradiction

namespace SymbolicExpr

variable {pos : Prop} {ρ : Nat → Int}

theorem eq_const_of_isConst {e : SymbolicExpr} (h : e.isConst) : ∃ v, e = const v := by
  cases e
  case const v => exact ⟨v, rfl⟩
  all_goals contradiction

@[simp] theorem isConst_const (v : Int) : (const v).isConst = true := rfl
@[simp] theorem isConst_var (id : Nat) : (var id).isConst = false := rfl
@[simp] theorem isConst_binary : (binary op l r).isConst = false := rfl
@[simp] theorem eval_const (v : Int) : (const v).eval ρ = v := rfl
@[simp] theorem eval_binary : (binary op l r).eval ρ = op.eval (l.eval ρ) (r.eval ρ) := rfl

theorem constValue?_eq_some {e : SymbolicExpr} : e.constValue? = some v ↔ e = const v := by
  cases e <;> simp [constValue?]

-- All operations on constants have been folded.
def Folded : SymbolicExpr → Prop
  | var _         => True
  | const _       => True
  | binary _ l r  => l.Folded ∧ r.Folded ∧ ¬(l.isConst ∧ r.isConst)

structure DivisorOk (pos : Prop) (ρ : Nat → Int) (op : BinaryOp) (r : SymbolicExpr) : Prop where
  ne_zero  : op.isDivision → r.eval ρ ≠ 0
  positive : pos → op = .mod ∨ op = .floorDiv → ∃ c > 0, r = const c

-- The expressions on which the recursive calls are made have no zero divisors. If the divisors of the
-- canonicalized expression are positive constants, then so are the divisors of these expressions.
def Wf (pos : Prop) (ρ : Nat → Int) : SymbolicExpr → Prop
  | var _         => True
  | const _       => True
  | binary op l r => l.Wf pos ρ ∧ r.Wf pos ρ ∧ DivisorOk pos ρ op r

theorem wf_iff {e : SymbolicExpr} :
    e.Wf pos ρ ↔ e.Defined ρ ∧ (pos → e.PositiveDivisors) := by
  induction e
  case var   => simp [Wf, Defined, PositiveDivisors]
  case const => simp [Wf, Defined, PositiveDivisors]
  case binary op l r hl hr =>
    simp only [Wf, Defined, PositiveDivisors, hl, hr]
    constructor
    case mp  => exact fun h => ⟨⟨h.1.1, h.2.1.1, h.2.2.1⟩, fun hp => ⟨h.1.2 hp, h.2.1.2 hp, h.2.2.2 hp⟩⟩
    case mpr =>
      exact fun h => ⟨⟨h.1.1, fun hp => (h.2 hp).1⟩, ⟨h.1.2.1, fun hp => (h.2 hp).2.1⟩, h.1.2.2,
        fun hp => (h.2 hp).2.2⟩

theorem DivisorOk.of_not_isDivision (h : op.isDivision = false) : DivisorOk pos ρ op r where
  ne_zero  := by simp [h]
  positive := by rintro _ (rfl | rfl) <;> contradiction

theorem DivisorOk.of_pos (h : 0 < d) : DivisorOk pos ρ op (const d) where
  ne_zero  := fun _ => h.ne'
  positive := fun _ _ => ⟨d, h, rfl⟩

section MulConst

-- The cases of `mulConst`.
theorem mulConst_cases (e : SymbolicExpr) (c : Int) :
    (∃ v, e = const v ∧ e.mulConst c = const (v * c)) ∨
    (c = 0 ∧ e.mulConst c = const 0) ∨
    (c = 1 ∧ e.mulConst c = e) ∨
    (∃ l c₁, e = binary .mul l (const c₁) ∧ e.mulConst c = l.mulConst (c₁ * c)) ∨
    (e.isConst = false ∧ (∀ l c₁, e ≠ binary .mul l (const c₁)) ∧
      e.mulConst c = binary .mul e (const c)) := by
  cases e
  case const v => exact .inl ⟨v, rfl, rfl⟩
  case var id =>
    by_cases h₀ : c = 0 <;> by_cases h₁ : c = 1 <;> simp [mulConst, h₀, h₁]
  case binary op l r =>
    by_cases h₀ : c = 0
    case pos => simp [mulConst, h₀]
    case neg =>
      by_cases h₁ : c = 1
      case pos => simp [mulConst, h₁]
      case neg =>
        simp only [mulConst, h₀, h₁, ↓reduceIte]
        split
        case h_1 c₁     => simp
        case h_2 op r h =>
          refine .inr <| .inr <| .inr <| .inr ⟨rfl, ?_, rfl⟩
          rintro l c₁ ⟨⟩
          exact h c₁ rfl rfl

theorem eval_mulConst (e : SymbolicExpr) (c : Int) : (e.mulConst c).eval ρ = e.eval ρ * c := by
  induction e generalizing c
  case const v => rfl
  case var id =>
    simp only [mulConst]
    split
    case isTrue h  => simp [h, eval]
    case isFalse h => split <;> simp_all [eval, BinaryOp.eval]
  case binary op l r hl _ =>
    simp only [mulConst]
    split
    case isTrue h => simp [h]
    case isFalse h =>
      split
      case isTrue h => simp [h]
      case isFalse =>
        split
        case h_1 c₁ => simp [hl, BinaryOp.eval, mul_assoc]
        case h_2    => simp [BinaryOp.eval]

theorem wf_mulConst {e : SymbolicExpr} (c : Int) (h : e.Wf pos ρ) :
    (e.mulConst c).Wf pos ρ := by
  induction e generalizing c
  case const v => trivial
  case var id =>
    simp only [mulConst]
    split <;> [trivial; split <;> [trivial; exact ⟨trivial, trivial, .of_not_isDivision rfl⟩]]
  case binary op l r hl _ =>
    simp only [mulConst]
    split
    case isTrue h => trivial
    case isFalse =>
      split
      case isTrue => exact h
      case isFalse =>
        split
        case h_1 => exact hl _ h.1
        case h_2 => exact ⟨h, trivial, .of_not_isDivision rfl⟩

theorem folded_mulConst {e : SymbolicExpr} (c : Int) (h : e.Folded) : (e.mulConst c).Folded := by
  induction e generalizing c
  case const v => trivial
  case var id =>
    simp only [mulConst]
    split <;> [skip; split] <;> simp [Folded]
  case binary op l r hl _ =>
    simp only [mulConst]
    split
    case isTrue h => trivial
    case isFalse =>
      split
      case isTrue => exact h
      case isFalse =>
        split
        case h_1 => exact hl _ h.1
        case h_2 => exact ⟨h, trivial, by simp⟩

end MulConst

section CreateBinaryOp

-- The cases of `createBinaryOp`.
inductive Created (op : BinaryOp) (l r : SymbolicExpr) : SymbolicExpr → Prop
  | raw      : ¬(l.isConst ∧ r.isConst) → Created op l r (binary op l r)
  | swapped  : op.isCommutative → ¬(l.isConst ∧ r.isConst) → Created op l r (binary op r l)
  | fold     : l = const a → r = const b → Created op l r (const (op.eval a b))
  | left     : op = .add → r = const 0 → Created op l r l
  | right    : op = .add → l = const 0 → Created op l r r
  | mulConst : op = .mul → r = const c → Created op l r (l.mulConst c)
  | constMul : op = .mul → l = const c → Created op l r (r.mulConst c)

theorem createBinaryOp_cases (op : BinaryOp) (l r : SymbolicExpr) :
    Created op l r (createBinaryOp op l r) := by
  simp only [createBinaryOp]
  by_cases h : op.isCommutative ∧ l.isConst
  case pos =>
    rw [if_pos h]
    dsimp only
    split
    case h_1 => exact .right rfl rfl
    case h_2 => exact .constMul rfl rfl
    case h_3 a b _ _ => exact BinaryOp.eval_comm h.1 a b ▸ .fold rfl rfl
    case h_4 hn =>
      refine .swapped h.1 fun ⟨hl, hr⟩ => ?_
      have ⟨_, hl⟩ := eq_const_of_isConst hl
      have ⟨_, hr⟩ := eq_const_of_isConst hr
      exact hn _ _ hr hl
  case neg =>
    rw [if_neg h]
    dsimp only
    split
    case h_1 => exact .left rfl rfl
    case h_2 => exact .mulConst rfl rfl
    case h_3 => exact .fold rfl rfl
    case h_4 hn =>
      refine .raw fun ⟨hl, hr⟩ => ?_
      have ⟨_, hl⟩ := eq_const_of_isConst hl
      have ⟨_, hr⟩ := eq_const_of_isConst hr
      exact hn _ _ hl hr

theorem Created.eval (h : Created op l r e) : e.eval ρ = op.eval (l.eval ρ) (r.eval ρ) := by
  cases h
  case raw              => rfl
  case swapped h _      => exact BinaryOp.eval_comm h _ _
  case fold hl hr       => simp [hl, hr]
  case left ho hr       => simp [ho, hr, BinaryOp.eval]
  case right ho hl      => simp [ho, hl, BinaryOp.eval]
  case mulConst ho hr   => simp [ho, hr, BinaryOp.eval, eval_mulConst]
  case constMul ho hl   => simp [ho, hl, BinaryOp.eval, eval_mulConst, Int.mul_comm]

theorem Created.wf (h : Created op l r e) (hd : (binary op l r).Wf pos ρ) : e.Wf pos ρ := by
  have ⟨hl, hr, hd⟩ := hd
  cases h
  case raw              => exact ⟨hl, hr, hd⟩
  case swapped h _      => exact ⟨hr, hl, .of_not_isDivision (BinaryOp.isDivision_of_isCommutative h)⟩
  case fold             => trivial
  case left             => exact hl
  case right            => exact hr
  case mulConst         => exact wf_mulConst _ hl
  case constMul         => exact wf_mulConst _ hr

theorem Created.folded (h : Created op l r e) (hl : l.Folded) (hr : r.Folded) : e.Folded := by
  cases h
  case raw h            => exact ⟨hl, hr, h⟩
  case swapped h        => exact ⟨hr, hl, fun h' => h h'.symm⟩
  case fold             => trivial
  case left             => exact hl
  case right            => exact hr
  case mulConst         => exact folded_mulConst _ hl
  case constMul         => exact folded_mulConst _ hr

@[simp]
theorem eval_createBinaryOp (op : BinaryOp) (l r : SymbolicExpr) :
    (createBinaryOp op l r).eval ρ = op.eval (l.eval ρ) (r.eval ρ) :=
  (createBinaryOp_cases op l r).eval

theorem wf_createBinaryOp {op : BinaryOp} {l r : SymbolicExpr}
    (h : (binary op l r).Wf pos ρ) : (createBinaryOp op l r).Wf pos ρ :=
  (createBinaryOp_cases op l r).wf h

theorem folded_createBinaryOp {op : BinaryOp} {l r : SymbolicExpr} (hl : l.Folded) (hr : r.Folded) :
    (createBinaryOp op l r).Folded :=
  (createBinaryOp_cases op l r).folded hl hr

end CreateBinaryOp

section Operators

variable {l r : SymbolicExpr}

@[simp]
theorem eval_add : (l.add r).eval ρ = l.eval ρ + r.eval ρ :=
  eval_createBinaryOp ..

@[simp]
theorem eval_mul : (l.mul r).eval ρ = l.eval ρ * r.eval ρ :=
  eval_createBinaryOp ..

@[simp]
theorem eval_mod : (l.mod r).eval ρ = modulo (l.eval ρ) (r.eval ρ) := by
  simp only [mod]
  split
  case h_2   => exact eval_createBinaryOp ..
  case h_1 c =>
    split
    case isFalse  => exact eval_createBinaryOp ..
    case isTrue h => cases eq_or_eq_neg_of_abs_eq h <;> simp_all

@[simp]
theorem eval_floorDiv : (l.floorDiv r).eval ρ = (l.eval ρ).fdiv (r.eval ρ) := by
  simp only [floorDiv]
  split <;> simp_all [BinaryOp.eval]

@[simp]
theorem eval_ceilDiv : (l.ceilDiv r).eval ρ = divideCeil (l.eval ρ) (r.eval ρ) := by
  simp only [ceilDiv]
  split <;> simp_all [BinaryOp.eval]

@[simp]
theorem mulConst_one (e : SymbolicExpr) : e.mulConst 1 = e := by
  cases e <;> simp [mulConst]

theorem mul_const (e : SymbolicExpr) (c : Int) : e.mul (const c) = e.mulConst c := by
  cases e
  case const v => simp [mul, createBinaryOp, BinaryOp.isCommutative, mulConst, Int.mul_comm]
  all_goals rfl

@[simp]
theorem mul_const_one (e : SymbolicExpr) : e.mul (const 1) = e := by
  rw [mul_const, mulConst_one]

theorem wf_add (hl : l.Wf pos ρ) (hr : r.Wf pos ρ) : (l.add r).Wf pos ρ :=
  wf_createBinaryOp ⟨hl, hr, .of_not_isDivision rfl⟩

theorem wf_mul (hl : l.Wf pos ρ) (hr : r.Wf pos ρ) : (l.mul r).Wf pos ρ :=
  wf_createBinaryOp ⟨hl, hr, .of_not_isDivision rfl⟩

theorem wf_mod (hl : l.Wf pos ρ) (hc : DivisorOk pos ρ .mod (const c)) :
    (l.mod (const c)).Wf pos ρ := by
  simp only [mod]
  split <;> [trivial; exact wf_createBinaryOp ⟨hl, trivial, hc⟩]

theorem wf_floorDiv (hl : l.Wf pos ρ) (hc : DivisorOk pos ρ .floorDiv (const c)) :
    (l.floorDiv (const c)).Wf pos ρ := by
  simp only [floorDiv]
  split <;> [exact hl; exact wf_createBinaryOp ⟨hl, trivial, hc⟩]

theorem wf_ceilDiv (hl : l.Wf pos ρ) (hc : DivisorOk pos ρ .ceilDiv (const c)) :
    (l.ceilDiv (const c)).Wf pos ρ := by
  simp only [ceilDiv]
  split <;> [exact hl; exact wf_createBinaryOp ⟨hl, trivial, hc⟩]

end Operators

end SymbolicExpr
end Symbolic

namespace Symbolic.SymbolicExpr

variable {ρ : Nat → Int}

theorem eval_congr {ρ ρ' : Nat → Int} (e : SymbolicExpr) (h : ∀ id, ρ id = ρ' id) :
    e.eval ρ = e.eval ρ' :=
  congrArg (e.eval ·) (funext h)

-- The operands of an operation are only rebuilt if one of them has changed.
theorem eval_rebuild (l' r' : SymbolicExpr) :
    (if l' = l ∧ r' = r then binary op l r else createBinaryOp op l' r').eval ρ =
      op.eval (l'.eval ρ) (r'.eval ρ) := by
  split
  case isTrue h  => rw [h.1, h.2, eval_binary]
  case isFalse _ => rw [eval_createBinaryOp]

theorem eval_replaceVariables (σ : List (Option SymbolicExpr)) (e : SymbolicExpr) :
    (e.replaceVariables σ).eval ρ = e.eval fun id => ((var id).replaceVariables σ).eval ρ := by
  induction e
  case var   => rfl
  case const => rfl
  case binary op l r hl hr => rw [replaceVariables, eval_rebuild, hl, hr, eval_binary]

-- Only variables are replaced.
def ReplacesVars (σ : List (SymbolicExpr × SymbolicExpr)) : Prop :=
  ∀ e e', σ.lookup e = some e' → ∃ id, e = var id

theorem eval_replace (h : ReplacesVars σ) (e : SymbolicExpr) :
    (e.replace σ).eval ρ = e.eval fun id => ((var id).replace σ).eval ρ := by
  have hn {e} (he : ∀ id, e ≠ var id) : σ.lookup e = none := by
    by_contra hc
    obtain ⟨e', he'⟩ := Option.ne_none_iff_exists'.mp hc
    obtain ⟨id, rfl⟩ := h e e' he'
    exact he id rfl
  induction e
  case var => rfl
  case const v => rw [replace, hn (by simp)]; rfl
  case binary op l r hl hr =>
    rw [replace, hn (by simp)]
    rw [eval_rebuild, hl, hr, eval_binary]

section UsedVariables

variable {l r e : SymbolicExpr} {id n : Nat}

theorem usedVariables_mulConst (h : id ∈ (e.mulConst c).usedVariables) : id ∈ e.usedVariables := by
  induction e generalizing c
  case const => simp [mulConst, usedVariables] at h
  case var =>
    simp only [mulConst] at h
    split_ifs at h
    case pos => simp [usedVariables] at h
    case pos => exact h
    case neg => simpa [usedVariables] using h
  case binary op l r hl _ =>
    obtain ⟨_, he, _⟩ | ⟨_, he⟩ | ⟨_, he⟩ | ⟨_, _, he, hc⟩ | ⟨_, _, he⟩ := mulConst_cases (binary op l r) c
    case inl             => contradiction
    case inr.inl         => simp [he, usedVariables] at h
    case inr.inr.inl     => rwa [he] at h
    case inr.inr.inr.inl =>
      cases he
      rw [hc] at h
      exact List.mem_append_left _ (hl h)
    case inr.inr.inr.inr =>
      rw [he] at h
      simpa [usedVariables] using h

theorem Created.usedVariables (hc : Created op l r e) (h : id ∈ e.usedVariables) :
    id ∈ l.usedVariables ∨ id ∈ r.usedVariables := by
  cases hc
  case raw      => exact List.mem_append.mp h
  case swapped  => exact (List.mem_append.mp h).symm
  case fold     => simp [SymbolicExpr.usedVariables] at h
  case left     => exact .inl h
  case right    => exact .inr h
  case mulConst => exact .inl (usedVariables_mulConst h)
  case constMul => exact .inr (usedVariables_mulConst h)

-- The variables of a substitution are the variables of the expressions that are substituted.
theorem usedVariables_replaceVariables {σ : List (Option SymbolicExpr)}
    (h : id ∈ (e.replaceVariables σ).usedVariables) :
    ∃ id' ∈ e.usedVariables, id ∈ ((var id').replaceVariables σ).usedVariables := by
  induction e
  case const => simp [replaceVariables, usedVariables] at h
  case var id' => exact ⟨id', by simp [usedVariables], h⟩
  case binary op l r hl hr =>
    have hlr : id ∈ (l.replaceVariables σ).usedVariables ∨ id ∈ (r.replaceVariables σ).usedVariables := by
      rw [replaceVariables] at h
      split at h
      case isTrue hs =>
        rw [hs.1, hs.2]
        exact List.mem_append.mp h
      case isFalse => exact (createBinaryOp_cases ..).usedVariables h
    cases hlr
    case inl h =>
      obtain ⟨id', hid', h⟩ := hl h
      exact ⟨id', List.mem_append_left _ hid', h⟩
    case inr h =>
      obtain ⟨id', hid', h⟩ := hr h
      exact ⟨id', List.mem_append_right _ hid', h⟩

theorem eval_congr_used {ρ ρ' : Nat → Int} (h : ∀ id ∈ e.usedVariables, ρ id = ρ' id) :
    e.eval ρ = e.eval ρ' := by
  induction e
  case const => rfl
  case var id => exact h id (by simp [usedVariables])
  case binary op l r hl hr =>
    rw [eval_binary, eval_binary, hl fun id hid => h id (List.mem_append_left _ hid),
      hr fun id hid => h id (List.mem_append_right _ hid)]

end UsedVariables
end Symbolic.SymbolicExpr
