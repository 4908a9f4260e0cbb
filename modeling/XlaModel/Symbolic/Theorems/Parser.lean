import XlaModel.Lib.Fallible
import XlaModel.Symbolic.Grammar

namespace Symbolic

open Coordination ExprParser Fallible Span
open Bytes (isSpace)

variable {p : ExprParser E} {s s' rest ws : Bytes} {e : E}

section Tokens

theorem skipWhitespace_append (hw : Blank ws) (hs : Stops isSpace s) : skipWhitespace (ws ++ s) = s :=
  dropWhile_eq_iff.mpr ⟨ws, rfl, hw, hs⟩

theorem exists_skipWhitespace (s : Bytes) :
    ∃ ws, s = ws ++ skipWhitespace s ∧ Blank ws ∧ Stops isSpace (skipWhitespace s) :=
  have h := splits_takeWhile isSpace s
  ⟨_, h.append, h.all, h.stops⟩

theorem consumePrefix_eq_some : consumePrefix word s = some s' ↔ s = word.toList ++ s' := by
  simp [consumePrefix, List.dropPrefix?_eq_some_iff]

theorem consumePrefix_eq_none : consumePrefix word s = none ↔ ¬word.toList <+: s := by
  simp [Option.eq_none_iff_forall_not_mem, consumePrefix_eq_some, List.IsPrefix, eq_comm (a := s)]

-- No operator of a level begins with another one.
theorem Level.operators_prefix {level : Level} :
    ∀ o ∈ level.operators, ∀ o' ∈ level.operators, o.1.toList <+: o'.1.toList → o = o' := by
  cases level
  case sum =>
    change ∀ o ∈ expressionOperators, ∀ o' ∈ expressionOperators, o.1.toList <+: o'.1.toList → o = o'
    decide
  case product =>
    change ∀ o ∈ termOperators, ∀ o' ∈ termOperators, o.1.toList <+: o'.1.toList → o = o'
    decide

theorem consumeOperator_eq_none : consumeOperator os s = none ↔ ∀ o ∈ os, ¬o.1.toList <+: s := by
  simp [consumeOperator, consumePrefix_eq_none]

theorem eq_append_of_consumeOperator (h : consumeOperator os s = some (op, s')) :
    ∃ word, (word, op) ∈ os ∧ s = word.toList ++ s' := by
  obtain ⟨o, ho, h⟩ := List.exists_of_findSome?_eq_some h
  obtain ⟨_, hs, he⟩ := Option.map_eq_some_iff.mp h
  cases he
  exact ⟨o.1, ho, consumePrefix_eq_some.mp hs⟩

theorem consumeOperator_append {level : Level} (ho : (word, op) ∈ level.operators) :
    consumeOperator level.operators (word.toList ++ s) = some (op, s) := by
  cases h : consumeOperator level.operators (word.toList ++ s)
  case none => exact absurd (List.prefix_append ..) (consumeOperator_eq_none.mp h _ ho)
  case some r =>
    obtain ⟨op', s'⟩ := r
    obtain ⟨word', ho', hs⟩ := eq_append_of_consumeOperator h
    have hw : word.toList <+: word'.toList ∨ word'.toList <+: word.toList :=
      List.prefix_or_prefix_of_prefix ⟨s, rfl⟩ ⟨s', hs.symm⟩
    have he : (word, op) = (word', op') :=
      hw.elim (Level.operators_prefix _ ho _ ho') fun hp => (Level.operators_prefix _ ho' _ ho hp).symm
    cases he
    rw [List.append_cancel_left hs]

theorem parseNumber_eq_some : parseNumber s = some (v, rest) ↔ Number s v rest := by
  rw [parseNumber]
  constructor
  case mp =>
    cases s
    case nil => simp [numberPrefix]
    case cons c s =>
      by_cases hc : c.isDigit
      case pos =>
        have hn : numberPrefix (c :: s) = (c :: s).takeWhile Char.isDigit := by
          rw [numberPrefix, if_pos (Or.inl hc), List.takeWhile_cons_of_pos hc]
        rw [hn]
        intro h
        split_ifs at h with hd
        obtain ⟨_, hv, he⟩ := Option.map_eq_some_iff.mp h
        cases he
        exact .unsigned (splits_iff.mpr ⟨rfl, rfl⟩) hd hv
      case neg =>
        by_cases hm : c = '-'
        case pos =>
          subst hm
          rw [numberPrefix, if_pos (Or.inr rfl), if_neg (List.cons_ne_nil _ _)]
          intro h
          obtain ⟨_, hv, he⟩ := Option.map_eq_some_iff.mp h
          cases he
          exact .negative (splits_iff.mpr ⟨rfl, rfl⟩) hv
        case neg => simp [numberPrefix, hc, hm]
  case mpr =>
    intro h
    cases h
    case unsigned ds hd hv hs =>
      have hn : numberPrefix s = ds := by
        cases ds
        case nil => exact absurd rfl hd
        case cons c ds =>
          obtain rfl := hs.append
          have hc : c.isDigit := hs.all c (.head _)
          rw [List.cons_append, numberPrefix, if_pos (Or.inl hc), ← List.takeWhile_cons_of_pos hc]
          exact hs.takeWhile
      simp [hn, hd, hv, hs.drop]
    case negative s ds hv hs =>
      have hn : numberPrefix ('-' :: s) = '-' :: ds := by
        rw [numberPrefix, if_pos (Or.inr rfl), hs.takeWhile]
      simp [hn, hv, hs.drop]

theorem maybeParseVariableFromMap_eq_some : p.maybeParseVariableFromMap s = some (e, rest) ↔ Mapped p s e rest := by
  constructor
  case mp =>
    intro h
    obtain ⟨m, hm, h⟩ := Option.bind_eq_some_iff.mp h
    dsimp only at h
    split at h
    case isTrue => contradiction
    case isFalse hn =>
      obtain ⟨_, hl, he⟩ := Option.map_eq_some_iff.mp h
      cases he
      exact ⟨hm, hn, splits_iff.mpr ⟨rfl, rfl⟩, hl⟩
  case mpr =>
    rintro ⟨hm, hn, hs, hl⟩
    simp [maybeParseVariableFromMap, hm, hs.takeWhile, hs.drop, hn, hl]

theorem maybeParseVariableFromMap_eq_none : p.maybeParseVariableFromMap s = none ↔ Unmapped p s := by
  simp [Option.eq_none_iff_forall_not_mem, maybeParseVariableFromMap_eq_some, Unmapped]

theorem Number.ne_letter (h : Number (c :: s) v rest) : c ≠ 'v' ∧ c ≠ 'd' ∧ c ≠ 's' := by
  cases h
  case unsigned ds hd _ hs =>
    cases ds
    case nil => exact absurd rfl hd
    case cons c' ds =>
      obtain ⟨rfl, -⟩ := List.cons.inj hs.append
      have := hs.all c (.head _)
      refine ⟨?_, ?_, ?_⟩ <;> rintro rfl <;> exact absurd this (by decide)
  case negative => decide

theorem Mapped.unique (h : Mapped p s e rest) (h' : Mapped p s e' rest') : e = e' ∧ rest = rest' := by
  have he := (maybeParseVariableFromMap_eq_some.mpr h).symm.trans (maybeParseVariableFromMap_eq_some.mpr h')
  simpa using he

theorem parseVariable_eq_ok :
    p.parseVariable s = .ok (e, rest) ↔ ∃ varId, Number s varId rest ∧ e = p.builder.createVariable varId := by
  rw [parseVariable]
  simp only [← parseNumber_eq_some]
  cases parseNumber s <;> grind

theorem parseSymbol_eq_ok : p.parseSymbol s = .ok (e, rest) ↔
    ∃ n symId, p.numDims = some n ∧ Number s symId rest ∧ e = p.builder.createVariable (n + symId) := by
  rw [parseSymbol]
  simp only [← parseNumber_eq_some]
  cases p.numDims <;> cases parseNumber s <;> grind

theorem parseConstant_eq_ok :
    p.parseConstant s = .ok (e, rest) ↔ ∃ v, Number s v rest ∧ e = p.builder.createConstant v := by
  rw [parseConstant]
  simp only [← parseNumber_eq_some]
  cases parseNumber s <;> grind

theorem atom_iff (hu : Unmapped p s) : Atom p s e rest ↔
    (∃ c s' varId, s = c :: s' ∧ (c = 'v' ∨ c = 'd') ∧ Number s' varId rest ∧ e = p.builder.createVariable varId) ∨
    (∃ s' n symId, s = 's' :: s' ∧ p.numDims = some n ∧ Number s' symId rest ∧
      e = p.builder.createVariable (n + symId)) ∨
    ∃ v, Number s v rest ∧ e = p.builder.createConstant v := by
  constructor
  case mp =>
    intro h
    cases h
    case mapped h        => exact absurd h (hu _ _)
    case numbered hc _ h => exact .inl ⟨_, _, _, rfl, hc, h, rfl⟩
    case symbol hn h     => exact .inr <| .inl ⟨_, _, _, rfl, hn, h, rfl⟩
    case constant h      => exact .inr <| .inr ⟨_, h, rfl⟩
  case mpr =>
    rintro (⟨c, s', varId, rfl, hc, h, rfl⟩ | ⟨s', n, symId, rfl, hn, h, rfl⟩ | ⟨v, h, rfl⟩)
    case inl     => exact .numbered hc hu h
    case inr.inl => exact .symbol hu hn h
    case inr.inr => exact .constant hu h

theorem parseAtom_eq_ok : p.parseAtom s = .ok (e, rest) ↔ Atom p s e rest := by
  unfold parseAtom
  split
  case h_1 r hm =>
    have hm := maybeParseVariableFromMap_eq_some.mp hm
    constructor
    case mp =>
      intro h
      cases h
      exact .mapped hm
    case mpr =>
      intro h
      cases h
      case mapped h => rw [Except.ok.injEq, Prod.ext_iff]; exact hm.unique h
      case numbered => exact absurd hm (‹Unmapped p _› _ _)
      case symbol   => exact absurd hm (‹Unmapped p _› _ _)
      case constant => exact absurd hm (‹Unmapped p _› _ _)
  case h_2 hm =>
    rw [atom_iff <| maybeParseVariableFromMap_eq_none.mp hm]
    split
    case h_1 s =>
      rw [parseVariable_eq_ok]
      grind [Number.ne_letter]
    case h_2 s =>
      rw [parseVariable_eq_ok]
      grind [Number.ne_letter]
    case h_3 s =>
      rw [parseSymbol_eq_ok]
      grind [Number.ne_letter]
    case h_4 =>
      rw [parseConstant_eq_ok]
      grind

theorem isSpace_eq_false (h : isIdentifierCharacter c ∨ c = '-') : isSpace c = false := by
  by_contra hs
  rw [Bool.not_eq_false, isSpace, decide_eq_true_iff] at hs
  simp only [List.mem_cons, List.not_mem_nil, or_false] at hs
  obtain rfl | rfl | rfl | rfl | rfl | rfl := hs <;> exact absurd h (by decide)

theorem Number.head (h : Number s v rest) : ∃ c s', s = c :: s' ∧ (isIdentifierCharacter c ∨ c = '-') := by
  cases h
  case unsigned ds hd _ hs =>
    obtain ⟨c, cs, rfl⟩ := List.exists_cons_of_ne_nil hd
    have hc : c.isDigit := hs.all c (.head _)
    exact ⟨c, _, hs.append, .inl (by simp [isIdentifierCharacter, Char.isAlphanum, hc])⟩
  case negative => exact ⟨_, _, rfl, .inr rfl⟩

theorem Atom.head (h : Atom p s e rest) : ∃ c s', s = c :: s' ∧ (isIdentifierCharacter c ∨ c = '-') := by
  cases h
  case mapped h =>
    obtain ⟨-, hn, hs, -⟩ := h
    obtain ⟨c, cs, rfl⟩ := List.exists_cons_of_ne_nil hn
    exact ⟨c, _, hs.append, .inl (hs.all c (.head _))⟩
  case numbered hc _ _ => exact ⟨_, _, rfl, .inl (by obtain rfl | rfl := hc <;> decide)⟩
  case symbol          => exact ⟨_, _, rfl, .inl (by decide)⟩
  case constant h      => exact h.head

theorem Number.length_lt (h : Number s v rest) : rest.length < s.length := by
  cases h
  case unsigned hd _ hs => exact hs.length_lt hd
  case negative _ hs    => exact Nat.lt_succ_of_le hs.length_le

theorem Atom.length_lt (h : Atom p s e rest) : rest.length < s.length := by
  cases h
  case mapped h =>
    obtain ⟨-, hn, hs, -⟩ := h
    exact hs.length_lt hn
  case numbered h => exact Nat.lt_succ_of_lt h.length_lt
  case symbol h   => exact Nat.lt_succ_of_lt h.length_lt
  case constant h => exact h.length_lt

end Tokens

section Steps

variable {f : Bytes → Parsed (E × Bytes)} {level : Level}

theorem built_eq_ok {e? : Option E} : built e? = .ok e ↔ e? = some e := by
  cases e? <;> simp [built]

theorem expect_eq_ok : expect word message s = .ok s' ↔ skipWhitespace s = word.toList ++ s' := by
  rw [expect, ← consumePrefix_eq_some]
  cases h : consumePrefix word (skipWhitespace s) <;> simp

theorem parseOperations_succ : p.parseOperations f os (n + 1) lhs s = .ok (e, rest) ↔
    (consumeOperator os (skipWhitespace s) = none ∧ lhs = e ∧ skipWhitespace s = rest) ∨
      ∃ op s₁ rhs s₂ lhs', consumeOperator os (skipWhitespace s) = some (op, s₁) ∧ f s₁ = .ok (rhs, s₂) ∧
        op.apply p.builder lhs rhs = some lhs' ∧ p.parseOperations f os n lhs' s₂ = .ok (e, rest) := by
  rw [parseOperations]
  cases h : consumeOperator os (skipWhitespace s)
  case none => simp
  case some r =>
    simp only [bind_eq_ok, built_eq_ok]
    constructor
    case mp =>
      rintro ⟨⟨rhs, s₂⟩, hf, lhs', hb, hr⟩
      exact .inr ⟨_, _, rhs, s₂, lhs', rfl, hf, hb, hr⟩
    case mpr =>
      rintro (h | ⟨op, s₁, rhs, s₂, lhs', he, hf, hb, hr⟩)
      case inl => exact absurd h.1 (by simp)
      case inr =>
        cases he
        exact ⟨(rhs, s₂), hf, lhs', hb, hr⟩

def Level.parseOperand (p : ExprParser E) (f : Bytes → Parsed (E × Bytes)) : Level → Bytes → Parsed (E × Bytes)
  | sum     => p.parseTerm f
  | product => f

def Level.parse (p : ExprParser E) (f : Bytes → Parsed (E × Bytes)) : Level → Bytes → Parsed (E × Bytes)
  | sum     => p.parseExpression f
  | product => p.parseTerm f

theorem Level.parse_eq_ok : level.parse p f s = .ok (e, rest) ↔
    ∃ lhs s₁, level.parseOperand p f s = .ok (lhs, s₁) ∧
      p.parseOperations (level.parseOperand p f) level.operators (s₁.length + 1) lhs s₁ = .ok (e, rest) := by
  cases level
  case sum =>
    rw [Level.parse, parseExpression, bind_eq_ok, Prod.exists]
    rfl
  case product =>
    rw [Level.parse, parseTerm, bind_eq_ok, Prod.exists]
    rfl

theorem parseBinaryFunction_eq_ok : p.parseBinaryFunction f op name s = .ok (e, rest) ↔
    ∃ lhs s₁ s₂ rhs s₃, p.parseExpression f s = .ok (lhs, s₁) ∧ skipWhitespace s₁ = ',' :: s₂ ∧
      p.parseExpression f s₂ = .ok (rhs, s₃) ∧ skipWhitespace s₃ = ')' :: rest ∧
      p.builder.createBinaryOp op lhs rhs = some e := by
  simp only [parseBinaryFunction, bind_eq_ok, Prod.exists, expect_eq_ok, built_eq_ok, pure, Except.pure, Except.ok.injEq,
    Prod.mk.injEq]
  constructor
  case mp =>
    rintro ⟨lhs, s₁, hl, s₂, hc, rhs, s₃, hr, s₄, hp, e', hb, rfl, rfl⟩
    exact ⟨lhs, s₁, s₂, rhs, s₃, hl, hc, hr, hp, hb⟩
  case mpr =>
    rintro ⟨lhs, s₁, s₂, rhs, s₃, hl, hc, hr, hp, hb⟩
    exact ⟨lhs, s₁, hl, s₂, hc, rhs, s₃, hr, rest, hp, e, hb, rfl, rfl⟩

theorem parseFactorWith_nil (h : skipWhitespace s = []) :
    p.parseFactorWith f s = .error (.reported "Unexpected end of expression" []) := by
  rw [parseFactorWith, h]
  rfl

theorem parseFactorWith_negation (h : skipWhitespace s = '-' :: s') : p.parseFactorWith f s = .ok (e, rest) ↔
    ∃ e', f s' = .ok (e', rest) ∧ p.builder.neg e' = some e := by
  have hs : consumePrefix "-" ('-' :: s') = some s' := consumePrefix_eq_some.mpr rfl
  rw [parseFactorWith, h, if_neg (by simp)]
  simp only [hs, bind_eq_ok, built_eq_ok, Prod.exists, pure, Except.pure, Except.ok.injEq, Prod.mk.injEq]
  constructor
  case mp =>
    rintro ⟨e', _, hf, _, hb, rfl, rfl⟩
    exact ⟨e', hf, hb⟩
  case mpr =>
    rintro ⟨e', hf, hb⟩
    exact ⟨e', rest, hf, e, hb, rfl, rfl⟩

theorem parseFactorWith_function (hf : (name, op) ∈ functions) (h : skipWhitespace s = (name ++ "(").toList ++ s') :
    p.parseFactorWith f s = p.parseBinaryFunction f op name s' := by
  simp only [functions, List.mem_cons, Prod.mk.injEq, List.not_mem_nil, or_false] at hf
  obtain ⟨rfl, rfl⟩ | ⟨rfl, rfl⟩ := hf
  case inl =>
    have hs : consumePrefix "max(" (("max" ++ "(").toList ++ s') = some s' := consumePrefix_eq_some.mpr rfl
    have hm : consumePrefix "-" (("max" ++ "(").toList ++ s') = none := consumePrefix_eq_none.mpr (by simp)
    rw [parseFactorWith, h, if_neg (by simp)]
    simp only [hs, hm]
  case inr =>
    have hs : consumePrefix "min(" (("min" ++ "(").toList ++ s') = some s' := consumePrefix_eq_some.mpr rfl
    have hm : consumePrefix "-" (("min" ++ "(").toList ++ s') = none := consumePrefix_eq_none.mpr (by simp)
    have hx : consumePrefix "max(" (("min" ++ "(").toList ++ s') = none := consumePrefix_eq_none.mpr (by simp)
    rw [parseFactorWith, h, if_neg (by simp)]
    simp only [hs, hm, hx]

theorem parseFactorWith_parentheses (h : skipWhitespace s = '(' :: s') : p.parseFactorWith f s = .ok (e, rest) ↔
    ∃ s₁, p.parseExpression f s' = .ok (e, s₁) ∧ skipWhitespace s₁ = ')' :: rest := by
  have hs : consumePrefix "(" ('(' :: s') = some s' := consumePrefix_eq_some.mpr rfl
  have hn : ∀ word ∈ ["-", "max(", "min("], consumePrefix word ('(' :: s') = none := by
    intro word hw
    rw [consumePrefix_eq_none]
    simp only [List.mem_cons, List.not_mem_nil, or_false] at hw
    obtain rfl | rfl | rfl := hw <;> simp
  simp only [List.forall_mem_cons] at hn
  rw [parseFactorWith, h, if_neg (by simp)]
  simp only [hn, hs, bind_eq_ok, expect_eq_ok, Prod.exists, pure, Except.pure, Except.ok.injEq, Prod.mk.injEq]
  constructor
  case mp =>
    rintro ⟨e', s₁, he, _, hp, rfl, rfl⟩
    exact ⟨s₁, he, hp⟩
  case mpr =>
    rintro ⟨s₁, he, hp⟩
    exact ⟨e, s₁, he, rest, hp, rfl, rfl⟩

theorem parseFactorWith_atom (hn : skipWhitespace s ≠ [])
    (h : ∀ word ∈ ["-", "max(", "min(", "("], ¬word.toList <+: skipWhitespace s) :
    p.parseFactorWith f s = p.parseAtom (skipWhitespace s) := by
  simp only [← consumePrefix_eq_none, List.forall_mem_cons] at h
  simp [parseFactorWith, hn, h]

-- A factor is parsed as what its first characters tell.
theorem parseFactorWith_cases (s : Bytes) :
    skipWhitespace s = [] ∨ (∃ s', skipWhitespace s = '-' :: s') ∨
      (∃ name op s', (name, op) ∈ functions ∧ skipWhitespace s = (name ++ "(").toList ++ s') ∨
      (∃ s', skipWhitespace s = '(' :: s') ∨
      skipWhitespace s ≠ [] ∧ ∀ word ∈ ["-", "max(", "min(", "("], ¬word.toList <+: skipWhitespace s := by
  by_cases hn : skipWhitespace s = []
  case pos => exact .inl hn
  case neg =>
    by_cases h : ∀ word ∈ ["-", "max(", "min(", "("], ¬word.toList <+: skipWhitespace s
    case pos => exact .inr <| .inr <| .inr <| .inr ⟨hn, h⟩
    case neg =>
      push Not at h
      obtain ⟨word, hw, t, ht⟩ := h
      simp only [List.mem_cons, List.not_mem_nil, or_false] at hw
      obtain rfl | rfl | rfl | rfl := hw
      · exact .inr <| .inl ⟨t, ht.symm⟩
      · exact .inr <| .inr <| .inl ⟨"max", .max, t, by decide, ht.symm⟩
      · exact .inr <| .inr <| .inl ⟨"min", .min, t, by decide, ht.symm⟩
      · exact .inr <| .inr <| .inr <| .inl ⟨t, ht.symm⟩

end Steps

section Derivations

-- Whitespace that follows an expression or a term belongs to it.
theorem Derives.stops {nt : Nonterminal E} (h : Derives p nt s e rest) (hn : nt ≠ .factor) : Stops isSpace rest := by
  induction h
  case stop hs _         => exact hs
  case chain hi          => exact hi nofun
  case operation hi      => exact hi nofun
  case atom              => exact absurd rfl hn
  case negation          => exact absurd rfl hn
  case function          => exact absurd rfl hn
  case parentheses       => exact absurd rfl hn

theorem Derives.skipWhitespace_rest {level : Level} (h : Derives p (.chain level) s e rest) :
    skipWhitespace rest = rest :=
  skipWhitespace_append (by simp [Blank] : Blank []) (h.stops nofun)

-- The number of characters that are at least consumed.
def Nonterminal.consumed : Nonterminal E → Nat
  | operations _ _ => 0
  | factor         => 1
  | chain _        => 1

@[simp]
theorem Nonterminal.consumed_operations : (operations level lhs : Nonterminal E).consumed = 0 :=
  rfl

@[simp]
theorem Nonterminal.consumed_factor : (factor : Nonterminal E).consumed = 1 :=
  rfl

@[simp]
theorem Nonterminal.consumed_chain : (chain level : Nonterminal E).consumed = 1 :=
  rfl

@[simp]
theorem Level.consumed_operand (level : Level) : (level.operand : Nonterminal E).consumed = 1 := by
  cases level <;> rfl

theorem Derives.length {nt : Nonterminal E} (h : Derives p nt s e rest) : rest.length + nt.consumed ≤ s.length := by
  induction h
  case atom h =>
    have : _ < _ := h.length_lt
    simp only [Nonterminal.consumed_factor, List.length_append]
    omega
  case negation hi =>
    simp only [Nonterminal.consumed_factor, List.length_append, List.length_cons] at hi ⊢
    omega
  case function hl hr =>
    simp only [Nonterminal.consumed_factor, Nonterminal.consumed_chain, List.length_append, List.length_cons] at hl hr ⊢
    omega
  case parentheses hi =>
    simp only [Nonterminal.consumed_factor, Nonterminal.consumed_chain, List.length_append, List.length_cons] at hi ⊢
    omega
  case chain hi hr =>
    simp only [Level.consumed_operand, Nonterminal.consumed_operations, Nonterminal.consumed_chain] at hi hr ⊢
    omega
  case stop =>
    simp only [Nonterminal.consumed_operations, List.length_append]
    omega
  case operation hi hr =>
    simp only [Level.consumed_operand, Nonterminal.consumed_operations, List.length_append] at hi hr ⊢
    omega

theorem Derives.length_lt {nt : Nonterminal E} (h : Derives p nt s e rest) (hn : nt.consumed = 1) :
    rest.length < s.length := by
  have := h.length
  omega

end Derivations

section Soundness

-- The results of a function are derivations.
def Sound (p : ExprParser E) (f : Bytes → Parsed (E × Bytes)) (nt : Nonterminal E) : Prop :=
  ∀ s e rest, f s = .ok (e, rest) → Derives p nt s e rest

variable {f : Bytes → Parsed (E × Bytes)} {level : Level}

theorem parseOperations_sound (hf : Sound p f level.operand)
    (h : p.parseOperations f level.operators n lhs s = .ok (e, rest)) :
    Derives p (.operations level lhs) s e rest := by
  induction n generalizing lhs s
  case zero => cases h
  case succ n hi =>
    obtain ⟨ws, hs, hw, hstop⟩ := exists_skipWhitespace s
    rw [hs]
    obtain ⟨hn, rfl, rfl⟩ | ⟨op, s₁, rhs, s₂, lhs', ho, ho', hb, hr⟩ := parseOperations_succ.mp h
    case inl => exact .stop hw hstop <| consumeOperator_eq_none.mp hn
    case inr =>
      obtain ⟨word, hmem, hs₁⟩ := eq_append_of_consumeOperator ho
      rw [hs₁]
      exact .operation hw hmem (hf _ _ _ ho') hb (hi hr)

theorem Level.parse_sound (level : Level) (hf : Sound p (level.parseOperand p f) level.operand) :
    Sound p (level.parse p f) (.chain level) := by
  intro s e rest h
  obtain ⟨lhs, s₁, ho, hr⟩ := Level.parse_eq_ok.mp h
  exact .chain (hf _ _ _ ho) (parseOperations_sound hf hr)

theorem parseExpression_sound (hf : Sound p f .factor) : Sound p (p.parseExpression f) (.chain .sum) :=
  Level.parse_sound .sum <| Level.parse_sound .product hf

theorem parseFactorWith_sound (hf : Sound p f .factor) : Sound p (p.parseFactorWith f) .factor := by
  have he := parseExpression_sound hf
  intro s e rest h
  obtain ⟨ws, hs, hw, hstop⟩ := exists_skipWhitespace s
  obtain hn | ⟨s', hm⟩ | ⟨name, op, s', hmem, hm⟩ | ⟨s', hm⟩ | ⟨hn, hp⟩ := parseFactorWith_cases s
  case inl => cases (parseFactorWith_nil hn).symm.trans h
  case inr.inl =>
    obtain ⟨e', hf', hb⟩ := (parseFactorWith_negation hm).mp h
    rw [hs, hm]
    exact .negation hw (hf _ _ _ hf') hb
  case inr.inr.inl =>
    rw [parseFactorWith_function hmem hm] at h
    obtain ⟨lhs, s₁, s₂, rhs, s₃, hl, hc, hr, hp, hb⟩ := parseBinaryFunction_eq_ok.mp h
    have hl := he _ _ _ hl
    have hr := he _ _ _ hr
    rw [← hl.skipWhitespace_rest, hc] at hl
    rw [← hr.skipWhitespace_rest, hp] at hr
    rw [hs, hm]
    exact .function hw hmem hl hr hb
  case inr.inr.inr.inl =>
    obtain ⟨s₁, he', hp⟩ := (parseFactorWith_parentheses hm).mp h
    have he := he _ _ _ he'
    rw [← he.skipWhitespace_rest, hp] at he
    rw [hs, hm]
    exact .parentheses hw he
  case inr.inr.inr.inr =>
    rw [parseFactorWith_atom hn hp, parseAtom_eq_ok] at h
    rw [hs]
    exact .atom hw (fun word hw => hp word (by grind)) h

theorem parseFactor_sound (n : Nat) : Sound p (p.parseFactor n) .factor := by
  induction n
  case zero      => exact fun _ _ _ h => by cases h
  case succ n hi => exact parseFactorWith_sound hi

end Soundness

section Completeness

-- The function for the nonterminal returns what is derived, provided that there is enough fuel.
def Accepts (p : ExprParser E) : Nonterminal E → Bytes → E → Bytes → Prop
  | .factor,                s, e, rest => ∀ n > s.length, p.parseFactor n s = .ok (e, rest)
  | .chain level,           s, e, rest => ∀ n > s.length, level.parse p (p.parseFactor n) s = .ok (e, rest)
  | .operations level lhs, s, e, rest =>
    ∀ n > s.length, ∀ k > s.length,
      p.parseOperations (level.parseOperand p (p.parseFactor n)) level.operators k lhs s = .ok (e, rest)

theorem Accepts.operand {level : Level} (h : Accepts p level.operand s e rest) (hn : n > s.length) :
    level.parseOperand p (p.parseFactor n) s = .ok (e, rest) := by
  cases level
  case sum     => exact h n hn
  case product => exact h n hn

theorem skipWhitespace_append_cons (hw : Blank ws) (hc : isSpace c = false) : skipWhitespace (ws ++ c :: s) = c :: s :=
  skipWhitespace_append hw <| stops_cons.mpr hc

theorem stops_function (hf : (name, op) ∈ functions) : Stops isSpace ((name ++ "(").toList ++ s) := by
  simp only [functions, List.mem_cons, Prod.mk.injEq, List.not_mem_nil, or_false] at hf
  obtain ⟨rfl, rfl⟩ | ⟨rfl, rfl⟩ := hf <;> simp [stops_cons] <;> rfl

theorem stops_operator {level : Level} (ho : (word, op) ∈ level.operators) : Stops isSpace (word.toList ++ s) := by
  have hw : ∀ o ∈ level.operators, ∃ c cs, o.1.toList = c :: cs ∧ isSpace c = false := by
    cases level
    case sum     => simp [Level.operators, expressionOperators]; decide
    case product => simp [Level.operators, termOperators]; decide
  obtain ⟨c, cs, hc, hs⟩ := hw _ ho
  rw [hc]
  exact stops_cons.mpr hs

theorem Derives.accepts {nt : Nonterminal E} (h : Derives p nt s e rest) : Accepts p nt s e rest := by
  induction h
  case atom ws s e rest hw hp h =>
    intro n hn
    obtain ⟨c, s', rfl, hc⟩ := h.head
    have hs := skipWhitespace_append_cons (s := s') hw (isSpace_eq_false hc)
    have hp : ∀ word ∈ ["-", "max(", "min(", "("], ¬word.toList <+: c :: s' := by
      intro word hw
      obtain hw | rfl : word ∈ ["-", "max(", "min("] ∨ word = "(" := by
        simpa [or_assoc] using hw
      case inl => exact hp word hw
      case inr =>
        intro hpre
        obtain rfl : '(' = c := (List.cons_prefix_cons.mp hpre).1
        exact absurd hc (by decide)
    cases n
    case zero   => cases hn
    case succ n =>
      rw [← hs] at hp h
      rw [parseFactor, parseFactorWith_atom (by simp [hs]) hp, parseAtom_eq_ok]
      exact h
  case negation hw h hb hi =>
    intro n hn
    cases n
    case zero   => cases hn
    case succ n =>
      rw [parseFactor, parseFactorWith_negation (skipWhitespace_append_cons hw rfl)]
      exact ⟨_, hi n (by simp at hn; omega), hb⟩
  case function hw hf hl hr hb hil hir =>
    intro n hn
    cases n
    case zero   => cases hn
    case succ n =>
      have hlen := hl.length_lt rfl
      simp only [String.toList_append, List.length_append, List.length_cons] at hlen hn
      have hpos : "(".toList.length = 1 := rfl
      rw [parseFactor]
      rw [parseFactorWith_function hf <| skipWhitespace_append hw (stops_function hf), parseBinaryFunction_eq_ok]
      exact ⟨_, _, _, _, _, hil n (by omega), hl.skipWhitespace_rest, hir n (by omega), hr.skipWhitespace_rest, hb⟩
  case parentheses hw h hi =>
    intro n hn
    cases n
    case zero   => cases hn
    case succ n =>
      rw [parseFactor, parseFactorWith_parentheses (skipWhitespace_append_cons hw rfl)]
      exact ⟨_, hi n (by simp at hn; omega), h.skipWhitespace_rest⟩
  case chain h hr hi hir =>
    intro n hn
    have := h.length_lt (Level.consumed_operand _)
    exact Level.parse_eq_ok.mpr ⟨_, _, hi.operand hn, hir n (by omega) _ (Nat.lt_succ_self _)⟩
  case stop hw hs ho =>
    intro n _ k hk
    cases k
    case zero   => cases hk
    case succ k =>
      rw [parseOperations_succ, skipWhitespace_append hw hs]
      exact .inl ⟨consumeOperator_eq_none.mpr ho, rfl, rfl⟩
  case operation hw ho h hb hr hi hir =>
    intro n hn k hk
    have hlen := h.length_lt (Level.consumed_operand _)
    simp only [List.length_append] at hn hk
    cases k
    case zero   => cases hk
    case succ k =>
      rw [parseOperations_succ, skipWhitespace_append hw (stops_operator ho), consumeOperator_append ho]
      exact .inr ⟨_, _, _, _, _, rfl, hi.operand (by omega), hb, hir n (by omega) k (by omega)⟩

-- The partial parser returns exactly the expressions that the string begins with.
theorem parsePartial_eq_ok : p.parsePartial s = .ok (e, rest) ↔ Derives p (.chain .sum) s e rest where
  mp h  := parseExpression_sound (parseFactor_sound _) s e rest h
  mpr h := h.accepts _ (Nat.lt_succ_self _)

-- The full parser returns exactly the expressions that the string consists of.
theorem parse_eq_ok : p.parse s = .ok e ↔ Derives p (.chain .sum) s e [] := by
  rw [parse, bind_eq_ok, Prod.exists]
  constructor
  case mp =>
    rintro ⟨e', rest, h, he⟩
    have h := parsePartial_eq_ok.mp h
    dsimp only at he
    rw [h.skipWhitespace_rest] at he
    split_ifs at he with hr
    cases he
    exact hr ▸ h
  case mpr =>
    intro h
    exact ⟨e, [], parsePartial_eq_ok.mpr h, rfl⟩

end Completeness

section Termination

variable {f : Bytes → Parsed (E × Bytes)} {level : Level} {N : Nat}

theorem bind_eq_error {x : Parsed α} {g : α → Parsed β} {err : ParseError} :
    x >>= g = .error err ↔ x = .error err ∨ ∃ a, x = .ok a ∧ g a = .error err := by
  cases x <;> simp [bind, Except.bind]

-- There is enough fuel for the strings that are shorter than `N`.
def Terminates (f : Bytes → Parsed (E × Bytes)) (N : Nat) : Prop :=
  ∀ s, s.length < N → f s ≠ .error .outOfFuel

theorem built_ne_outOfFuel {e? : Option E} : built e? ≠ .error .outOfFuel := by
  cases e? <;> simp [built]

theorem expect_ne_outOfFuel : expect word message s ≠ .error .outOfFuel := by
  rw [expect]
  cases consumePrefix word (skipWhitespace s) <;> simp

theorem length_skipWhitespace_le (s : Bytes) : (skipWhitespace s).length ≤ s.length :=
  (splits_takeWhile isSpace s).length_le

theorem parseOperations_terminates (hs : Sound p f level.operand) (ht : Terminates f N) (hl : s.length < N)
    (hk : s.length < k) : p.parseOperations f level.operators k lhs s ≠ .error .outOfFuel := by
  induction k generalizing lhs s
  case zero => cases hk
  case succ k hi =>
    rw [parseOperations]
    have hw := length_skipWhitespace_le s
    cases ho : consumeOperator level.operators (skipWhitespace s)
    case none => simp
    case some r =>
      obtain ⟨op, s₁⟩ := r
      obtain ⟨word, -, hs₁⟩ := eq_append_of_consumeOperator ho
      rw [hs₁, List.length_append] at hw
      simp only [ne_eq, bind_eq_error]
      rintro (hf | ⟨⟨rhs, s₂⟩, hf, hb | ⟨lhs', -, hr⟩⟩)
      case inl     => exact ht s₁ (by omega) hf
      case inr.inl => exact built_ne_outOfFuel hb
      case inr.inr =>
        have hlt : s₂.length < s₁.length := (hs _ _ _ hf).length_lt (Level.consumed_operand _)
        exact hi (by omega : s₂.length < N) (by omega : s₂.length < k) hr

theorem Level.parse_terminates (level : Level) (hs : Sound p (level.parseOperand p f) level.operand)
    (ht : Terminates (level.parseOperand p f) N) : Terminates (level.parse p f) N := by
  intro s hl
  have h : level.parse p f s = level.parseOperand p f s >>= fun r =>
      p.parseOperations (level.parseOperand p f) level.operators (r.2.length + 1) r.1 r.2 := by
    cases level <;> rfl
  rw [h, ne_eq, bind_eq_error]
  rintro (hf | ⟨⟨lhs, s₁⟩, hf, hr⟩)
  case inl => exact ht s hl hf
  case inr =>
    have hlt : s₁.length < s.length := (hs _ _ _ hf).length_lt (Level.consumed_operand _)
    exact parseOperations_terminates hs ht (hlt.trans hl) (Nat.lt_succ_self _) hr

theorem parseExpression_terminates (hs : Sound p f .factor) (ht : Terminates f N) :
    Terminates (p.parseExpression f) N :=
  Level.parse_terminates .sum (Level.parse_sound .product hs) <|
    Level.parse_terminates .product hs ht

theorem parseAtom_ne_outOfFuel : p.parseAtom s ≠ .error .outOfFuel := by
  unfold parseAtom parseVariable parseSymbol parseConstant
  grind

theorem parseBinaryFunction_terminates (hs : Sound p f .factor) (ht : Terminates f N) (hl : s.length < N) :
    p.parseBinaryFunction f op name s ≠ .error .outOfFuel := by
  have he := parseExpression_terminates hs ht
  rw [parseBinaryFunction]
  simp only [ne_eq, bind_eq_error, expect_eq_ok]
  rintro (hf | ⟨⟨lhs, s₁⟩, hf, hc | ⟨s₂, hc, hr | ⟨⟨rhs, s₃⟩, -, hp | ⟨s₄, -, hb | ⟨e, -, h⟩⟩⟩⟩⟩)
  · exact he s hl hf
  · exact expect_ne_outOfFuel hc
  · have hd := parseExpression_sound hs _ _ _ hf
    have hlt : s₁.length < s.length := hd.length_lt rfl
    have hc : s₁ = ',' :: s₂ := hd.skipWhitespace_rest.symm.trans hc
    rw [hc, List.length_cons] at hlt
    exact he s₂ (by omega) hr
  · exact expect_ne_outOfFuel hp
  · exact built_ne_outOfFuel hb
  · cases h

theorem length_of_consumePrefix (h : consumePrefix word (skipWhitespace s) = some s') (hw : word ≠ "") :
    s'.length < s.length := by
  have hlt := length_skipWhitespace_le s
  have hpos : 0 < word.toList.length := by simpa [List.length_pos_iff] using hw
  rw [consumePrefix_eq_some.mp h, List.length_append] at hlt
  omega

theorem parseFactorWith_terminates (hs : Sound p f .factor) (ht : Terminates f N) :
    Terminates (p.parseFactorWith f) (N + 1) := by
  intro s hl
  have hle {word : String} {s' : Bytes} (h : consumePrefix word (skipWhitespace s) = some s') (hw : word ≠ "") :
      s'.length < N := by
    have := length_of_consumePrefix h hw
    omega
  rw [parseFactorWith]
  split
  case isTrue => simp
  case isFalse =>
    split
    case h_1 s' h =>
      simp only [ne_eq, bind_eq_error]
      rintro (hf | ⟨⟨e, s₁⟩, -, hb | ⟨e', -, hr⟩⟩)
      case inl     => exact ht s' (hle h (by decide)) hf
      case inr.inl => exact built_ne_outOfFuel hb
      case inr.inr => cases hr
    case h_2 =>
      split
      case h_1 s' h => exact parseBinaryFunction_terminates hs ht (hle h (by decide))
      case h_2 =>
        split
        case h_1 s' h => exact parseBinaryFunction_terminates hs ht (hle h (by decide))
        case h_2 =>
          split
          case h_1 s' h =>
            simp only [ne_eq, bind_eq_error]
            rintro (hf | ⟨⟨e, s₁⟩, -, hp | ⟨s₂, -, hr⟩⟩)
            case inl     => exact parseExpression_terminates hs ht s' (hle h (by decide)) hf
            case inr.inl => exact expect_ne_outOfFuel hp
            case inr.inr => cases hr
          case h_2 => exact parseAtom_ne_outOfFuel

theorem parseFactor_terminates (n : Nat) : Terminates (p.parseFactor n) n := by
  induction n
  case zero      => exact fun _ h => absurd h (Nat.not_lt_zero _)
  case succ n hi => exact parseFactorWith_terminates (parseFactor_sound n) hi

-- The fuel is never used up.
theorem parsePartial_ne_outOfFuel : p.parsePartial s ≠ .error .outOfFuel :=
  parseExpression_terminates (parseFactor_sound _) (parseFactor_terminates _) s (Nat.lt_succ_self _)

end Termination

-- The parser returns exactly what the grammar derives, and it always stops.
theorem parsePartial_correct (p : ExprParser E) (s : Bytes) :
    p.parsePartial s ≠ .error .outOfFuel ∧
    (∀ e rest, p.parsePartial s = .ok (e, rest) ↔ Derives p (.chain .sum) s e rest) ∧
    (∀ e, p.parse s = .ok e ↔ Derives p (.chain .sum) s e []) where
  left  := parsePartial_ne_outOfFuel
  right := ⟨fun _ _ => parsePartial_eq_ok, fun _ => parse_eq_ok⟩

theorem parse_eq_error (h : Derives p (.chain .sum) s e rest) (hr : rest ≠ []) :
    p.parse s = .error (.reported "Did not parse entire string" rest) := by
  rw [ExprParser.parse, parsePartial_eq_ok.mpr h]
  change (if skipWhitespace rest = [] then _ else _) = _
  rw [h.skipWhitespace_rest, if_neg hr]

theorem parseSymbolicExpr_eq_ok {b : ExprBuilder E} {numDims : Option Int} : parseSymbolicExpr b s numDims = .ok e ↔
    ∃ rest, Derives { builder := b, numDims, variableMap := none : ExprParser E } (.chain .sum) s e rest := by
  simp only [parseSymbolicExpr, parseSymbolicExprAndAdvance, bind_eq_ok, parsePartial_eq_ok, Prod.exists, pure,
    Except.pure, Except.ok.injEq]
  constructor
  case mp =>
    rintro ⟨_, rest, h, rfl⟩
    exact ⟨rest, h⟩
  case mpr =>
    rintro ⟨rest, h⟩
    exact ⟨e, rest, h, rfl⟩

-- `parseSymbolicExpr` drops exactly the text that `parse` reports as not parsed.
theorem parseSymbolicExpr_drops (b : ExprBuilder E) (numDims : Option Int) (s : Bytes) (e : E) :
    let p : ExprParser E := { builder := b, numDims, variableMap := none }
    parseSymbolicExpr b s numDims = .ok e ↔
      p.parse s = .ok e ∨
      ∃ rest ≠ [], Derives p (.chain .sum) s e rest ∧
        p.parse s = .error (.reported "Did not parse entire string" rest) := by
  intro p
  rw [parseSymbolicExpr_eq_ok, parse_eq_ok]
  constructor
  case mp =>
    rintro ⟨rest, h⟩
    by_cases hr : rest = []
    case pos => exact .inl (hr ▸ h)
    case neg => exact .inr ⟨rest, hr, h, parse_eq_error h hr⟩
  case mpr =>
    rintro (h | ⟨rest, -, h, -⟩)
    case inl => exact ⟨[], h⟩
    case inr => exact ⟨rest, h⟩

end Symbolic
