import Mathlib.Data.Nat.Factors
import XlaModel.Sharding.Transpose
import XlaModel.Lib.BlockView

namespace Sharding.FullyDecanonicalize

variable {fuel i n p : Nat}

-- The product of the prime factors that trial division does not find.
def cofactor (n : Nat) : Nat :=
  (n.primeFactorsList.filter (46339 ≤ ·)).prod

theorem cofactor_mul (hm : m ≠ 0) (hn : n ≠ 0) : cofactor (m * n) = cofactor m * cofactor n := by
  have hp := (Nat.perm_primeFactorsList_mul hm hn).filter (46339 ≤ ·)
  rw [cofactor, hp.prod_eq, List.filter_append, List.prod_append, cofactor, cofactor]

theorem cofactor_pow (hp : p.Prime) (hl : p < 46339) (k : Nat) : cofactor (p ^ k) = 1 := by
  rw [cofactor, hp.primeFactorsList_pow, List.filter_eq_nil_iff.mpr, List.prod_nil]
  intro q hq
  rw [List.eq_of_mem_replicate hq]
  simpa using hl

theorem cofactor_le (hn : n ≠ 0) : cofactor n ≤ n := by
  have hs : cofactor n ∣ n.primeFactorsList.prod := List.Sublist.prod_dvd_prod List.filter_sublist
  rw [Nat.prod_primeFactorsList hn] at hs
  exact Nat.le_of_dvd (Nat.pos_of_ne_zero hn) hs

theorem cofactor_eq (hn : n ≠ 0) (h : ∀ p, p.Prime → p ∣ n → 46339 ≤ p) : cofactor n = n := by
  rw [cofactor, List.filter_eq_self.mpr, Nat.prod_primeFactorsList hn]
  intro p hp
  simpa using h p (Nat.prime_of_mem_primeFactorsList hp) (Nat.dvd_of_mem_primeFactorsList hp)

section DivideOut

theorem divideOut_spec (hi : 2 ≤ i) (hn : 0 < n) (hf : n ≤ fuel) :
    ∃ k m, divideOut i fuel n = some (List.replicate k i, m) ∧ n = i ^ k * m ∧ ¬i ∣ m := by
  induction fuel generalizing n
  case zero => omega
  case succ fuel ih =>
    rw [divideOut]
    split_ifs with hd
    case pos =>
      have hd := Nat.dvd_of_mod_eq_zero hd
      have hlt : n / i < n := Nat.div_lt_self hn hi
      obtain ⟨k, m, hk, hm, hnd⟩ := ih (Nat.div_pos (Nat.le_of_dvd hn hd) (by omega)) (by omega)
      refine ⟨k + 1, m, by rw [hk]; rfl, ?_, hnd⟩
      rw [pow_succ', Nat.mul_assoc, ← hm, Nat.mul_div_cancel' hd]
    case neg => exact ⟨0, n, rfl, by simp, fun hn => hd (Nat.mod_eq_zero_of_dvd hn)⟩

end DivideOut

-- All prime factors of a number that is left to divide are at least the next divisor.
structure Left (i n : Nat) : Prop where
  pos : 0 < n
  le  : ∀ p, p.Prime → p ∣ n → i ≤ p

namespace Left

theorem prime_of_dvd (h : Left i n) (hi : 2 ≤ i) (hd : i ∣ n) : i.Prime := by
  have hm := Nat.minFac_prime (show i ≠ 1 by omega)
  have := h.le _ hm ((Nat.minFac_dvd i).trans hd)
  rwa [← Nat.le_antisymm (Nat.minFac_le (by omega)) this]

theorem eq_one_or_prime (h : Left i n) (hl : n < i * i) : n = 1 ∨ n.Prime := by
  by_contra! hn
  have hm := h.le _ (Nat.minFac_prime hn.1) (Nat.minFac_dvd n)
  have := Nat.minFac_sq_le_self h.pos hn.2
  nlinarith

-- The next divisor is odd again.
theorem next (h : Left i n) (hi : Odd i) (h₂ : 2 < i) (hn : n = i ^ k * m) (hd : ¬i ∣ m) : Left (i + 2) m where
  pos := Nat.pos_of_mul_pos_left (hn ▸ h.pos)
  le p hp hm := by
    have hle := h.le p hp (hn ▸ Dvd.dvd.mul_left hm _)
    have hne : p ≠ i := fun he => hd (he ▸ hm)
    have ho : Odd p := hp.odd_of_ne_two (by omega)
    rw [Nat.odd_iff] at hi ho
    omega

end Left

-- Trial division terminates with prime factors if the cofactor is small, and overflows otherwise.
theorem trialDivision_spec (h : Left i n) (hi : Odd i) (h₂ : 2 < i) (hl : i ≤ 46339) (hf : 46339 < fuel + i) :
    if cofactor n < 46339 ^ 2 then
      ∃ ps m, trialDivision fuel i n = some (ps, m) ∧ (∀ p ∈ ps, p.Prime) ∧ ps.prod * m = n ∧ Left i m ∧ (m = 1 ∨ m.Prime)
    else trialDivision fuel i n = none := by
  induction fuel generalizing i n
  case zero => omega
  case succ fuel ih =>
    have ho : ¬2 ^ 31 ≤ i * i := by nlinarith
    rw [trialDivision, if_neg ho]
    by_cases hn : i * i ≤ n
    case neg =>
      have hc : cofactor n < 46339 ^ 2 := by
        have := cofactor_le h.pos.ne'
        nlinarith
      rw [if_neg hn, if_pos hc]
      exact ⟨[], n, rfl, by simp, by simp, h, h.eq_one_or_prime (Nat.lt_of_not_le hn)⟩
    case pos =>
      rw [if_pos hn]
      obtain ⟨k, m, hk, hm, hd⟩ := divideOut_spec (show 2 ≤ i by omega) h.pos le_rfl
      have hnext := h.next hi h₂ hm hd
      simp only [hk, Option.bind_eq_bind, Option.bind_some]
      obtain hlt | rfl := Nat.lt_or_eq_of_le hl
      case inl =>
        have hp : cofactor (i ^ k) = 1 := by
          obtain rfl | hk := Nat.eq_zero_or_pos k
          case inl => simp [cofactor]
          case inr => exact cofactor_pow (h.prime_of_dvd (by omega) (hm ▸ (dvd_pow_self i hk.ne').mul_right m)) hlt k
        have hc : cofactor n = cofactor m := by
          rw [hm, cofactor_mul (pow_ne_zero _ (by omega)) hnext.pos.ne', hp, Nat.one_mul]
        have hl' : i + 2 ≤ 46339 := by
          rw [Nat.odd_iff] at hi
          omega
        have hs := ih hnext (by simpa [Nat.odd_add] using hi) (by omega) hl' (by omega)
        rw [hc]
        split_ifs at hs ⊢
        case pos =>
          obtain ⟨ps, m', ht, hps, hprod, hleft, hm'⟩ := hs
          refine ⟨List.replicate k i ++ ps, m', by rw [ht]; rfl, fun p hp => ?_, ?_, ⟨hleft.pos, fun p hp hd => ?_⟩, hm'⟩
          · obtain hr | hr := List.mem_append.mp hp
            case inl =>
              have hk : k ≠ 0 := fun h => by simp [h] at hr
              rw [List.eq_of_mem_replicate hr]
              exact h.prime_of_dvd (by omega) (hm ▸ (dvd_pow_self i hk).mul_right m)
            case inr => exact hps p hr
          · rw [List.prod_append, List.prod_replicate, Nat.mul_assoc, hprod, hm]
          · have := hleft.le p hp hd
            omega
        case neg => rw [hs]; rfl
      case inr =>
        have hc : ¬cofactor n < 46339 ^ 2 := by
          rw [cofactor_eq h.pos.ne' h.le]
          omega
        have ht : trialDivision fuel (46339 + 2) m = none := by
          cases fuel
          case zero => rfl
          case succ => exact if_pos (by norm_num)
        rw [if_neg hc, ht]
        rfl

theorem factors_spec (hn : 0 < n) :
    if cofactor n < 46339 ^ 2 then ∃ ps, factors n = some ps ∧ (∀ p ∈ ps, p.Prime) ∧ ps.prod = n
    else factors n = none := by
  obtain ⟨k, m, hk, hm, hd⟩ := divideOut_spec le_rfl hn le_rfl
  have hm₀ : 0 < m := Nat.pos_of_mul_pos_left (hm ▸ hn)
  have hleft : Left 3 m := by
    refine ⟨hm₀, fun p hp hpd => ?_⟩
    have hne : p ≠ 2 := fun he => hd (he ▸ hpd)
    have := hp.two_le
    omega
  have hc : cofactor n = cofactor m := by
    rw [hm, cofactor_mul (pow_ne_zero _ (by omega)) hm₀.ne', cofactor_pow Nat.prime_two (by omega), Nat.one_mul]
  have hs := trialDivision_spec hleft (by decide) (by omega) (by omega) (show 46339 < 46341 + 3 by omega)
  rw [hc]
  simp only [factors, hk, Option.bind_eq_bind, Option.bind_some]
  split_ifs at hs ⊢
  case pos =>
    obtain ⟨ps, m', ht, hps, hprod, hleft, hm'⟩ := hs
    have htwos : ∀ p ∈ List.replicate k 2 ++ ps, p.Prime := by
      intro p hp
      obtain hr | hr := List.mem_append.mp hp
      case inl => exact List.eq_of_mem_replicate hr ▸ Nat.prime_two
      case inr => exact hps p hr
    simp only [ht, Option.bind_some]
    obtain rfl | hp := hm'
    case inl =>
      refine ⟨_, if_neg (by omega), htwos, ?_⟩
      rw [List.prod_append, List.prod_replicate, ← Nat.mul_one ps.prod, hprod, hm]
    case inr =>
      have h₃ := hleft.le _ hp dvd_rfl
      rw [if_pos hp.one_lt, guard, if_pos (by omega)]
      refine ⟨_, rfl, fun p hp' => ?_, ?_⟩
      · obtain hl | hl := List.mem_append.mp hp'
        case inl => exact htwos p hl
        case inr => exact List.mem_singleton.mp hl ▸ hp
      · rw [List.prod_append, List.prod_append, List.prod_replicate, List.prod_singleton, Nat.mul_assoc, hprod, hm]
  case neg => rw [hs]; rfl

end Sharding.FullyDecanonicalize

namespace Sharding.FullyDecanonicalize

open View

variable {reshapeDims transposePerm : List Nat} {blocks : List (List Nat)} {info : Info}

section ReshapeDims

theorem foldlM_appendFactors_none {d : Nat} (s : List Nat × List Nat) (hd : d ∈ reshapeDims) (h : factors d = none) :
    reshapeDims.foldlM appendFactors s = none := by
  induction reshapeDims generalizing s
  case nil => simp at hd
  case cons e reshapeDims hi =>
    rw [List.foldlM_cons]
    obtain rfl | hd := List.mem_cons.mp hd
    case inl => simp [appendFactors, h]
    case inr => cases appendFactors s e <;> simp [hi _ hd]

-- The second list holds the positions at which the blocks of factors begin.
theorem foldlM_appendFactors (dims olds : List Nat) (h : List.Forall₂ (fun d ps => factors d = some ps) reshapeDims blocks) :
    reshapeDims.foldlM appendFactors (dims, olds) =
      some (dims ++ blocks.flatten, olds ++ (List.range blocks.length).map fun d => dims.length + first blocks (d + 1)) := by
  induction h generalizing dims olds
  case nil => simp
  case cons d ps reshapeDims blocks hd _ hi =>
    have hf (k : Nat) : first (ps :: blocks) (k + 1) = ps.length + first blocks k := by simp [first]
    rw [List.foldlM_cons]
    simp only [appendFactors, hd, Option.bind_eq_bind, Option.bind_some, Option.pure_def, hi]
    simp [hf, List.range_succ_eq_map, Function.comp_def, Nat.add_assoc]

end ReshapeDims

section TransposePerm

-- The decanonicalized dimensions in the order of the permutation, each with its original dimension.
def entries (transposePerm : List Nat) (blocks : List (List Nat)) : List (Nat × Nat) :=
  transposePerm.flatMap fun d => (block blocks d).map (·, d)

structure Appended (n : Nat) (entries : List (Nat × Nat)) (info : Info) : Prop where
  perm     : info.newTransposePerm = entries.map Prod.fst
  original : info.newTransposePermIdxToOriginalReshapeDim = entries.map Prod.snd
  length   : info.originalReshapeDimToNewTransposePermIndices.length = n
  indices  : ∀ o c, c ∈ info.originalReshapeDimToNewTransposePermIndices.getD o [] ↔ (entries.map Prod.snd)[c]? = some o

namespace Appended

variable {n : Nat} {es : List (Nat × Nat)}

theorem init (dims : List Nat) (n : Nat) : Appended n [] ⟨dims, [], [], List.replicate n []⟩ where
  perm        := rfl
  original    := rfl
  length      := by simp
  indices o c := by by_cases h : o < n <;> simp [h]

theorem appendIndex (h : Appended n es info) (hd : d < n) (j : Nat) :
    Appended n (es ++ [(j, d)]) (appendIndex d info j) where
  perm     := by simp [FullyDecanonicalize.appendIndex, h.perm]
  original := by simp [FullyDecanonicalize.appendIndex, h.original]
  length   := by simp [FullyDecanonicalize.appendIndex, h.length]
  indices o c := by
    have hi := h.indices o c
    have hl : info.newTransposePerm.length = es.length := by simp [h.perm]
    have hlt : d < info.originalReshapeDimToNewTransposePermIndices.length := h.length.symm ▸ hd
    simp only [FullyDecanonicalize.appendIndex, List.map_append, List.map_cons, List.map_nil, hl]
    by_cases ho : o = d
    case pos =>
      subst ho
      rw [List.getD_eq_getElem _ _ hlt] at hi
      rw [List.getD_eq_getElem _ _ (by simpa using hlt), List.getElem_modify, if_pos rfl, List.mem_append, hi,
        List.mem_singleton]
      obtain hc | rfl | hc := Nat.lt_trichotomy c es.length
      case inl => simp [List.getElem?_append_left, hc, hc.ne]
      case inr.inl => simp
      case inr.inr => simp [hc.le, hc.ne', hc]
    case neg =>
      rw [List.getD_eq_getElem?_getD, List.getElem?_modify]
      simp only [if_neg (Ne.symm ho), Option.map_eq_map, Option.map_id', ← List.getD_eq_getElem?_getD, hi]
      obtain hc | rfl | hc := Nat.lt_trichotomy c es.length
      case inl => simp [List.getElem?_append_left, hc]
      case inr.inl => simp [Ne.symm ho]
      case inr.inr => simp [hc.le, hc]

theorem foldl_appendIndex (h : Appended n es info) (hd : d < n) (js : List Nat) :
    Appended n (es ++ js.map (·, d)) (js.foldl (FullyDecanonicalize.appendIndex d) info) := by
  induction js generalizing es info
  case nil          => simpa using h
  case cons j js hi => simpa using hi (h.appendIndex hd j)

theorem foldl_appendIndices {oldToNewDims : List Nat} (h : Appended n es info)
    (ho : ∀ d ≤ n, oldToNewDims.getD d 0 = first blocks d) (hd : ∀ d ∈ transposePerm, d < n) :
    Appended n (es ++ entries transposePerm blocks) (transposePerm.foldl (appendIndices oldToNewDims) info) := by
  induction transposePerm generalizing es info
  case nil => simpa [entries] using h
  case cons d transposePerm hi =>
    have hlt := hd d (.head _)
    have hb : List.range' (oldToNewDims.getD d 0) (oldToNewDims.getD (d + 1) 0 - oldToNewDims.getD d 0) =
        block blocks d := by
      rw [ho d hlt.le, ho (d + 1) hlt, first_succ, Nat.add_sub_cancel_left, block]
    have hs := hi (h.foldl_appendIndex hlt (block blocks d)) fun e he => hd e (.tail _ he)
    rw [List.foldl_cons, appendIndices, hb]
    simpa [entries] using hs

end Appended

theorem foldl_appendIndices_dims (oldToNewDims : List Nat) :
    (transposePerm.foldl (appendIndices oldToNewDims) info).newReshapeDims = info.newReshapeDims := by
  have hd (d : Nat) (js : List Nat) (info : Info) :
      (js.foldl (appendIndex d) info).newReshapeDims = info.newReshapeDims := by
    induction js generalizing info
    case nil          => rfl
    case cons j js hi => exact hi (appendIndex d info j)
  induction transposePerm generalizing info
  case nil                     => rfl
  case cons d transposePerm hi => exact hi.trans (hd ..)

end TransposePerm

-- The original dimensions are split into the given blocks.
structure Splits (transposePerm : List Nat) (blocks : List (List Nat)) (info : Info) : Prop where
  dims     : info.newReshapeDims = blocks.flatten
  appended : Appended blocks.length (entries transposePerm blocks) info

-- The blocks contain the prime factors of the original dimensions.
structure Factorization (reshapeDims : List Nat) (blocks : List (List Nat)) : Prop where
  prod  : blocks.map List.prod = reshapeDims
  prime : ∀ ps ∈ blocks, ∀ p ∈ ps, p.Prime

def Overflows (reshapeDims : List Nat) : Prop :=
  ∃ d ∈ reshapeDims, 46339 ^ 2 ≤ cofactor d

theorem exists_factorization (h₀ : ∀ d ∈ reshapeDims, 0 < d) (h : ¬Overflows reshapeDims) :
    ∃ blocks, List.Forall₂ (fun d ps => factors d = some ps) reshapeDims blocks ∧ Factorization reshapeDims blocks := by
  induction reshapeDims
  case nil => exact ⟨[], .nil, rfl, by simp⟩
  case cons d reshapeDims hi =>
    have hs := factors_spec (h₀ d (.head _))
    rw [if_pos (Nat.lt_of_not_le fun hc => h ⟨d, .head _, hc⟩)] at hs
    obtain ⟨ps, hf, hp, hprod⟩ := hs
    obtain ⟨blocks, hb, hB⟩ := hi (fun e he => h₀ e (.tail _ he)) fun ⟨e, he, hc⟩ => h ⟨e, .tail _ he, hc⟩
    exact ⟨ps :: blocks, .cons hf hb, by simp [hprod, hB.prod], by simpa using ⟨hp, hB.prime⟩⟩

theorem fullyDecanonicalize_spec (h₀ : ∀ d ∈ reshapeDims, 0 < d) (hp : transposePerm.Perm (List.range reshapeDims.length))
    (h : ¬Overflows reshapeDims) :
    ∃ info blocks, fullyDecanonicalize reshapeDims transposePerm = some info ∧ Splits transposePerm blocks info ∧
      Factorization reshapeDims blocks := by
  obtain ⟨blocks, hb, hB⟩ := exists_factorization h₀ h
  have hl : blocks.length = reshapeDims.length := (List.Forall₂.length_eq hb).symm
  have hl' : transposePerm.length = blocks.length := (length_eq_of_perm hp).trans hl.symm
  rw [fullyDecanonicalize, foldlM_appendFactors [] [0] hb]
  refine ⟨_, blocks, rfl, ⟨foldl_appendIndices_dims _, ?_⟩, hB⟩
  rw [hl']
  refine (Appended.init _ _).foldl_appendIndices (fun d hd => ?_) fun d hd => hl ▸ List.mem_range.mp (hp.mem_iff.mp hd)
  cases d
  case zero   => simp
  case succ d => simp [Nat.lt_of_succ_le hd]

theorem fullyDecanonicalize_none (h₀ : ∀ d ∈ reshapeDims, 0 < d) (h : Overflows reshapeDims) :
    fullyDecanonicalize reshapeDims transposePerm = none := by
  obtain ⟨d, hd, hc⟩ := h
  have hs := factors_spec (h₀ d hd)
  rw [if_neg (Nat.not_lt.mpr hc)] at hs
  rw [fullyDecanonicalize, foldlM_appendFactors_none _ hd hs]
  rfl

end Sharding.FullyDecanonicalize
