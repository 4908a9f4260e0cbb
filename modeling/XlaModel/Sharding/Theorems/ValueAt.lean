import XlaModel.Sharding.Theorems.TileAssignment

namespace Sharding.IotaTileAssignment

open View RowMajor ValueAt

variable {t : IotaTileAssignment} {dims reshapeDims index : List Nat} {k s d : Nat}

-- The sizes that `valueAt` reads as an `int`. The outermost one is only used for a remainder, and is larger
-- than the number it is applied to.
def FitsInt : View → Prop
  | []     => True
  | a :: v => a.size ≤ 2 ^ 31 ∧ ∀ b ∈ v, b.size < 2 ^ 31

theorem linearIndex_eq (hd : dims ≠ []) (h : InBounds dims index) :
    linearIndex dims index = some (ravel dims index) := by
  cases h
  case nil => contradiction
  case cons i d index dims hi h =>
    rw [linearIndex, List.head?_cons]
    simp only [List.tail_cons]
    exact congrArg some (Array.foldl_horner (List.Forall₂.length_eq h) i)

theorem foldl_horner_int {sizes xs : List Nat} (h : xs.length = sizes.length) (n : Nat) :
    (sizes.zip (xs.map Int.ofNat)).foldl (fun value (dim, i) => value * (dim : Int) + i) (n : Int) =
      ((n * sizes.prod + ravel sizes xs : Nat) : Int) := by
  induction sizes generalizing xs n
  case nil => simp [ravel]
  case cons s sizes hi =>
    cases xs
    case nil => simp at h
    case cons x xs =>
      have he : n * (s :: sizes).prod + ravel (s :: sizes) (x :: xs) =
          (n * s + x) * sizes.prod + ravel sizes xs := by
        rw [ravel, List.prod_cons]
        ring
      rw [he, ← hi (by simpa using h), List.map_cons, List.zip_cons_cons, List.foldl_cons]
      push_cast
      rfl

theorem value_eq {xs : List Nat} (hr : reshapeDims ≠ []) (h : xs.length = reshapeDims.length) :
    value reshapeDims (xs.map Int.ofNat) = some (ravel reshapeDims xs : Int) := by
  obtain ⟨r, reshapeDims, rfl⟩ := List.exists_cons_of_ne_nil hr
  cases xs
  case nil => simp at h
  case cons x xs =>
    rw [value, List.map_cons, List.head?_cons]
    simp only [List.tail_cons]
    exact congrArg some (foldl_horner_int (by simpa using h) x)

theorem toInt_of_lt (h : s < 2 ^ 31) : toInt s = s := by
  have hs : (s : Int) < 2 ^ 31 := by exact_mod_cast h
  refine Int.bmod_eq_of_le ?_ ?_
  · calc -(((2 ^ 32 : Nat) : Int) / 2)
      _ ≤ 0 := by norm_num
      _ ≤ s := Int.natCast_nonneg s
  · calc (s : Int)
      _ < 2 ^ 31                           := hs
      _ = (((2 ^ 32 : Nat) : Int) + 1) / 2 := by norm_num

theorem digit_of_fits {reshapeIndex : List Int} (hs : reshapeDims.getD d 0 = s) (h₀ : 0 < s) (h : toInt s = s) :
    digit reshapeDims ⟨(k : Int), reshapeIndex⟩ d =
      some ⟨((k / s : Nat) : Int), reshapeIndex.set d ((k % s : Nat) : Int)⟩ := by
  have h₀ : (s : Int) ≠ 0 := by omega
  rw [digit, hs, h]
  simp only [if_neg h₀]
  rw [Int.ofNat_tdiv, Int.ofNat_tmod]

-- The dimensions `perm` are the minor ones of the transposed array.
theorem foldlM_digit {perm : List Nat} (reshapeIndex : List Int) (hn : perm.Nodup)
    (h : ∀ d ∈ perm, d < reshapeDims.length ∧ 0 < reshapeDims.getD d 1 ∧
      toInt (reshapeDims.getD d 1) = reshapeDims.getD d 1)
    {x : Nat → Nat} (hx : digits (perm.map (reshapeDims.getD · 1)) (k % numElements (permuted reshapeDims perm)) =
      perm.map x) :
    ∃ reshapeIndex', perm.reverse.foldlM (digit reshapeDims) ⟨(k : Int), reshapeIndex⟩ =
        some ⟨((k / numElements (permuted reshapeDims perm) : Nat) : Int), reshapeIndex'⟩ ∧
      reshapeIndex'.length = reshapeIndex.length ∧
      ∀ d, reshapeIndex'[d]? = if d ∈ perm ∧ d < reshapeIndex.length then some (x d : Int) else reshapeIndex[d]? := by
  induction perm generalizing k
  case nil => exact ⟨reshapeIndex, by simp [permuted], rfl, by simp⟩
  case cons p perm hi =>
    obtain ⟨hl, h₀, hs⟩ := h p (.head _)
    have hp : numElements (permuted reshapeDims (p :: perm)) =
        reshapeDims.getD p 1 * numElements (permuted reshapeDims perm) :=
      numElements_cons
    have hc : (perm.map (reshapeDims.getD · 1)).prod = numElements (permuted reshapeDims perm) := by
      simp [numElements, permuted, axis, Function.comp_def]
    rw [List.map_cons, digits, List.map_cons, hc, hp, Nat.mod_mul_left_div_self,
      Nat.mod_mod_of_dvd _ (Nat.dvd_mul_left ..), List.cons.injEq] at hx
    obtain ⟨reshapeIndex', hr, hl', hi'⟩ := hi hn.of_cons (fun d hd => h d (.tail _ hd)) hx.2
    have hg : reshapeDims.getD p 0 = reshapeDims.getD p 1 := by simp [hl]
    refine ⟨reshapeIndex'.set p (x p : Int), ?_, by simpa using hl', fun d => ?_⟩
    · have hd : digit reshapeDims ⟨((k / numElements (permuted reshapeDims perm) : Nat) : Int), reshapeIndex'⟩ p = _ :=
        digit_of_fits hg h₀ hs
      rw [Nat.div_div_eq_div_mul, Nat.mul_comm, ← hp, hx.1] at hd
      rw [List.reverse_cons, List.foldlM_append, hr, Option.bind_eq_bind, Option.bind_some, List.foldlM_cons, hd]
      rfl
    · rw [List.getElem?_set, hi', hl']
      by_cases hd : p = d
      case pos =>
        subst hd
        by_cases hlt : p < reshapeIndex.length <;> simp [hlt]
      case neg =>
        have hd' : d ≠ p := Ne.symm hd
        simp [hd, hd']

theorem digit_of_lt (reshapeIndex : List Int) (hs : reshapeDims.getD d 0 = s) (hk : k < s) (h : s ≤ 2 ^ 31) :
    ∃ linearIndex, digit reshapeDims ⟨(k : Int), reshapeIndex⟩ d = some ⟨linearIndex, reshapeIndex.set d (k : Int)⟩ := by
  obtain h | rfl := Nat.lt_or_eq_of_le h
  case inl =>
    have hd : digit reshapeDims ⟨(k : Int), reshapeIndex⟩ d = _ :=
      digit_of_fits hs (Nat.zero_lt_of_lt hk) (toInt_of_lt h)
    rw [Nat.mod_eq_of_lt hk] at hd
    exact ⟨_, hd⟩
  case inr =>
    have ht : toInt (2 ^ 31) = -(2 ^ 31 : Nat) := by decide
    have hz : -((2 ^ 31 : Nat) : Int) ≠ 0 := by decide
    rw [digit, hs, ht]
    simp only [if_neg hz]
    rw [Int.tmod_neg, ← Int.ofNat_tmod, Nat.mod_eq_of_lt hk]
    exact ⟨_, rfl⟩

theorem valueAt_eq {s : State} (hd : t.dims ≠ []) (hb : InBounds t.dims index)
    (hf : t.transposePerm.reverse.foldlM (digit t.reshapeDims)
      ⟨(k : Int), List.replicate t.reshapeDims.length 0⟩ = some s) (hk : ravel t.dims index = k) :
    t.valueAt index = value t.reshapeDims s.reshapeIndex := by
  rw [valueAt, linearIndex_eq hd hb, hk, Option.bind_eq_bind, Option.bind_some, hf]
  rfl

theorem Canonical.exists_cons (h : t.Canonical) : ∃ p perm, t.transposePerm = p :: perm := by
  refine List.exists_cons_of_ne_nil fun hn => h.ne_nil ?_
  have hp := h.describes.perm
  rw [hn] at hp
  exact List.length_eq_zero_iff.mp (length_eq_of_perm hp).symm

theorem Canonical.size_pos (h : t.Canonical) (hd : d ∈ t.transposePerm) :
    d < t.reshapeDims.length ∧ 0 < t.reshapeDims.getD d 1 ∧ t.reshapeDims.getD d 0 = t.reshapeDims.getD d 1 := by
  have hl : d < t.reshapeDims.length := List.mem_range.mp (h.describes.perm.mem_iff.mp hd)
  refine ⟨hl, ?_, by simp [hl]⟩
  simpa [hl] using h.describes.reshape_pos _ (List.getElem_mem hl)

theorem valueAt_of_fits (h : t.Canonical) (hd : t.dims ≠ []) (hf : FitsInt t.view) (hb : InBounds t.dims index) :
    t.valueAt index = some (offset t.view (ravel t.dims index) : Int) := by
  have hp := h.describes.perm
  have hk : ravel t.dims index < t.reshapeDims.prod := h.describes.prod ▸ hb.ravel_lt
  obtain ⟨x, hx⟩ := exists_digits hp hk
  obtain ⟨p, perm, hpp⟩ := h.exists_cons
  have hn : (p :: perm).Nodup := hpp ▸ hp.nodup_iff.mpr List.nodup_range
  rw [view, hpp] at hf
  have hxd := hx.digits
  have hc : (perm.map (t.reshapeDims.getD · 1)).prod = numElements (permuted t.reshapeDims perm) := by
    simp [numElements, permuted, axis, Function.comp_def]
  rw [hpp, List.map_cons, List.map_cons, digits, hc, List.cons.injEq] at hxd
  have hfit : ∀ d ∈ perm, d < t.reshapeDims.length ∧ 0 < t.reshapeDims.getD d 1 ∧
      toInt (t.reshapeDims.getD d 1) = t.reshapeDims.getD d 1 := by
    intro d hd
    have hm : d ∈ t.transposePerm := hpp ▸ .tail _ hd
    obtain ⟨h₁, h₂, _⟩ := h.size_pos hm
    exact ⟨h₁, h₂, toInt_of_lt (hf.2 _ (List.mem_map_of_mem hd))⟩
  have hpm : p ∈ t.transposePerm := hpp ▸ .head _
  obtain ⟨hpl, _, hpg⟩ := h.size_pos hpm
  obtain ⟨idx, hr, hl, hi⟩ := foldlM_digit (List.replicate t.reshapeDims.length 0) hn.of_cons hfit hxd.2
  obtain ⟨linearIndex, hr'⟩ := digit_of_lt idx hpg (hx.lt hpl) hf.1
  have hs : t.transposePerm.reverse.foldlM (digit t.reshapeDims)
      ⟨(ravel t.dims index : Int), List.replicate t.reshapeDims.length 0⟩ =
        some ⟨linearIndex, idx.set p (x p : Int)⟩ := by
    rw [hpp, List.reverse_cons, List.foldlM_append, hr, hxd.1, Option.bind_eq_bind, Option.bind_some, List.foldlM_cons,
      hr']
    rfl
  have hidx : idx.set p (x p : Int) = ((List.range t.reshapeDims.length).map x).map Int.ofNat := by
    rw [List.length_replicate] at hl hi
    refine List.ext_getElem? fun d => ?_
    rw [List.getElem?_set, hi, hl]
    by_cases hdl : d < t.reshapeDims.length
    case neg =>
      have hpd : p ≠ d := by
        rintro rfl
        exact hdl hpl
      simp [hpd, hdl]
    case pos =>
      have hm : d ∈ p :: perm := hpp ▸ hp.mem_iff.mpr (List.mem_range.mpr hdl)
      by_cases hpd : p = d
      case pos => simp [hpd, hdl]
      case neg =>
        have hm : d ∈ perm := (List.mem_cons.mp hm).resolve_left (Ne.symm hpd)
        simp [hpd, hdl, hm]
  rw [valueAt_eq hd hb hs rfl]
  simp only [hidx]
  rw [value_eq h.ne_nil (by simp), view, hx.offset hp]

section Overflow

variable {perm : List Nat} {reshapeIndex : List Int}

theorem natAbs_toInt (hs : 2 ^ 31 ≤ s) : (toInt s).natAbs ≤ 2 ^ 31 ∧ ((toInt s).natAbs = s → toInt s < 0) := by
  have hl : -(2 ^ 31 : Int) ≤ toInt s := by
    have : -(((2 ^ 32 : Nat) : Int) / 2) ≤ toInt s := Int.le_bmod (by norm_num)
    norm_num at this ⊢
    exact this
  have hu : toInt s < (2 ^ 31 : Int) := by
    have : toInt s < (((2 ^ 32 : Nat) : Int) + 1) / 2 := Int.bmod_lt (by norm_num)
    norm_num at this ⊢
    exact this
  have hs' : (2 ^ 31 : Int) ≤ s := by exact_mod_cast hs
  generalize toInt s = d at hl hu ⊢
  norm_num at hl hu hs hs' ⊢
  omega

theorem foldlM_digit_zero (h : ∀ d ∈ perm, reshapeIndex.set d 0 = reshapeIndex) :
    perm.foldlM (digit reshapeDims) ⟨0, reshapeIndex⟩ = none ∨
      perm.foldlM (digit reshapeDims) ⟨0, reshapeIndex⟩ = some ⟨0, reshapeIndex⟩ := by
  induction perm
  case nil => exact .inr rfl
  case cons d perm hi =>
    rw [List.foldlM_cons, digit]
    simp only
    split
    case isTrue  => exact .inl rfl
    case isFalse =>
      rw [Int.zero_tdiv, Int.zero_tmod, h d (.head _)]
      exact hi fun e he => h e (.tail _ he)

theorem set_replicate_zero (n d : Nat) : (List.replicate n (0 : Int)).set d 0 = List.replicate n 0 := by
  refine List.ext_getElem (by simp) fun i h₁ h₂ => ?_
  rw [List.getElem_set]
  split <;> simp

theorem foldl_linear (sizes : List Nat) (xs : List Int) (σ n : Int) :
    (sizes.zip (xs.map (σ * ·))).foldl (fun value (dim, i) => value * (dim : Int) + i) (σ * n) =
      σ * (sizes.zip xs).foldl (fun value (dim, i) => value * (dim : Int) + i) n := by
  induction sizes generalizing xs n
  case nil => simp
  case cons s sizes hi =>
    cases xs
    case nil => simp
    case cons x xs =>
      rw [List.map_cons, List.zip_cons_cons, List.zip_cons_cons, List.foldl_cons, List.foldl_cons, ← hi]
      congr 1
      ring

theorem ravel_set_one (d : Nat) (h : d < reshapeDims.length) :
    ravel reshapeDims ((List.replicate reshapeDims.length 0).set d 1) = stride reshapeDims d := by
  have hz (sizes : List Nat) : ravel sizes (List.replicate sizes.length 0) = 0 := by
    induction sizes
    case nil            => rfl
    case cons s sizes hi => simpa [ravel, List.replicate_succ] using hi
  induction reshapeDims generalizing d
  case nil => simp at h
  case cons r sizes hi =>
    cases d
    case zero   => simp [List.replicate_succ, ravel, hz, stride]
    case succ d => simpa [List.replicate_succ, ravel, stride] using hi d (by simpa using h)

theorem value_set (hr : reshapeDims ≠ []) (h : d < reshapeDims.length) (τ : Int) :
    value reshapeDims ((List.replicate reshapeDims.length 0).set d τ) = some (τ * stride reshapeDims d) := by
  have hs : (List.replicate reshapeDims.length (0 : Int)).set d τ =
      (((List.replicate reshapeDims.length 0).set d 1).map Int.ofNat).map (τ * ·) := by
    simp [List.map_set]
  have hv := value_eq hr (by simp : ((List.replicate reshapeDims.length 0).set d 1).length = reshapeDims.length)
  rw [ravel_set_one d h] at hv
  rw [hs]
  revert hv
  cases ((List.replicate reshapeDims.length 0).set d 1).map Int.ofNat
  case nil => simp [value]
  case cons x xs =>
    intro hv
    rw [value, List.head?_cons, List.tail_cons, Option.bind_eq_bind, Option.bind_some] at hv
    rw [value, List.map_cons, List.head?_cons, List.tail_cons, Option.bind_eq_bind, Option.bind_some, foldl_linear]
    simp only [Option.pure_def, Option.some.injEq] at hv ⊢
    rw [hv]

theorem exists_last {q : Nat → Prop} (h : ∃ x ∈ perm, q x) :
    ∃ us p ws, perm = us ++ p :: ws ∧ q p ∧ ∀ w ∈ ws, ¬q w := by
  induction perm
  case nil => simp at h
  case cons d perm hi =>
    by_cases h' : ∃ x ∈ perm, q x
    case pos =>
      obtain ⟨us, p, ws, rfl, hp, hw⟩ := hi h'
      exact ⟨d :: us, p, ws, rfl, hp, hw⟩
    case neg =>
      obtain ⟨x, hx, hq⟩ := h
      obtain rfl | hx := List.mem_cons.mp hx
      case inl => exact ⟨[], x, perm, rfl, hq, fun w hw hq' => h' ⟨w, hw, hq'⟩⟩
      case inr => exact absurd ⟨x, hx, hq⟩ h'

-- The innermost dimension that `valueAt` cannot read as an `int`.
structure OverflowsAt (t : IotaTileAssignment) (us : List Nat) (p : Nat) (ws : List Nat) : Prop where
  perm  : t.transposePerm = us ++ p :: ws
  le    : 2 ^ 31 ≤ t.reshapeDims.getD p 1
  minor : ∀ w ∈ ws, t.reshapeDims.getD w 1 < 2 ^ 31
  lt    : us = [] → 2 ^ 31 < t.reshapeDims.getD p 1

theorem exists_overflowsAt (h : t.Canonical) (hf : ¬FitsInt t.view) : ∃ us p ws, t.OverflowsAt us p ws := by
  obtain ⟨p, perm, hpp⟩ := h.exists_cons
  rw [view, hpp] at hf
  have hl : ∃ d ∈ t.transposePerm, 2 ^ 31 ≤ t.reshapeDims.getD d 1 := by
    by_contra hn
    push Not at hn
    rw [hpp] at hn
    refine hf ⟨(hn p (.head _)).le, fun a ha => ?_⟩
    obtain ⟨d, hd, rfl⟩ := List.mem_map.mp ha
    exact hn d (.tail _ hd)
  obtain ⟨us, q, ws, hu, hq, hw⟩ := exists_last hl
  push Not at hw
  refine ⟨us, q, ws, hu, hq, hw, ?_⟩
  rintro rfl
  rw [hpp] at hu
  obtain ⟨rfl, rfl⟩ : p = q ∧ perm = ws := by simpa using hu
  by_contra hle
  refine hf ⟨Nat.le_of_not_lt hle, fun a ha => ?_⟩
  obtain ⟨d, hd, rfl⟩ := List.mem_map.mp ha
  exact hw d hd

theorem OverflowsAt.mem {us ws : List Nat} {p : Nat} (ho : t.OverflowsAt us p ws) : p ∈ t.transposePerm := by
  simp [ho.perm]

-- The size of a dimension as `valueAt` reads it.
def readSize (reshapeDims : List Nat) (d : Nat) : Int :=
  toInt (reshapeDims.getD d 0)

theorem digit_eq (s : State) (d : Nat) : digit reshapeDims s d = if readSize reshapeDims d = 0 then none else
    some ⟨s.linearIndex.tdiv (readSize reshapeDims d), s.reshapeIndex.set d (s.linearIndex.tmod (readSize reshapeDims d))⟩ :=
  rfl

-- The linear index is a multiple of all remaining dimensions.
theorem foldlM_digit_multiple (c : Int) (h : ∀ d ∈ perm, readSize reshapeDims d ≠ 0) :
    perm.foldlM (digit reshapeDims) ⟨c * (perm.map (readSize reshapeDims)).prod, List.replicate n 0⟩ =
      some ⟨c, List.replicate n 0⟩ := by
  induction perm
  case nil => simp
  case cons d perm hi =>
    have hd := h d (.head _)
    have hm : c * ((d :: perm).map (readSize reshapeDims)).prod =
        readSize reshapeDims d * (c * (perm.map (readSize reshapeDims)).prod) := by
      rw [List.map_cons, List.prod_cons]
      ring
    rw [List.foldlM_cons, hm, digit_eq, if_neg hd, Int.mul_tdiv_cancel_left _ hd, Int.mul_tmod_right,
      set_replicate_zero]
    exact hi fun e he => h e (.tail _ he)

theorem readSize_ne_zero {σ : State} (h : perm.foldlM (digit reshapeDims) ⟨0, List.replicate n 0⟩ = some σ) :
    ∀ d ∈ perm, readSize reshapeDims d ≠ 0 := by
  induction perm
  case nil => simp
  case cons d perm hi =>
    rw [List.foldlM_cons, digit_eq] at h
    split_ifs at h with hd
    case pos => cases h
    case neg =>
      rw [Int.zero_tdiv, Int.zero_tmod, set_replicate_zero] at h
      exact List.forall_mem_cons.mpr ⟨hd, hi h⟩

theorem natAbs_readSize_le (d : Nat) : (readSize reshapeDims d).natAbs ≤ reshapeDims.getD d 0 := by
  rw [readSize]
  obtain h | h := Nat.lt_or_ge (reshapeDims.getD d 0) (2 ^ 31)
  case inl => rw [toInt_of_lt h, Int.natAbs_natCast]
  case inr => exact (natAbs_toInt h).1.trans h

theorem value_replicate_zero (hr : reshapeDims ≠ []) : value reshapeDims (List.replicate reshapeDims.length 0) = some 0 := by
  have := value_set hr (List.length_pos_iff.mpr hr) 0
  rwa [set_replicate_zero, Int.zero_mul] at this

theorem prod_lt_or_eq {f g : Nat → Nat} {l : List Nat} (hg : ∀ d ∈ l, 0 < g d) (hf : ∀ d ∈ l, f d ≤ g d) :
    (l.map f).prod < (l.map g).prod ∨ ∀ d ∈ l, f d = g d := by
  induction l
  case nil => simp
  case cons d l hi =>
    have hgd := hg d (.head _)
    have hG : 0 < (l.map g).prod := List.prod_pos fun x hx => by
      obtain ⟨e, he, rfl⟩ := List.mem_map.mp hx
      exact hg e (.tail _ he)
    rw [List.map_cons, List.map_cons, List.prod_cons, List.prod_cons, List.forall_mem_cons]
    obtain hlt | he := hi (fun e he => hg e (.tail _ he)) fun e he => hf e (.tail _ he)
    case inl => exact .inl (Nat.mul_lt_mul_of_le_of_lt (hf d (.head _)) hlt hgd)
    case inr =>
      rw [List.map_congr_left he]
      obtain hlt | hd := Nat.lt_or_eq_of_le (hf d (.head _))
      case inl => exact .inl (Nat.mul_lt_mul_of_pos_right hlt hG)
      case inr => exact .inr ⟨hd, he⟩

theorem natAbs_prod (xs : List Int) : xs.prod.natAbs = (xs.map Int.natAbs).prod := by
  induction xs
  case nil          => rfl
  case cons x xs hi => rw [List.prod_cons, Int.natAbs_mul, List.map_cons, List.prod_cons, hi]

theorem tdiv_tmod_of_natAbs_lt {m n : Int} (h : m.natAbs < n.natAbs) : m.tdiv n = 0 ∧ m.tmod n = m := by
  have hz : m.tdiv n = 0 := by
    rw [← Int.natAbs_eq_zero, Int.natAbs_tdiv]
    exact Nat.div_eq_of_lt h
  have hm := Int.mul_tdiv_add_tmod m n
  rw [hz, Int.mul_zero, Int.zero_add] at hm
  exact ⟨hz, hm⟩

theorem map_reverse_perm (h : t.Canonical) : (t.transposePerm.reverse.map (t.reshapeDims.getD · 0)).Perm t.reshapeDims := by
  have hp := ((List.reverse_perm t.transposePerm).trans h.describes.perm).map (t.reshapeDims.getD · 0)
  rwa [map_getD_range] at hp

section Lookup

variable (h : t.Canonical) (hd : t.dims ≠ []) {g : Nat → Int}
variable (hv : ∀ k < t.dims.prod, t.valueAt (digits t.dims k) = some (g k))
include h hd hv

omit h in
theorem exists_state (hk : k < t.dims.prod) : ∃ s, t.transposePerm.reverse.foldlM (digit t.reshapeDims)
    ⟨(k : Int), List.replicate t.reshapeDims.length 0⟩ = some s ∧ value t.reshapeDims s.reshapeIndex = some (g k) := by
  have hg := hv k hk
  have hl : linearIndex t.dims (digits t.dims k) = some k := by
    rw [linearIndex_eq hd (digits_inBounds hk), ravel_digits hk]
  rw [valueAt, hl, Option.bind_eq_bind, Option.bind_some] at hg
  cases hf : t.transposePerm.reverse.foldlM (digit t.reshapeDims)
      ⟨(k : Int), List.replicate t.reshapeDims.length 0⟩
  case none   => simp [hf] at hg
  case some s => exact ⟨s, rfl, by simpa [hf] using hg⟩

theorem readSizes_ne_zero : ∀ d ∈ t.transposePerm.reverse, readSize t.reshapeDims d ≠ 0 := by
  obtain ⟨s, hs, _⟩ := exists_state hd hv h.describes.dims_prod_pos
  exact readSize_ne_zero hs

theorem value_of_multiple {c : Int} (hk : k < t.dims.prod)
    (hc : c * (t.transposePerm.reverse.map (readSize t.reshapeDims)).prod = k) : g k = 0 := by
  obtain ⟨s, hs, hg⟩ := exists_state hd hv hk
  rw [← hc, foldlM_digit_multiple c (readSizes_ne_zero h hd hv)] at hs
  obtain rfl := Option.some.inj hs
  exact Option.some.inj (hg.symm.trans (value_replicate_zero h.ne_nil))

-- A dimension is read with a smaller size.
theorem exists_of_prod_lt (hl : (t.transposePerm.reverse.map (readSize t.reshapeDims)).prod.natAbs < t.dims.prod) :
    ∃ k, 0 < k ∧ k < t.dims.prod ∧ g k ≤ 0 := by
  have hz : (t.transposePerm.reverse.map (readSize t.reshapeDims)).prod ≠ 0 := by
    apply List.prod_ne_zero
    intro hm
    obtain ⟨d, hd', hz⟩ := List.mem_map.mp hm
    exact readSizes_ne_zero h hd hv d hd' hz
  have hc := Int.sign_mul_self_eq_natAbs (t.transposePerm.reverse.map (readSize t.reshapeDims)).prod
  exact ⟨_, Int.natAbs_pos.mpr hz, hl, (value_of_multiple h hd hv hl hc).le⟩

omit hd hv in
theorem natAbs_prod_readSize (he : ∀ d ∈ t.transposePerm, (readSize t.reshapeDims d).natAbs = t.reshapeDims.getD d 0) :
    (t.transposePerm.reverse.map (readSize t.reshapeDims)).prod.natAbs = t.dims.prod := by
  have hm : (t.transposePerm.reverse.map (readSize t.reshapeDims)).map Int.natAbs =
      t.transposePerm.reverse.map (t.reshapeDims.getD · 0) := by
    rw [List.map_map, List.map_inj_left]
    intro d hd
    rw [Function.comp_apply, he d (List.mem_reverse.mp hd)]
  rw [natAbs_prod, hm, (map_reverse_perm h).prod_eq, h.describes.prod]

-- All dimensions are read with the right size, but one of them is negated.
theorem exists_of_neg (hN : Normal t.view) {us ws : List Nat} {p : Nat} (ho : t.OverflowsAt us p ws)
    (he : ∀ d ∈ t.transposePerm, (readSize t.reshapeDims d).natAbs = t.reshapeDims.getD d 0) :
    ∃ k, 0 < k ∧ k < t.dims.prod ∧ g k ≤ 0 := by
  have h₂ := hN.two_le_sizes h.describes.perm
  have hz := readSizes_ne_zero h hd hv
  have hsize (d : Nat) (hm : d ∈ t.transposePerm) : t.reshapeDims.getD d 0 = t.reshapeDims.getD d 1 ∧
      2 ≤ t.reshapeDims.getD d 0 := by
    obtain ⟨hl, _, hg⟩ := h.size_pos hm
    refine ⟨hg, ?_⟩
    rw [List.getD_eq_getElem _ _ hl]
    exact h₂ _ (List.getElem_mem hl)
  have hle : 2 ^ 31 ≤ t.reshapeDims.getD p 0 := (hsize p ho.mem).1.symm ▸ ho.le
  obtain ⟨hab, hneg⟩ := natAbs_toInt hle
  rw [← readSize, he p ho.mem] at hab hneg
  have hneg := hneg rfl
  have hus : us ≠ [] := by
    intro hu
    have hlt := ho.lt hu
    rw [← (hsize p ho.mem).1] at hlt
    exact absurd hab (Nat.not_le.mpr hlt)
  obtain ⟨us, q, rfl⟩ := List.eq_nil_or_concat' us |>.resolve_left hus
  have hq : q ∈ t.transposePerm := by simp [ho.perm]
  have hpos : ∀ w ∈ ws, 0 < readSize t.reshapeDims w := by
    intro w hw
    have hm : w ∈ t.transposePerm := by simp [ho.perm, hw]
    obtain ⟨hs, h₂⟩ := hsize w hm
    rw [readSize, toInt_of_lt (hs ▸ ho.minor w hw)]
    omega
  have hP : ((p :: ws).reverse.map (readSize t.reshapeDims)).prod < 0 := by
    rw [((List.reverse_perm _).map _).prod_eq, List.map_cons, List.prod_cons]
    refine mul_neg_of_neg_of_pos hneg (List.prod_pos fun x hx => ?_)
    obtain ⟨w, hw, rfl⟩ := List.mem_map.mp hx
    exact hpos w hw
  have hk : (-1) * ((p :: ws).reverse.map (readSize t.reshapeDims)).prod =
      (((p :: ws).reverse.map (readSize t.reshapeDims)).prod.natAbs : Int) := by
    omega
  have hr : t.transposePerm.reverse = (p :: ws).reverse ++ q :: us.reverse := by
    rw [ho.perm]
    simp
  have hm : 2 ≤ (readSize t.reshapeDims q).natAbs := by
    rw [he q hq]
    exact (hsize q hq).2
  have hlt : ((p :: ws).reverse.map (readSize t.reshapeDims)).prod.natAbs < t.dims.prod := by
    have hn := natAbs_prod_readSize h he
    have h₀ := h.describes.dims_prod_pos
    rw [hr, List.map_append, List.prod_append, Int.natAbs_mul, List.map_cons, List.prod_cons, Int.natAbs_mul] at hn
    have hu : 0 < (us.reverse.map (readSize t.reshapeDims)).prod.natAbs := by
      refine Nat.pos_of_ne_zero fun hz => ?_
      rw [hz, Nat.mul_zero, Nat.mul_zero] at hn
      omega
    rw [← hn]
    exact (Nat.lt_mul_iff_one_lt_right (Int.natAbs_pos.mpr hP.ne)).mpr (hm.trans (Nat.le_mul_of_pos_right _ hu))
  refine ⟨_, Int.natAbs_pos.mpr hP.ne, hlt, ?_⟩
  obtain ⟨s, hs, hg⟩ := exists_state hd hv hlt
  have hqz : readSize t.reshapeDims q ≠ 0 := by omega
  rw [hr, ← hk, List.foldlM_append, foldlM_digit_multiple (-1) fun d hd => hz d (hr ▸ List.mem_append_left _ hd),
    Option.bind_eq_bind, Option.bind_some, List.foldlM_cons, digit_eq, if_neg hqz, Option.bind_eq_bind,
    Option.bind_some] at hs
  have hdiv : (-1 : Int).tdiv (readSize t.reshapeDims q) = 0 ∧ (-1 : Int).tmod (readSize t.reshapeDims q) = -1 :=
    tdiv_tmod_of_natAbs_lt hm
  have hset : ∀ e ∈ us.reverse, ((List.replicate t.reshapeDims.length 0).set q (-1)).set e 0 =
      (List.replicate t.reshapeDims.length (0 : Int)).set q (-1) := by
    intro e he
    have hn : t.transposePerm.Nodup := h.describes.perm.nodup_iff.mpr List.nodup_range
    rw [ho.perm] at hn
    have hne := (List.nodup_append.mp (List.nodup_append.mp hn).1).2.2 e (List.mem_reverse.mp he) q (.head _)
    rw [List.set_comm _ _ hne.symm, set_replicate_zero]
  rw [hdiv.1, hdiv.2] at hs
  obtain hn | hn := @foldlM_digit_zero t.reshapeDims _ _ hset
  case inl => cases hn.symm.trans hs
  case inr =>
    obtain rfl := Option.some.inj (hn.symm.trans hs)
    rw [value_set h.ne_nil (h.size_pos hq).1] at hg
    have := prod_drop_pos (d := q + 1) h₂
    rw [← Option.some.inj hg, stride]
    omega

theorem exists_value_le_zero (hf : ¬FitsInt t.view) : ∃ k, 0 < k ∧ k < t.dims.prod ∧ g k ≤ 0 := by
  have hN : Normal t.view := by
    obtain hN | ⟨hr, hp⟩ := h.normal
    case inl => exact hN
    case inr => exact absurd (by simp [view, hr, hp, permuted, axis, FitsInt]) hf
  have hpos : ∀ d ∈ t.transposePerm.reverse, 0 < t.reshapeDims.getD d 0 := by
    intro d hm
    obtain ⟨_, hs, hg⟩ := h.size_pos (List.mem_reverse.mp hm)
    exact hg.symm ▸ hs
  obtain hlt | he := prod_lt_or_eq hpos fun d _ => @natAbs_readSize_le t.reshapeDims d
  case inl =>
    rw [(map_reverse_perm h).prod_eq, h.describes.prod] at hlt
    apply exists_of_prod_lt h hd hv
    rwa [natAbs_prod, List.map_map]
  case inr =>
    obtain ⟨us, p, ws, ho⟩ := exists_overflowsAt h hf
    exact exists_of_neg h hd hv hN ho fun d hm => he d (List.mem_reverse.mpr hm)

theorem value_zero : g 0 = 0 :=
  value_of_multiple h hd hv h.describes.dims_prod_pos (Int.zero_mul _)

end Lookup

end Overflow

theorem exists_valueAt_ne (h : t.Canonical) (hd : t.dims ≠ []) (hf : ¬FitsInt t.view) :
    ∃ index, InBounds t.dims index ∧ t.valueAt index ≠ some (offset t.view (ravel t.dims index) : Int) := by
  by_contra hn
  push Not at hn
  have hv (k : Nat) (hk : k < t.dims.prod) : t.valueAt (digits t.dims k) = some (offset t.view k : Int) := by
    rw [hn _ (digits_inBounds hk), ravel_digits hk]
  obtain ⟨k, h₀, hk, hle⟩ := exists_value_le_zero h hd hv hf
  have hp := h.describes.perm
  have hi := inverse_offset hp (h.describes.prod ▸ hk)
  have hz : offset t.view k = 0 := by omega
  rw [view] at hz
  rw [hz, offset_zero] at hi
  omega

-- The iota form denotes the array that reshapes an iota array, transposes it and reshapes the result, and
-- its elements can be looked up.
def MatchesDenseMeaning (dims reshapeDims transposePerm : List Nat) : Prop :=
  ∃ t a, create dims reshapeDims transposePerm = some t ∧
    Array.IsTranspose (Array.iota reshapeDims 0) transposePerm a ∧
    t.toArray = some { a with sizes := dims } ∧
    ∀ index, InBounds dims index → t.valueAt index = Array.get { a with sizes := dims } index

variable {transposePerm : List Nat}

theorem get_deviceArray {v : View} (hb : InBounds dims index) :
    (deviceArray dims v).get index = some (offset v (ravel dims index) : Int) := by
  have hr : (deviceArray dims v).calculateIndex index = ravel dims index := Array.calculateIndex_eq_ravel hb
  rw [Array.get, hr, getElem?_deviceArray hb.ravel_lt]

theorem fitsInt_view_iff (h : Describes dims reshapeDims transposePerm) (ht : t.Canonical)
    (hs : Same t.view (permuted reshapeDims transposePerm)) :
    FitsInt t.view ↔ FitsInt (View.normalize (permuted reshapeDims transposePerm)) := by
  have hpos : ∀ a ∈ permuted reshapeDims transposePerm, 0 < a.size := by
    intro a ha
    obtain ⟨d, hd, rfl⟩ := List.mem_map.mp ha
    have hl : d < reshapeDims.length := List.mem_range.mp (h.perm.mem_iff.mp hd)
    simpa [axis, hl] using h.reshape_pos _ (List.getElem_mem hl)
  obtain hN | ⟨hr, hp⟩ := ht.normal
  case inl =>
    have he : t.view = _ := hN.eq_normalize hs hpos
    rw [he]
  case inr =>
    have hv : t.view = [⟨1, 1⟩] := by
      rw [view, hr, hp]
      rfl
    have hn : View.normalize (permuted reshapeDims transposePerm) = [] := by
      refine Eq.symm (Normal.eq_normalize ⟨by simp, by simp⟩ ?_ hpos)
      exact (same_one rfl).symm.trans (hv ▸ hs)
    simp [hv, hn, FitsInt]

theorem MatchesDenseMeaning.intro (h : Describes dims reshapeDims transposePerm) (hr : reshapeDims ≠ [])
    (hd : dims ≠ []) (hf : FitsInt (View.normalize (permuted reshapeDims transposePerm))) :
    MatchesDenseMeaning dims reshapeDims transposePerm := by
  obtain ⟨t, hc, rfl, ht, hs⟩ := create_spec h hr
  have ha : deviceArray t.dims t.view = _ := deviceArray_congr hs ht.describes.numElements_eq
  have hp : (transposePerm.map (reshapeDims.getD · 1)).prod = t.dims.prod :=
    (Array.prod_map_dim (a := Array.iota reshapeDims 0) h.perm).trans h.prod
  have hg := (h.gathers_iff).mpr rfl
  have he : ({ deviceArray (transposePerm.map (reshapeDims.getD · 1)) (permuted reshapeDims transposePerm) with
      sizes := t.dims } : Array Int) = deviceArray t.dims (permuted reshapeDims transposePerm) := by
    rw [deviceArray, deviceArray, hp]
  refine ⟨t, _, hc, hg.isTranspose h.perm, ?_, fun index hb => ?_⟩
  · rw [ht.toArray_eq, ha, he]
  · rw [he, ← ha, get_deviceArray hb]
    exact valueAt_of_fits ht hd ((fitsInt_view_iff h ht hs).mpr hf) hb

theorem MatchesDenseMeaning.dims_ne_nil (hm : MatchesDenseMeaning dims reshapeDims transposePerm)
    (h : Describes dims reshapeDims transposePerm) : dims ≠ [] := by
  rintro rfl
  obtain ⟨t, a, hc, ht, _, hv⟩ := hm
  have hr : reshapeDims ≠ [] := by
    rintro rfl
    obtain rfl : transposePerm = [] := by simpa using h.perm.length_eq
    simp [create_nil] at hc
  obtain ⟨t', hc', hd, _, _⟩ := create_spec h hr
  obtain rfl : t' = t := Option.some.inj (hc'.symm.trans hc)
  have hv := hv [] .nil
  have hn : t'.valueAt [] = none := by
    rw [IotaTileAssignment.valueAt, hd]
    rfl
  have hl : 0 < a.values.length := by
    have hp : (transposePerm.map (reshapeDims.getD · 1)).prod = reshapeDims.prod :=
      Array.prod_map_dim (a := Array.iota reshapeDims 0) h.perm
    have hs : a.sizes.prod = reshapeDims.prod := by rw [ht.sizes]; exact hp
    rw [ht.valid.length_values, hs, h.prod]
    exact Nat.one_pos
  rw [hn] at hv
  have hz : none = a.values[0]? := hv
  exact absurd hl (Nat.not_lt_of_le (List.getElem?_eq_none_iff.mp hz.symm))

theorem MatchesDenseMeaning.fitsInt (hm : MatchesDenseMeaning dims reshapeDims transposePerm)
    (h : Describes dims reshapeDims transposePerm) :
    reshapeDims ≠ [] ∧ FitsInt (View.normalize (permuted reshapeDims transposePerm)) := by
  have hd := hm.dims_ne_nil h
  obtain ⟨t, a, hc, ht, ha, hv⟩ := hm
  have hr : reshapeDims ≠ [] := by
    rintro rfl
    obtain rfl : transposePerm = [] := by simpa using h.perm.length_eq
    simp [create_nil] at hc
  obtain ⟨t', hc', rfl, ht', hs⟩ := create_spec h hr
  obtain rfl : t' = t := Option.some.inj (hc'.symm.trans hc)
  refine ⟨hr, ?_⟩
  by_contra hf
  rw [← fitsInt_view_iff h ht' hs] at hf
  obtain ⟨index, hb, hne⟩ := exists_valueAt_ne ht' hd hf
  rw [ht'.toArray_eq, Option.some_inj] at ha
  rw [hv index hb, ← ha, get_deviceArray hb] at hne
  exact hne rfl

-- The lookup reads the dimensions of the canonical form as `int` and requires at least one dimension.
theorem create_matchesDenseMeaning_iff (h : Describes dims reshapeDims transposePerm) :
    MatchesDenseMeaning dims reshapeDims transposePerm ↔
      dims ≠ [] ∧ reshapeDims ≠ [] ∧ FitsInt (View.normalize (permuted reshapeDims transposePerm)) :=
  ⟨fun hm => ⟨hm.dims_ne_nil h, hm.fitsInt h⟩, fun ⟨hd, hr, hf⟩ => .intro h hr hd hf⟩

theorem create_matchesDenseMeaning_iff_transposed :
    MatchesDenseMeaning [4, 3] [3, 1, 4] [2, 0, 1] ↔
      [4, 3] ≠ [] ∧ [3, 1, 4] ≠ [] ∧ FitsInt (View.normalize (permuted [3, 1, 4] [2, 0, 1])) :=
  create_matchesDenseMeaning_iff ⟨by decide, by decide, by decide, rfl⟩

-- A dimension of `2 ^ 32` is read as zero.
theorem not_matchesDenseMeaning_large : ¬MatchesDenseMeaning [2 ^ 32] [2 ^ 32] [0] := by
  intro hm
  have h : Describes [2 ^ 32] [2 ^ 32] [0] := ⟨by simp, by simp, by decide, rfl⟩
  have hf := (hm.fitsInt h).2
  simp [permuted, axis, View.normalize, View.merge, FitsInt] at hf

end Sharding.IotaTileAssignment
