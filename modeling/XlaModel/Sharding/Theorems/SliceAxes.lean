import XlaModel.Lib.Fallible
import XlaModel.Sharding.NamedSharding
import XlaModel.Sharding.Theorems.TruncateAxes

namespace Sharding

open AxisRef

-- The exact product of the sizes, in contrast to `getShardedSize`.
def shardedSize (mesh : Mesh) (axes : List AxisRef) : Nat :=
  (axes.map (·.size mesh)).prod

-- The axes have a prefix of the given size that splits at most its last axis.
def HasPrefix (mesh : Mesh) (axes : List AxisRef) (n : Nat) : Prop :=
  ∃ front, AxesPrefix mesh front axes ∧ shardedSize mesh front = n

section Prefix

variable {mesh : Mesh} {axes : List AxisRef} {a : AxisRef} {n : Nat}

theorem shardedSize_cons : shardedSize mesh (a :: axes) = a.size mesh * shardedSize mesh axes :=
  rfl

theorem shardedSize_pos (h : ∀ a ∈ axes, 0 < a.size mesh) : 0 < shardedSize mesh axes := by
  refine List.prod_pos fun n hn => ?_
  obtain ⟨a, ha, rfl⟩ := List.mem_map.mp hn
  exact h a ha

theorem hasPrefix_one : HasPrefix mesh axes 1 :=
  ⟨[], .nil, rfl⟩

theorem hasPrefix_nil : HasPrefix mesh [] n ↔ n = 1 := by
  constructor
  case mp =>
    intro ⟨_, h, hn⟩
    cases h
    exact hn.symm
  case mpr =>
    rintro rfl
    exact hasPrefix_one

theorem hasPrefix_cons : HasPrefix mesh (a :: axes) n ↔
    n ∣ a.size mesh ∨ ∃ m, n = a.size mesh * m ∧ HasPrefix mesh axes m := by
  constructor
  case mp =>
    intro ⟨_, h, hn⟩
    cases h
    case nil        => exact .inl (hn ▸ Nat.one_dvd _)
    case part s h   =>
      left
      rw [←hn, shardedSize_cons]
      simpa [shardedSize] using h.size_dvd
    case cons front h => exact .inr ⟨_, hn.symm, front, h, rfl⟩
  case mpr =>
    intro h
    cases h
    case inl h =>
      match n with
      | 0     => exact ⟨[a], .part (.refl a), by simpa [shardedSize] using h⟩
      | 1     => exact hasPrefix_one
      | n + 2 => exact ⟨[⟨_, some ⟨_, n + 2, preSize_pos, by omega⟩⟩], .part ⟨rfl, rfl, h⟩, Nat.mul_one _⟩
    case inr h =>
      obtain ⟨m, rfl, front, h, rfl⟩ := h
      exact ⟨a :: front, .cons h, rfl⟩

end Prefix

namespace DimensionSharding

variable {mesh : Mesh} {sliced axes front back : List AxisRef} {a : AxisRef} {n m : Nat}

-- The slice `front` has the size `n` and appending the remaining axes restores the axes.
structure Sliced (mesh : Mesh) (axes : List AxisRef) (n : Nat) (front back : List AxisRef) : Prop where
  hasPrefix : AxesPrefix mesh front axes
  size_eq   : shardedSize mesh front = n
  append_eq : ∀ sliced c, (append ⟨sliced ++ front, c⟩ ⟨back, c⟩ mesh).axes = sliced ++ axes

theorem append_concat {c : Bool} : append ⟨sliced ++ [a], c⟩ ⟨back, c⟩ mesh =
    match back with
    | []        => ⟨sliced ++ [a], c⟩
    | b :: back =>
      match a.merge b mesh with
      | some merged => ⟨sliced ++ [merged] ++ back, c⟩
      | none        => ⟨sliced ++ [a] ++ [b] ++ back, c⟩ := by
  cases back
  case nil         => rfl
  case cons b back => cases hm : a.merge b mesh <;> simp [append, hm]

namespace Sliced

theorem cons (h : Sliced mesh axes n front back) : Sliced mesh (a :: axes) (a.size mesh * n) (a :: front) back where
  hasPrefix     := .cons h.hasPrefix
  size_eq       := by rw [shardedSize_cons, h.size_eq]
  append_eq s c := by
    have := h.append_eq (s ++ [a]) c
    simpa using this

theorem whole (h : ∀ b ∈ axes.head?, a.canMerge b = false) : Sliced mesh (a :: axes) (a.size mesh) [a] axes where
  hasPrefix     := .part (.refl a)
  size_eq       := Nat.mul_one _
  append_eq s c := by
    rw [append_concat]
    cases axes
    case nil       => rfl
    case cons b axes =>
      have hm : a.merge b mesh = none := by simp [merge, h b rfl]
      simp [hm]

theorem merge_split (ha : a.Valid mesh) (hn : 1 < n) (hd : n ∣ a.size mesh) (hp : 0 < a.preSize * n)
    (hq : 1 < a.size mesh / n) :
    AxisRef.merge ⟨a.meshAxisIndex, some ⟨a.preSize, n, preSize_pos, hn⟩⟩
      ⟨a.meshAxisIndex, some ⟨a.preSize * n, a.size mesh / n, hp, hq⟩⟩ mesh = some a := by
  have hsize := Nat.mul_div_cancel' hd
  rcases a with ⟨i, _ | sub⟩
  case none =>
    have hsize : n * (mesh.axisSize i / n) = mesh.axisSize i := hsize
    simp [merge, canMerge, SubAxis.nextPreSize, SubAxis.mulSize, AxisRef.size, hsize]
  case some =>
    have hsize : n * (sub.size / n) = sub.size := hsize
    have hlt : sub.size ≠ mesh.axisSize i := (ha.size_lt rfl).ne
    simp [merge, canMerge, SubAxis.nextPreSize, SubAxis.mulSize, AxisRef.size, AxisRef.preSize, hsize, hlt]

-- An axis is split and its parts can be merged again.
theorem split (ha : a.Valid mesh) (hn : 1 < n) (hd : n ∣ a.size mesh) (hq : 1 < a.size mesh / n) :
    Sliced mesh (a :: axes) n
      [⟨a.meshAxisIndex, some ⟨a.preSize, n, preSize_pos, hn⟩⟩]
      (⟨a.meshAxisIndex, some ⟨a.preSize * n, a.size mesh / n, Nat.mul_pos preSize_pos (Nat.zero_lt_of_lt hn), hq⟩⟩ :: axes) where
  hasPrefix     := .part ⟨rfl, rfl, hd⟩
  size_eq       := Nat.mul_one _
  append_eq s c := by
    simp [append_concat, merge_split ha hn hd _ hq]

end Sliced

-- The axes are valid axes of the mesh, no mesh axis is empty, and no neighbors can be merged.
structure ValidAxes (mesh : Mesh) (axes : List AxisRef) : Prop where
  valid     : ∀ a ∈ axes, a.Valid mesh
  size_pos  : ∀ a ∈ axes, 0 < a.size mesh
  neighbors : axes.IsChain fun a b => a.canMerge b = false

namespace ValidAxes

theorem tail (h : ValidAxes mesh (a :: axes)) : ValidAxes mesh axes where
  valid     := (List.forall_mem_cons.mp h.valid).2
  size_pos  := (List.forall_mem_cons.mp h.size_pos).2
  neighbors := h.neighbors.tail

theorem head_neighbors (h : ValidAxes mesh (a :: axes)) : ∀ b ∈ axes.head?, a.canMerge b = false := by
  have := List.isChain_cons.mp h.neighbors
  exact this.1

end ValidAxes

theorem natCast_tmod_eq_zero_iff {x y : Nat} : Int.tmod x y = 0 ↔ y ∣ x := by
  rw [←Int.dvd_iff_tmod_eq_zero, Int.natCast_dvd_natCast]

-- A positive slice size is found iff it is the size of a prefix.
theorem sliceAxes_cases (h : ValidAxes mesh axes) (hn : 1 < n) (sliced : List AxisRef) :
    (∃ front back, sliceAxes mesh sliced axes n = some (some (sliced ++ front, back)) ∧
      Sliced mesh axes n front back) ∨
    sliceAxes mesh sliced axes n = some none ∧ ¬HasPrefix mesh axes n := by
  induction axes generalizing sliced n
  case nil =>
    have hn₁ : (n : Int) ≠ 1 := by omega
    refine .inr ⟨by simp [sliceAxes, hn₁], fun h => ?_⟩
    exact hn.ne' (hasPrefix_nil.mp h)
  case cons a axes hi =>
    have hs : 0 < a.size mesh := h.size_pos a List.mem_cons_self
    have hs' : (a.size mesh : Int) ≠ 0 := by omega
    unfold sliceAxes
    by_cases heq : n = a.size mesh
    case pos => exact .inl ⟨[a], axes, by simp [heq], heq ▸ .whole h.head_neighbors⟩
    case neg =>
      have heq' : (n : Int) ≠ a.size mesh := by omega
      simp only [heq', hs', if_false, natCast_tmod_eq_zero_iff]
      by_cases hd : a.size mesh ∣ n
      case pos =>
        obtain ⟨m, rfl⟩ := hd
        have hm : 1 < m := by
          have hm₀ : m ≠ 0 := by rintro rfl; simp at hn
          have hm₁ : m ≠ 1 := by rintro rfl; simp at heq
          omega
        rw [if_pos (Nat.dvd_mul_right ..), ←Int.ofNat_tdiv, Nat.mul_div_cancel_left _ hs]
        refine (hi h.tail hm (sliced ++ [a])).imp ?_ ?_
        · intro ⟨front, back, h, hsliced⟩
          exact ⟨a :: front, back, by simpa using h, hsliced.cons⟩
        · refine fun ⟨h, hp⟩ => ⟨h, fun hp' => ?_⟩
          cases hasPrefix_cons.mp hp'
          case inl hdvd => exact heq (Nat.dvd_antisymm hdvd (Nat.dvd_mul_right ..))
          case inr h =>
            obtain ⟨m', he, h⟩ := h
            exact hp (Nat.eq_of_mul_eq_mul_left hs he ▸ h)
      case neg =>
        simp only [hd, if_false]
        by_cases hd' : n ∣ a.size mesh
        case pos =>
          have hq : 1 < a.size mesh / n := by
            obtain ⟨k, hk⟩ := hd'
            have hk₀ : k ≠ 0 := by rintro rfl; omega
            have hk₁ : k ≠ 1 := by rintro rfl; omega
            rw [hk, Nat.mul_div_cancel_left _ (Nat.zero_lt_of_lt hn)]
            omega
          have hp : 0 < a.preSize * n := Nat.mul_pos preSize_pos (Nat.zero_lt_of_lt hn)
          rw [if_pos hd', ←Int.natCast_mul, ←Int.ofNat_tdiv, ofSubAxis_natCast preSize_pos hn, ofSubAxis_natCast hp hq]
          exact .inl ⟨_, _, rfl, .split (h.valid a List.mem_cons_self) hn hd' hq⟩
        case neg =>
          refine .inr ⟨by simp [hd'], fun h => ?_⟩
          cases hasPrefix_cons.mp h
          case inl h => exact hd' h
          case inr h => exact hd ⟨_, h.choose_spec.1⟩

-- A negative slice size fails the `CHECK` for the size of a slice iff a proper prefix has its absolute value.
theorem sliceAxes_neg (hs : ∀ a ∈ axes, 0 < a.size mesh) (hn : 0 < n) (sliced : List AxisRef) :
    (sliceAxes mesh sliced axes (-n) = none ∧ HasPrefix mesh axes n ∧ n < shardedSize mesh axes) ∨
    (sliceAxes mesh sliced axes (-n) = some none ∧ ¬(HasPrefix mesh axes n ∧ n < shardedSize mesh axes)) := by
  induction axes generalizing sliced n
  case nil =>
    have hn₁ : (-n : Int) ≠ 1 := by omega
    refine .inr ⟨by simp [sliceAxes, hn₁], fun h => ?_⟩
    have : n < 1 := h.2
    omega
  case cons a axes hi =>
    have ⟨hs, hss⟩ := List.forall_mem_cons.mp hs
    have hs' : (a.size mesh : Int) ≠ 0 := by omega
    have hne : (-n : Int) ≠ a.size mesh := by omega
    unfold sliceAxes
    simp only [hne, hs', if_false, Int.neg_tmod, Int.tmod_neg, Int.neg_eq_zero, natCast_tmod_eq_zero_iff]
    by_cases hd : a.size mesh ∣ n
    case pos =>
      obtain ⟨m, rfl⟩ := hd
      have hm : 0 < m := Nat.pos_of_mul_pos_left hn
      rw [if_pos (Nat.dvd_mul_right ..), Int.neg_tdiv, ←Int.ofNat_tdiv, Nat.mul_div_cancel_left _ hs]
      have hiff : HasPrefix mesh (a :: axes) (a.size mesh * m) ∧ a.size mesh * m < shardedSize mesh (a :: axes) ↔
          HasPrefix mesh axes m ∧ m < shardedSize mesh axes := by
        rw [shardedSize_cons, Nat.mul_lt_mul_left hs, hasPrefix_cons]
        refine and_congr_left fun _ => ⟨fun h => ?_, fun h => .inr ⟨m, rfl, h⟩⟩
        cases h
        case inl h =>
          have hm₁ : m ∣ 1 := Nat.dvd_of_mul_dvd_mul_left hs (by rwa [Nat.mul_one])
          exact Nat.dvd_one.mp hm₁ ▸ hasPrefix_one
        case inr h =>
          obtain ⟨m', he, h⟩ := h
          exact Nat.eq_of_mul_eq_mul_left hs he ▸ h
      rw [hiff]
      exact hi hss hm (sliced ++ [a])
    case neg =>
      simp only [hd, if_false]
      by_cases hd' : n ∣ a.size mesh
      case pos =>
        refine .inl ⟨by simp [hd', ofSubAxis], hasPrefix_cons.mpr (.inl hd'), ?_⟩
        have hlt : n < a.size mesh := by
          refine lt_of_le_of_ne (Nat.le_of_dvd hs hd') ?_
          rintro rfl
          exact hd dvd_rfl
        exact hlt.trans_le (Nat.le_mul_of_pos_right _ (shardedSize_pos hss))
      case neg =>
        refine .inr ⟨by simp [hd'], fun h => ?_⟩
        cases hasPrefix_cons.mp h.1
        case inl h => exact hd' h
        case inr h => exact hd ⟨_, h.choose_spec.1⟩

-- No mesh axis is empty.
structure Valid (mesh : Mesh) (d : DimensionSharding) : Prop where
  axes     : validateSpanOfAxes d.axes mesh false = .ok ()
  size_pos : ∀ a ∈ d.axes, 0 < a.size mesh

theorem forM_eq_ok {f : AxisRef → Except String Unit} : axes.forM f = .ok () ↔ ∀ a ∈ axes, f a = .ok () := by
  induction axes
  case nil => simp [pure, Except.pure]
  case cons a axes hi =>
    rw [List.forall_mem_cons, ←hi]
    change (f a >>= fun _ => axes.forM f) = .ok () ↔ _
    rw [Fallible.bind_eq_ok]
    exact ⟨fun ⟨_, h⟩ => h, fun h => ⟨(), h⟩⟩

theorem checkNeighbors_eq_ok : ValidateSpanOfAxes.checkNeighbors mesh axes = .ok () ↔
    axes.IsChain fun a b => a.canMerge b = false := by
  induction axes
  case nil => simp [ValidateSpanOfAxes.checkNeighbors]
  case cons a axes hi =>
    cases axes
    case nil => simp [ValidateSpanOfAxes.checkNeighbors]
    case cons b axes =>
      rw [List.isChain_cons_cons, ←hi, ValidateSpanOfAxes.checkNeighbors]
      cases a.canMerge b <;> simp

theorem Valid.validAxes {d : DimensionSharding} (h : d.Valid mesh) : ValidAxes mesh d.axes := by
  have ha := h.axes
  unfold validateSpanOfAxes at ha
  obtain ⟨_, hv, ha⟩ := Fallible.bind_eq_ok.mp ha
  refine ⟨forM_eq_ok.mp hv, h.size_pos, (@checkNeighbors_eq_ok mesh d.axes).mp ?_⟩
  cases hc : axesCanCoexistWithoutOverlap d.axes
  case false => simp [hc, throw, throwThe, MonadExceptOf.throw, bind, Except.bind] at ha
  case true  => simpa [hc] using ha

variable {d : DimensionSharding}

theorem append_nil {c : Bool} : (append ⟨[], c⟩ d mesh).axes = d.axes := by
  unfold append
  cases d.axes <;> rfl

-- The slice is a prefix of the given size, and nothing changes if there is no such prefix.
def SlicesPrefix (mesh : Mesh) (d : DimensionSharding) (sliceSize : Int) : Prop :=
  ∃ result remaining, d.slice mesh sliceSize = some (result, remaining) ∧
    (result.isSome ↔ ∃ n : Nat, sliceSize = n ∧ HasPrefix mesh d.axes n) ∧
    (∀ s, result = some s → shardedSize mesh s.axes = sliceSize ∧ (s.append remaining mesh).axes = d.axes) ∧
    (result = none → remaining = d)

theorem slicesPrefix_one : SlicesPrefix mesh d 1 := by
  refine ⟨some ⟨[], d.isClosed⟩, d, rfl, ?slice, ?remainder, by simp⟩
  case slice => exact ⟨fun _ => ⟨1, rfl, hasPrefix_one⟩, fun _ => rfl⟩
  case remainder =>
    intro s hs
    obtain rfl := Option.some.inj hs
    exact ⟨rfl, append_nil⟩

theorem slice_of_not_dvd (h₀ : i ≠ 0) (h₁ : i ≠ 1) (hd : ¬i ∣ d.getShardedSize mesh) : d.slice mesh i = some (none, d) := by
  rw [slice, if_neg h₁, if_neg h₀, if_pos (Int.dvd_iff_tmod_eq_zero.not.mp hd)]

theorem slice_of_dvd (h₀ : i ≠ 0) (h₁ : i ≠ 1) (hd : i ∣ d.getShardedSize mesh) : d.slice mesh i =
    (sliceAxes mesh [] d.axes i).map fun
      | none                             => (none, d)
      | some (slicedAxes, remainingAxes) => (some ⟨slicedAxes, d.isClosed⟩, ⟨remainingAxes, d.isClosed⟩) := by
  rw [slice, if_neg h₁, if_neg h₀, if_neg (not_not.mpr (Int.dvd_iff_tmod_eq_zero.mp hd))]
  rcases sliceAxes mesh [] d.axes i with _ | _ | _ <;> rfl

theorem slicesPrefix_of_none (hs : d.slice mesh i = some (none, d)) :
    SlicesPrefix mesh d i ↔ ∀ n : Nat, i = n → ¬HasPrefix mesh d.axes n := by
  constructor
  case mp =>
    intro ⟨result, _, h, hi, _⟩ n hn hp
    obtain ⟨rfl, _⟩ := Prod.mk.inj (Option.some.inj (hs.symm.trans h))
    simpa using hi.mpr ⟨n, hn, hp⟩
  case mpr =>
    intro h
    refine ⟨none, d, hs, ⟨by simp, fun ⟨n, hn, hp⟩ => absurd hp (h n hn)⟩, by simp, fun _ => rfl⟩

theorem slicesPrefix_pos (h : d.Valid mesh) (hn : 1 < n) :
    SlicesPrefix mesh d n ↔ (HasPrefix mesh d.axes n → (n : Int) ∣ d.getShardedSize mesh) := by
  have hn₀ : (n : Int) ≠ 0 := by omega
  have hn₁ : (n : Int) ≠ 1 := by omega
  have hnone (hs : d.slice mesh n = some (none, d)) : SlicesPrefix mesh d n ↔ ¬HasPrefix mesh d.axes n := by
    rw [slicesPrefix_of_none hs]
    exact ⟨fun h => h n rfl, fun h m hm => Int.ofNat_inj.mp hm ▸ h⟩
  by_cases hd : (n : Int) ∣ d.getShardedSize mesh
  case neg =>
    rw [hnone (slice_of_not_dvd hn₀ hn₁ hd)]
    exact ⟨fun h hp => absurd hp h, fun h hp => hd (h hp)⟩
  case pos =>
    refine ⟨fun _ _ => hd, fun _ => ?_⟩
    have hs := slice_of_dvd hn₀ hn₁ hd
    cases sliceAxes_cases h.validAxes hn []
    case inl h =>
      obtain ⟨front, back, h, hsl⟩ := h
      refine ⟨some ⟨front, d.isClosed⟩, ⟨back, d.isClosed⟩, by rw [hs, h]; rfl, ?slice, ?remainder, by simp⟩
      case slice => exact ⟨fun _ => ⟨n, rfl, front, hsl.hasPrefix, hsl.size_eq⟩, fun _ => rfl⟩
      case remainder =>
        intro s hs'
        obtain rfl := Option.some.inj hs'
        exact ⟨congrArg Nat.cast hsl.size_eq, hsl.append_eq [] d.isClosed⟩
    case inr h =>
      rw [hnone (by rw [hs, h.1]; rfl)]
      exact h.2

theorem slicesPrefix_neg (h : d.Valid mesh) (hn : 0 < n) : SlicesPrefix mesh d (-n) ↔
    (HasPrefix mesh d.axes n → n < shardedSize mesh d.axes → ¬(-n : Int) ∣ d.getShardedSize mesh) := by
  have hn₀ : (-n : Int) ≠ 0 := by omega
  have hn₁ : (-n : Int) ≠ 1 := by omega
  have hnone (hs : d.slice mesh (-n) = some (none, d)) : SlicesPrefix mesh d (-n) :=
    slicesPrefix_of_none hs |>.mpr fun m hm => by omega
  by_cases hd : (-n : Int) ∣ d.getShardedSize mesh
  case neg => exact ⟨fun _ _ _ => hd, fun _ => hnone (slice_of_not_dvd hn₀ hn₁ hd)⟩
  case pos =>
    have hs := slice_of_dvd hn₀ hn₁ hd
    cases sliceAxes_neg h.size_pos hn []
    case inl h =>
      refine ⟨fun ⟨_, _, hs', _⟩ => ?_, fun h' => absurd hd (h' h.2.1 h.2.2)⟩
      rw [hs, h.1] at hs'
      contradiction
    case inr h => exact ⟨fun _ hp hlt => absurd ⟨hp, hlt⟩ h.2, fun _ => hnone (by rw [hs, h.1]; rfl)⟩

-- The size of a prefix has to divide the sharded size, which is computed in an `int`. A division by zero
-- and the `CHECK` of a negative size have to be avoided.
theorem slice_iff (h : d.Valid mesh) (sliceSize : Int) : SlicesPrefix mesh d sliceSize ↔
    sliceSize ≠ 0 ∧
    (∀ n : Nat, sliceSize = n → HasPrefix mesh d.axes n → sliceSize ∣ d.getShardedSize mesh) ∧
    (∀ n : Nat, sliceSize = -n → HasPrefix mesh d.axes n → n < shardedSize mesh d.axes →
      ¬sliceSize ∣ d.getShardedSize mesh) := by
  obtain rfl | h₀ := eq_or_ne sliceSize 0
  case inl => exact ⟨fun ⟨_, _, hs, _⟩ => by simp [slice] at hs, fun h => absurd rfl h.1⟩
  case inr =>
    obtain ⟨n, rfl | rfl⟩ := sliceSize.eq_nat_or_neg
    case inl =>
      obtain rfl | hn := eq_or_ne n 1
      case inl => exact ⟨fun _ => ⟨h₀, fun _ _ _ => one_dvd _, fun _ _ _ => by omega⟩, fun _ => slicesPrefix_one⟩
      case inr =>
        rw [slicesPrefix_pos h (by omega)]
        constructor
        case mp => exact fun hd => ⟨h₀, fun m hm hp => hd (Int.ofNat_inj.mp hm ▸ hp), fun _ _ => by omega⟩
        case mpr => exact fun hd => hd.2.1 n rfl
    case inr =>
      rw [slicesPrefix_neg h (by omega)]
      constructor
      case mp =>
        refine fun hd => ⟨h₀, fun _ _ => by omega, fun m hm hp => ?_⟩
        obtain rfl : n = m := by omega
        exact hd hp
      case mpr => exact fun hd => hd.2.2 n rfl

theorem slice_iff_four : SlicesPrefix (singleAxisMesh 8) ⟨[⟨0, none⟩], true⟩ 4 := by
  have h : Valid (singleAxisMesh 8) ⟨[⟨0, none⟩], true⟩ := ⟨rfl, by decide⟩
  refine slice_iff h 4 |>.mpr ⟨by decide, fun _ _ _ => ?_, fun n hn => by omega⟩
  decide

-- The product is negative as an `int`, so it is not divisible by three.
theorem slice_large : Valid (singleAxisMesh (3 * 2 ^ 30)) ⟨[⟨0, none⟩], true⟩ ∧
    HasPrefix (singleAxisMesh (3 * 2 ^ 30)) [⟨0, none⟩] 3 ∧
    slice ⟨[⟨0, none⟩], true⟩ (singleAxisMesh (3 * 2 ^ 30)) 3 = some (none, ⟨[⟨0, none⟩], true⟩) := by
  refine ⟨⟨rfl, by decide⟩, hasPrefix_cons.mpr (.inl ⟨2 ^ 30, rfl⟩), ?_⟩
  decide

end DimensionSharding

end Sharding
