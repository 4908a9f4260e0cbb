import XlaModel.Lib.Fallible
import XlaModel.Sharding.Proto
import XlaModel.Sharding.HloSharding
import XlaModel.Sharding.Theorems.TileAssignment

namespace Sharding

open Fallible HloSharding HloSharding.FromProto

abbrev FitsInt64 (n : Int) : Prop :=
  -2 ^ 63 ≤ n ∧ n < 2 ^ 63

-- No multiplication of the product from left to right overflows.
def NoOverflow (dims : List Int) : Prop :=
  ∀ xs, xs <+: dims → FitsInt64 xs.prod

theorem FitsInt64.bmod {n : Int} (h : FitsInt64 n) : n.bmod (2 ^ 64) = n := by
  obtain ⟨h₁, h₂⟩ := h
  apply Int.bmod_eq_of_le <;> omega

theorem NoOverflow.fits {dims : List Int} (h : NoOverflow dims) : FitsInt64 dims.prod :=
  h dims (List.prefix_refl dims)

theorem NoOverflow.nil : NoOverflow [] := by
  intro xs h
  obtain rfl := List.prefix_nil.mp h
  decide

theorem NoOverflow.of_prod {dims : List Int} (h₀ : 0 < dims.prod) (h : FitsInt64 dims.prod) : NoOverflow dims := by
  rintro xs ⟨ys, rfl⟩
  have hd : xs.prod ∣ (xs ++ ys).prod := Dvd.intro ys.prod List.prod_append.symm
  have h₁ := Int.le_of_dvd h₀ hd
  have h₂ := Int.le_of_dvd h₀ (Int.neg_dvd.mpr hd)
  obtain ⟨_, h⟩ := h
  constructor <;> omega

namespace HloSharding.FromProto

theorem retCheck_eq_ok {condition : Bool} : retCheck condition = .ok a ↔ condition = true := by
  cases condition <;> simp [retCheck, pure, Except.pure]

def wrappedProduct (dims : List Int) : Int :=
  dims.foldl (fun product dimension => (product * dimension).bmod (2 ^ 64)) 1

theorem foldl_multiply (p : Product) (dims : List Int) : dims.foldl multiply p =
    ⟨dims.foldl (fun product dimension => (product * dimension).bmod (2 ^ 64)) p.productOfDimensions, p.anyOverflow⟩ := by
  induction dims generalizing p
  case nil          => rfl
  case cons d ds hi => exact hi _

-- The check never fails.
theorem productNoOverflow_eq (dims : List Int) : productNoOverflow dims = .ok (wrappedProduct dims) := by
  rw [productNoOverflow, foldl_multiply]
  rfl

theorem wrappedProduct_eq {dims : List Int} (h : NoOverflow dims) : wrappedProduct dims = dims.prod := by
  induction dims using List.reverseRecOn
  case nil => rfl
  case append_singleton dims d hi =>
    have hi : wrappedProduct dims = dims.prod := hi fun xs hx => h xs (hx.trans (List.prefix_append ..))
    have hf := h.fits
    rw [List.prod_append, List.prod_singleton] at hf ⊢
    rw [wrappedProduct, List.foldl_append, List.foldl_cons, List.foldl_nil]
    change ((wrappedProduct dims) * d).bmod (2 ^ 64) = _
    rw [hi, hf.bmod]

def deviceCount (proto : OpSharding) : Int :=
  if proto.iotaReshapeDims ≠ [] then proto.iotaReshapeDims.prod else proto.tileAssignmentDevices.length

structure ChecksDimensions (proto : OpSharding) : Prop where
  pos   : ∀ d ∈ proto.tileAssignmentDimensions, 0 < d
  count : wrappedProduct proto.tileAssignmentDimensions =
    if proto.iotaReshapeDims ≠ [] then wrappedProduct proto.iotaReshapeDims else proto.tileAssignmentDevices.length

theorem checksDimensions {proto : OpSharding} (h : checkDimensions proto = .ok a) : ChecksDimensions proto := by
  simp only [checkDimensions, productNoOverflow_eq, bind_eq_ok, retCheck_eq_ok] at h
  obtain ⟨_, _, _, hp, _, heq, h⟩ := h
  refine ⟨fun d hd => by simpa using List.all_eq_true.mp hp d hd, ?_⟩
  obtain rfl := Except.ok.inj heq
  split at h
  case isTrue hi =>
    rw [if_pos hi]
    simp only [bind_eq_ok, retCheck_eq_ok, decide_eq_true_eq] at h
    obtain ⟨_, heq, h⟩ := h
    exact h.trans (Except.ok.inj heq).symm
  case isFalse hi =>
    rw [if_neg hi]
    simpa [retCheck_eq_ok] using h

theorem fromOther_checks {proto : OpSharding} {s : HloSharding} (h : fromOther proto = .ok s) (ht : s.isTiledLeaf = true) :
    ChecksDimensions proto := by
  rw [fromOther, bind_eq_ok] at h
  obtain ⟨_, _, h⟩ := h
  split at h
  case isTrue =>
    obtain rfl := Except.ok.inj h
    contradiction
  case isFalse =>
    obtain ⟨_, hd, _⟩ := bind_eq_ok.mp h
    exact checksDimensions hd

-- The device count of the exact products.
structure BoundsDeviceCount (proto : OpSharding) : Prop where
  count : proto.tileAssignmentDimensions.prod = deviceCount proto
  fits  : FitsInt64 proto.tileAssignmentDimensions.prod

theorem ChecksDimensions.bounds_iff {proto : OpSharding} (h : ChecksDimensions proto) : BoundsDeviceCount proto ↔
    NoOverflow proto.tileAssignmentDimensions ∧ NoOverflow proto.iotaReshapeDims := by
  have hpos : 0 < proto.tileAssignmentDimensions.prod := List.prod_pos h.pos
  have hcount := h.count
  constructor
  case mp =>
    intro ⟨hc, hf⟩
    refine ⟨.of_prod hpos hf, ?_⟩
    rw [deviceCount] at hc
    split at hc
    case isTrue      => exact .of_prod (hc ▸ hpos) (hc ▸ hf)
    case isFalse hnil => exact not_not.mp hnil ▸ .nil
  case mpr =>
    intro ⟨hd, hi⟩
    refine ⟨?_, hd.fits⟩
    rwa [wrappedProduct_eq hd, wrappedProduct_eq hi] at hcount

end HloSharding.FromProto

namespace HloShardingTree

theorem fromProto_other {proto : OpSharding} {s : HloSharding} (ht : proto.type = .other)
    (hn : proto.namedSharding = none) (h : fromProto proto = .ok (.leaf s g)) : fromOther proto = .ok s := by
  obtain ⟨_, _, _, _, _, _, _, _, _, _, _, _⟩ := proto
  obtain rfl := hn
  obtain rfl := ht
  rw [fromProto] at h
  obtain ⟨s', hs, h⟩ := bind_eq_ok.mp h
  cases h
  exact hs

-- A product that overflows is not rejected. The other representations of a sharding are not set.
theorem fromProto_deviceCount_iff {proto : OpSharding} {s : HloSharding} (ht : proto.type = .other)
    (hn : proto.namedSharding = none) (h : fromProto proto = .ok (.leaf s g)) (hs : s.isTiledLeaf = true) :
    BoundsDeviceCount proto ↔ NoOverflow proto.tileAssignmentDimensions ∧ NoOverflow proto.iotaReshapeDims :=
  (fromOther_checks (fromProto_other ht hn h) hs).bounds_iff

def twoDevices : OpSharding where
  type                     := .other
  tileAssignmentDimensions := [2]
  tileAssignmentDevices    := [1, 0]

theorem fromProto_deviceCount_iff_two : BoundsDeviceCount twoDevices := by
  have h : BoundsDeviceCount twoDevices ↔ _ := fromProto_deviceCount_iff rfl rfl (by rfl) rfl
  exact h.mpr ⟨.of_prod (by decide) (by decide), .nil⟩

-- The product of the iota dimensions is `2 ^ 64 + 2`.
def wrappingDevices : OpSharding where
  type                     := .other
  tileAssignmentDimensions := [2]
  iotaReshapeDims          := [3, 6148914691236517206]
  iotaTransposePerm        := [1, 0]

theorem fromProto_wrapping : ∃ s, fromProto wrappingDevices = .ok (.leaf s .notShardGroup) ∧ s.isTiledLeaf = true ∧
    ¬BoundsDeviceCount wrappingDevices := by
  refine ⟨_, by rfl, rfl, fun h => ?_⟩
  have := h.count
  contradiction

end HloShardingTree
end Sharding

namespace Sharding

open Fallible RowMajor

variable {sizes xs ys : List Nat} {k n : Nat}

theorem digits_append (hk : k < (xs ++ ys).prod) :
    digits (xs ++ ys) k = digits xs (k / ys.prod) ++ digits ys (k % ys.prod) := by
  induction xs generalizing k
  case nil =>
    have : k < ys.prod := by simpa using hk
    simp [digits, Nat.mod_eq_of_lt this]
  case cons x xs hi =>
    rw [List.cons_append, List.prod_cons] at hk
    have hp : 0 < (xs ++ ys).prod := Nat.pos_of_mul_pos_left (Nat.zero_lt_of_lt hk)
    have hd : ys.prod ∣ (xs ++ ys).prod := by
      rw [List.prod_append]
      exact Dvd.intro_left _ rfl
    have hq : k / (xs ++ ys).prod = k / ys.prod / xs.prod := by
      rw [List.prod_append, Nat.div_div_eq_div_mul, Nat.mul_comm]
    have hm : k % (xs ++ ys).prod / ys.prod = k / ys.prod % xs.prod := by
      rw [List.prod_append, Nat.mul_comm, Nat.mod_mul_right_div_self]
    rw [List.cons_append, digits, hi (Nat.mod_lt _ hp), digits, List.cons_append, Nat.mod_mod_of_dvd _ hd, hq, hm]

namespace Array

-- The index after the last one has wrapped around.
theorem nextIndex_digits (h : k < sizes.prod) :
    nextIndex sizes (digits sizes k) =
      if k + 1 < sizes.prod then (true, digits sizes (k + 1)) else (false, sizes.map fun _ => 0) := by
  induction sizes generalizing k
  case nil =>
    have : k = 0 := by simpa using h
    simp [nextIndex, digits, this]
  case cons size sizes hi =>
    rw [List.prod_cons] at h ⊢
    have hp : 0 < sizes.prod := Nat.pos_of_mul_pos_left (Nat.zero_lt_of_lt h)
    have hm := Nat.div_add_mod k sizes.prod
    rw [digits, nextIndex, hi (Nat.mod_lt _ hp)]
    have hk : k / sizes.prod < size := (Nat.div_lt_iff_lt_mul hp).mpr h
    by_cases hw : k % sizes.prod + 1 < sizes.prod
    case pos =>
      have hd : (k + 1) / sizes.prod = k / sizes.prod :=
        Nat.div_eq_of_lt_le (by rw [Nat.mul_comm]; omega) (by rw [Nat.succ_mul, Nat.mul_comm]; omega)
      have hr : (k + 1) % sizes.prod = k % sizes.prod + 1 := by
        have := Nat.div_add_mod (k + 1) sizes.prod
        rw [hd] at this
        omega
      have hlt : k + 1 < size * sizes.prod := (Nat.div_lt_iff_lt_mul hp).mp (hd ▸ hk)
      simp [hw, hlt, digits, hd, hr]
    case neg =>
      have hw' : k % sizes.prod + 1 = sizes.prod := by
        have := Nat.mod_lt k hp
        omega
      have hk' : k + 1 = sizes.prod * (k / sizes.prod + 1) := by
        rw [Nat.mul_succ]
        omega
      have hlt : k + 1 < size * sizes.prod ↔ k / sizes.prod + 1 < size := by
        rw [hk', Nat.mul_comm, Nat.mul_lt_mul_right hp]
      simp only [hw, if_false, hlt]
      split_ifs
      case pos => rw [digits, hk', Nat.mul_div_cancel_left _ hp, Nat.mul_mod_right, digits_zero]
      case neg => rfl

theorem nextIndex_append {index : List Nat} (h : index.length = xs.length) :
    nextIndex (xs ++ ys) index = nextIndex xs index := by
  induction index generalizing xs
  case nil =>
    obtain rfl := List.length_eq_zero_iff.mp h.symm
    cases ys <;> rfl
  case cons i index hi =>
    cases xs
    case nil => cases h
    case cons x xs => rw [List.cons_append, nextIndex, nextIndex, hi (by simpa using h)]

theorem eachFrom_eq {α : Type} {values : List α} (h : k + values.length = sizes.prod) :
    eachFrom sizes values (digits sizes k) = values.mapIdx fun i v => (digits sizes (k + i), v) := by
  induction values generalizing k
  case nil => rfl
  case cons v values hi =>
    have hk : k < sizes.prod := by
      rw [← h, List.length_cons]
      omega
    rw [eachFrom, List.mapIdx_cons, nextIndex_digits hk]
    cases values
    case nil => rfl
    case cons v' values =>
      rw [if_pos (by rw [← h]; simp), hi (by rw [← h]; simp; omega)]
      simp [Nat.add_assoc, Nat.add_comm 1]

theorem Valid.each_eq {α : Type} {a : Array α} (h : a.Valid) :
    a.each = a.values.mapIdx fun i v => (digits a.sizes i, v) := by
  have he : eachFrom a.sizes a.values (digits a.sizes 0) = _ := eachFrom_eq (by rw [Nat.zero_add, h.length_values])
  rw [each, ← digits_zero, he]
  simp

end Array

namespace TileAssignment

-- The array of a tile assignment, whether it is materialized or not.
structure HasArray (t : TileAssignment) (a : Array Int) : Prop where
  array       : t.array = some a
  dimensions  : t.dimensions = some a.sizes
  numElements : t.numElements = some a.numElements
  valid       : a.Valid

theorem hasArray_ofArray {a : Array Int} (h : a.Valid) : (ofArray a).HasArray a :=
  ⟨rfl, rfl, rfl, h⟩

theorem Holds.hasArray {t : TileAssignment} {iota : IotaTileAssignment} (h : t.Holds iota) (hc : iota.Canonical) :
    t.HasArray (deviceArray iota.dims iota.view) := by
  have ha := (h.array_eq hc).trans hc.toArray_eq
  have hn : (deviceArray iota.dims iota.view).numElements = iota.dims.prod := by
    simp [deviceArray, Array.numElements]
  refine ⟨ha, ?dimensions, ?numElements, ⟨hn⟩⟩
  case dimensions =>
    rw [dimensions, h.iota_eq]
    cases hc' : t.array_
    case none => rfl
    case some a =>
      obtain rfl := Option.some.inj (hc.toArray_eq.symm.trans (h.cached a hc'))
      rfl
  case numElements =>
    rw [numElements, h.iota_eq]
    cases hc' : t.array_
    case none => exact congrArg some hn.symm
    case some a =>
      obtain rfl := Option.some.inj (hc.toArray_eq.symm.trans (h.cached a hc'))
      rfl

end TileAssignment

namespace HloSharding

variable {s : HloSharding} {a : Array Int} {b : Bool} {dims : List Nat} {device : Int} {r t delta : Nat}

theorem check_eq_ok {u : Unit} : check b = .ok u ↔ b = true := by
  cases b <;> simp [check, pure, Except.pure, throw, throwThe, MonadExceptOf.throw]

theorem required_eq_ok {a? : Option α} {x : α} : required a? = .ok x ↔ a? = some x := by
  cases a? <;> simp [required, pure, Except.pure, throw, throwThe, MonadExceptOf.throw]

theorem ceilOfRatio_eq_ok {m n q : Nat} : ceilOfRatio m n = .ok q ↔ n ≠ 0 ∧ (m + n - 1) / n = q := by
  rw [ceilOfRatio]
  split_ifs with h <;> simp [h, pure, Except.pure]

theorem ceilOfRatio_mapM {tileDims : List Nat} (hl : dims.length ≤ sizes.length)
    (h : ((dims.zip sizes).mapM fun (dim, shardingDim) => ceilOfRatio dim shardingDim) = .ok tileDims) :
    tileDims = List.zipWith (fun dim shardingDim => (dim + shardingDim - 1) / shardingDim) dims
      (sizes.take dims.length) ∧ ∀ d ∈ sizes.take dims.length, d ≠ 0 := by
  rw [mapM_eq_ok] at h
  induction dims generalizing sizes tileDims
  case nil => simpa using h
  case cons dim dims hi =>
    cases sizes
    case nil => cases hl
    case cons size sizes =>
      rw [List.zip_cons_cons, List.forall₂_cons_left_iff] at h
      obtain ⟨q, tileDims, hq, h, rfl⟩ := h
      obtain ⟨hz, rfl⟩ := ceilOfRatio_eq_ok.mp hq
      obtain ⟨rfl, hz'⟩ := hi (by simpa using hl) h
      exact ⟨rfl, List.forall_mem_cons.mpr ⟨hz, hz'⟩⟩

-- The offset of a tile of the data dimensions, or its limit.
def tileBound (dims shardingDims : List Nat) (delta t : Nat) : List Nat :=
  EachTile.bounds dims (List.zipWith (fun dim shardingDim => (dim + shardingDim - 1) / shardingDim) dims shardingDims)
    ((digits shardingDims t).map (· + delta))

theorem getElem_tileBound {shardingDims : List Nat} {i : Nat} (h : i < (tileBound dims shardingDims delta t).length)
    (hd : i < dims.length) (hs : i < shardingDims.length) (ht : i < (digits shardingDims t).length) :
    (tileBound dims shardingDims delta t)[i] =
      min (((digits shardingDims t)[i] + delta) * ((dims[i] + shardingDims[i] - 1) / shardingDims[i])) dims[i] := by
  simp only [tileBound, EachTile.bounds, List.getElem_zipWith, List.getElem_map]
  rw [Nat.mul_comm]

section Loop

variable {offset limit : List Nat} {values : List Int} {deviceCount : Nat} {st st' : EachTileState}

theorem replica_ok (h : EachTile.replica values deviceCount offset limit st = .ok st') :
    st.flatTileIndex < deviceCount ∧ st' = { st with
      flatTileIndex := st.flatTileIndex + 1
      tiles         := st.tiles ++ [⟨values.getD st.flatTileIndex 0, offset, limit⟩]
    } := by
  obtain ⟨_, hc, h⟩ := bind_eq_ok.mp h
  obtain ⟨d, hd, h⟩ := bind_eq_ok.mp h
  rw [check_eq_ok, decide_eq_true_iff] at hc
  rw [required_eq_ok] at hd
  split_ifs at h
  case pos => cases h
  case neg =>
    have h := Except.ok.inj h
    rw [List.getD_eq_getElem?_getD, hd, Option.getD_some]
    exact ⟨hc, h.symm⟩

theorem replicas_ok (h : EachTile.replicas values deviceCount offset limit n st = .ok st') :
    st' = { st with
      flatTileIndex := st.flatTileIndex + n
      tiles         := st.tiles ++ (List.range' st.flatTileIndex n).map fun k => ⟨values.getD k 0, offset, limit⟩
    } ∧ (n = 0 ∨ st.flatTileIndex + n ≤ deviceCount) := by
  induction n generalizing st
  case zero =>
    obtain rfl : st = st' := by simpa [EachTile.replicas, pure, Except.pure] using h
    simp
  case succ n hi =>
    obtain ⟨s, hs, h⟩ := bind_eq_ok.mp h
    obtain ⟨hc, rfl⟩ := replica_ok hs
    obtain ⟨rfl, hn⟩ := hi h
    refine ⟨?range, .inr ?last⟩
    case range => simp [List.range'_succ, Nat.add_assoc, Nat.add_comm 1]
    case last =>
      simp only at hn
      omega

-- The loop has called the function for the first `t` tiles of the data dimensions.
theorem loop_ok {dataDims subgroupDims tileDims : List Nat} {fuel : Nat} (hf : t + fuel = dataDims.prod) (hp : 0 < fuel)
    (ht : tileDims = List.zipWith (fun dim shardingDim => (dim + shardingDim - 1) / shardingDim) dims dataDims)
    (hi : st.uniqueTileIndex = digits dataDims t) (hk : st.flatTileIndex = t * r)
    (hs : st.tiles = (List.range (t * r)).map fun k =>
      ⟨values.getD k 0, tileBound dims dataDims 0 (k / r), tileBound dims dataDims 1 (k / r)⟩)
    (h : EachTile.loop dims (dataDims ++ subgroupDims) tileDims r values deviceCount fuel st = .ok st') :
    st'.tiles = ((List.range (dataDims.prod * r)).map fun k =>
      ⟨values.getD k 0, tileBound dims dataDims 0 (k / r), tileBound dims dataDims 1 (k / r)⟩) ∧
    dataDims.prod * r ≤ deviceCount := by
  induction fuel generalizing t st
  case zero => cases hp
  case succ fuel hind =>
    obtain ⟨s, hr, h⟩ := bind_eq_ok.mp h
    obtain ⟨rfl, hn⟩ := replicas_ok hr
    have htiles : st.tiles ++ (List.range' st.flatTileIndex r).map (fun k =>
        (⟨values.getD k 0, EachTile.bounds dims tileDims st.uniqueTileIndex,
          EachTile.bounds dims tileDims (st.uniqueTileIndex.map (· + 1))⟩ : Tile)) =
        (List.range ((t + 1) * r)).map fun k =>
          ⟨values.getD k 0, tileBound dims dataDims 0 (k / r), tileBound dims dataDims 1 (k / r)⟩ := by
      have hd : ∀ k ∈ List.range' (t * r) r, k / r = t := by
        intro k hk
        rw [List.mem_range'_1] at hk
        exact Nat.div_eq_of_lt_le hk.1 (by rw [Nat.succ_mul]; exact hk.2)
      rw [Nat.succ_mul, List.range_eq_range', ← List.range'_append_1, List.map_append, hs, hk, hi, ht,
        List.range_eq_range', Nat.zero_add]
      congr 1
      refine List.map_congr_left fun k hk => ?_
      rw [hd k hk, tileBound, tileBound]
      simp
    have hidx : Array.nextIndex (dataDims ++ subgroupDims) st.uniqueTileIndex =
        if t + 1 < dataDims.prod then (true, digits dataDims (t + 1)) else (false, dataDims.map fun _ => 0) := by
      rw [hi, Array.nextIndex_append (by simp), Array.nextIndex_digits (by omega)]
    simp only [hidx] at h
    by_cases hlt : t + 1 < dataDims.prod <;>
      simp only [hlt, if_true, if_false, Bool.false_eq_true] at h
    case pos =>
      exact hind (by omega) (by omega) rfl (by rw [hk, Nat.succ_mul]) htiles h
    case neg =>
      obtain rfl := Except.ok.inj h
      have he : dataDims.prod = t + 1 := by omega
      rw [he]
      refine ⟨htiles, ?_⟩
      rw [hk] at hn
      obtain rfl | hn := hn
      case inl => exact Nat.zero_le _
      case inr => rwa [Nat.succ_mul]

end Loop

section EachTile

variable {tiles : List Tile} (ha : s.tileAssignment.HasArray a)
include ha

theorem dimensions_eq : s.dimensions = .ok a.sizes := by
  rw [dimensions, ha.dimensions]
  rfl

theorem numDevices_eq : s.numDevices = .ok a.numElements := by
  rw [numDevices, ha.numElements]
  rfl

theorem tiledDataRank_le {rank : Int} (h : s.tiledDataRank = .ok rank) : s.isTiledLeaf ∧ rank ≤ a.sizes.length := by
  obtain ⟨_, hl, h⟩ := bind_eq_ok.mp h
  rw [numDimensions, dimensions_eq ha] at h
  have h := Except.ok.inj h
  refine ⟨check_eq_ok.mp hl, ?_⟩
  split_ifs at h <;> omega

theorem eachTile_ok (h : s.eachTile dims = .ok tiles) :
    s.isTiledLeaf ∧ s.tuple = false ∧ s.tiledDataRank = .ok dims.length ∧ dims.length ≤ a.sizes.length ∧
    (∀ d ∈ a.sizes.take dims.length, d ≠ 0) ∧ ∃ r, s.numReplicas = .ok r ∧
      (a.sizes.take dims.length).prod * r ≤ a.numElements ∧
      tiles = (List.range ((a.sizes.take dims.length).prod * r)).map fun k =>
        ⟨a.values.getD k 0, tileBound dims (a.sizes.take dims.length) 0 (k / r),
          tileBound dims (a.sizes.take dims.length) 1 (k / r)⟩ := by
  rw [eachTile, dimensions_eq ha, numDevices_eq ha, ha.array] at h
  obtain ⟨_, hc, h⟩ := bind_eq_ok.mp h
  obtain ⟨_, ⟨⟩, h⟩ := bind_eq_ok.mp h
  obtain ⟨rank, hrank, h⟩ := bind_eq_ok.mp h
  obtain ⟨hl, hle⟩ := tiledDataRank_le ha hrank
  split_ifs at h with hne
  case pos => cases h
  case neg =>
    have hr : (dims.length : Int) = rank := by simpa using hne
    subst hr
    obtain ⟨tileDims, ht, h⟩ := bind_eq_ok.mp h
    obtain ⟨r, hr, h⟩ := bind_eq_ok.mp h
    obtain ⟨_, ⟨⟩, h⟩ := bind_eq_ok.mp h
    obtain ⟨_, ⟨⟩, h⟩ := bind_eq_ok.mp h
    obtain ⟨st, hst, ⟨⟩⟩ := bind_eq_ok.mp h
    have hle : dims.length ≤ a.sizes.length := by exact_mod_cast hle
    have htake : (a.sizes.take dims.length).length = dims.length := List.length_take_of_le hle
    obtain ⟨ht, hz⟩ := ceilOfRatio_mapM hle ht
    have hp : 0 < (a.sizes.take dims.length).prod := List.prod_pos fun d hd => Nat.pos_of_ne_zero (hz d hd)
    rw [← List.take_append_drop dims.length a.sizes, List.take_left' htake] at hst
    obtain ⟨htiles, hn⟩ := loop_ok (t := 0) (Nat.zero_add _) hp ht
      (by rw [digits_zero, List.map_const', List.map_const', htake]) (Nat.zero_mul r).symm (by simp) hst
    have hc := check_eq_ok.mp hc
    simp only [Bool.and_eq_true, Bool.not_eq_true'] at hc
    exact ⟨hl, hc.1.1.1.1, hrank, hle, hz, r, hr, hn, htiles⟩

end EachTile

-- The position `k` is the last one of its device.
def IsLast (values : List Int) (k : Nat) (device : Int) : Prop :=
  values[k]? = some device ∧ ∀ j, k < j → values[j]? ≠ some device

theorem exists_isLast {values : List Int} (h : device ∈ values) : ∃ k, IsLast values k device := by
  induction values using List.reverseRecOn
  case nil => cases h
  case append_singleton values v hi =>
    by_cases hv : v = device
    case pos =>
      refine ⟨values.length, by simp [hv], fun j hj => ?_⟩
      rw [List.getElem?_eq_none (by simpa using hj)]
      simp
    case neg =>
      have hm : device ∈ values := by simpa [Ne.symm hv] using h
      obtain ⟨k, hk, hj⟩ := hi hm
      have hlt : k < values.length := List.getElem?_eq_some_iff.mp hk |>.1
      refine ⟨k, by rw [List.getElem?_append_left hlt, hk], fun j hkj => ?_⟩
      rw [List.getElem?_append]
      split_ifs
      case pos => exact hj j hkj
      case neg => simp [List.getElem?_singleton]; grind

theorem foldl_not_mem {values : List Int} {f : Nat → List Nat} (h : device ∉ values) (init : List Nat) :
    (values.mapIdx fun i v => (f i, v)).foldl
      (fun retIndex (index, d) => if d = device then index else retIndex) init = init := by
  induction values generalizing f
  case nil => rfl
  case cons v values hi =>
    obtain ⟨hv, hm⟩ : v ≠ device ∧ device ∉ values := by simpa [eq_comm] using h
    rw [List.mapIdx_cons, List.foldl_cons]
    simp only [hv, if_false]
    exact hi hm

-- The callback keeps the index of the last call for the device.
theorem foldl_isLast {values : List Int} {f : Nat → List Nat} (h : IsLast values k device) (init : List Nat) :
    (values.mapIdx fun i v => (f i, v)).foldl
      (fun retIndex (index, d) => if d = device then index else retIndex) init = f k := by
  induction values generalizing f k init
  case nil => exact absurd h.1 (by simp)
  case cons v values hi =>
    rw [List.mapIdx_cons, List.foldl_cons]
    obtain ⟨hk, hj⟩ := h
    cases k
    case zero =>
      obtain rfl : v = device := by simpa using hk
      have hn : v ∉ values := fun hm => by
        obtain ⟨j, hm⟩ := List.mem_iff_getElem?.mp hm
        exact hj (j + 1) (Nat.succ_pos j) (by simpa using hm)
      simp only [if_true]
      exact foldl_not_mem hn _
    case succ k => exact hi ⟨by simpa using hk, fun j hkj => by simpa using hj (j + 1) (by omega)⟩ _

section Query

variable (ha : s.tileAssignment.HasArray a) (hl : s.isTiledLeaf) (ht : s.tuple = false)
  (hr : s.tiledDataRank = .ok dims.length) (hle : dims.length ≤ a.sizes.length)
include ha hl ht hr hle

theorem tileIndexForDevice_eq (h : IsLast a.values k device) :
    s.tileIndexForDevice device = if a.sizes = [] then .error .check
      else .ok (digits (a.sizes.take dims.length) (k / (a.sizes.drop dims.length).prod)) := by
  have hk : k < a.sizes.prod := ha.valid.length_values ▸ (List.getElem?_eq_some_iff.mp h.1).1
  have hf : (!s.replicated && !s.singleDevice && !s.manual && !s.unknown && !s.tuple) = true := by
    simp only [isTiledLeaf, Bool.and_eq_true, Bool.not_eq_true'] at hl ⊢
    simp [hl, ht]
  have htake : (a.sizes.take dims.length).length = dims.length := List.length_take_of_le hle
  have hd : digits a.sizes k = digits (a.sizes.take dims.length) (k / (a.sizes.drop dims.length).prod) ++
      digits (a.sizes.drop dims.length) (k % (a.sizes.drop dims.length).prod) := by
    rw [← digits_append (by rwa [List.take_append_drop]), List.take_append_drop]
  have hlen : (digits a.sizes k).length = a.sizes.length := length_digits
  have hne : digits a.sizes k = [] ↔ a.sizes = [] := by
    rw [← List.length_eq_zero_iff, hlen, List.length_eq_zero_iff]
  have hfold := foldl_isLast (f := digits a.sizes) h []
  rw [tileIndexForDevice, hf, hr, TileAssignment.each, ha.array]
  simp only [Option.bind_eq_bind, Option.bind_some, Option.pure_def, ha.valid.each_eq]
  simp only [check, required, if_true, pure_bind, hfold, ne_eq, hne]
  by_cases hs : a.sizes = []
  case pos =>
    simp only [hs, not_true_eq_false, decide_false, Bool.false_eq_true, if_false, if_true]
    rfl
  case neg =>
    have hz : dims.length - a.sizes.length = 0 := Nat.sub_eq_zero_of_le hle
    simp only [hs, not_false_eq_true, decide_true, if_true, if_false, pure_bind]
    change Except.ok ((digits a.sizes k).take dims.length ++ List.replicate (dims.length - _) 0) = _
    rw [hlen, hz, List.replicate_zero, List.append_nil, hd, List.take_left' (by rw [length_digits, htake])]

theorem tileBoundForDevice_eq (hz : ∀ d ∈ a.sizes.take dims.length, d ≠ 0) (hs : a.sizes ≠ [])
    (h : IsLast a.values k device) :
    s.tileBoundForDevice dims device delta =
      .ok (tileBound dims (a.sizes.take dims.length) delta (k / (a.sizes.drop dims.length).prod)) := by
  have hrep : s.replicated = false := by
    simp only [isTiledLeaf, Bool.and_eq_true, Bool.not_eq_true'] at hl
    exact hl.1.1.1.1
  have hindex := tileIndexForDevice_eq ha hl ht hr hle h
  rw [if_neg hs] at hindex
  rw [tileBoundForDevice, hr]
  refine bind_eq_ok.mpr ⟨_, rfl, bind_eq_ok.mpr ⟨(), check_eq_ok.mpr (by simp), bind_eq_ok.mpr ⟨_, hindex, ?_⟩⟩⟩
  rw [mapM_eq_ok, List.forall₂_iff_get]
  have hlen : (digits (a.sizes.take dims.length) (k / (a.sizes.drop dims.length).prod)).length = dims.length := by
    rw [length_digits, List.length_take_of_le hle]
  refine ⟨by simp [tileBound, EachTile.bounds, hle], fun i h₁ h₂ => ?_⟩
  have hi : i < dims.length := by simp at h₁; omega
  have hi' : i < a.sizes.length := by omega
  have hzi : a.sizes[i] ≠ 0 := hz _ (List.mem_take_iff_getElem.mpr ⟨i, by omega, rfl⟩)
  have hdim : s.dimension i = .ok a.sizes[i] := by
    rw [dimension, hrep]
    exact bind_eq_ok.mpr ⟨_, dimensions_eq ha, required_eq_ok.mpr (List.getElem?_eq_getElem hi')⟩
  have hceil : ceilOfRatio dims[i] a.sizes[i] = .ok ((dims[i] + a.sizes[i] - 1) / a.sizes[i]) :=
    ceilOfRatio_eq_ok.mpr ⟨hzi, rfl⟩
  simp only [List.get_eq_getElem, List.getElem_zipIdx, List.getElem_zip, Nat.zero_add, hdim]
  refine bind_eq_ok.mpr ⟨_, rfl, bind_eq_ok.mpr ⟨_, hceil, ?_⟩⟩
  have htb := getElem_tileBound h₂ hi (by rwa [List.length_take_of_le hle]) (by rwa [hlen])
  rw [List.getElem_take] at htb
  exact congrArg Except.ok htb.symm

theorem ne_nil_of_tileBoundForDevice {bound : List Nat} (h : IsLast a.values k device)
    (hb : s.tileBoundForDevice dims device delta = .ok bound) : a.sizes ≠ [] := by
  intro hs
  have hindex := tileIndexForDevice_eq ha hl ht hr hle h
  obtain ⟨_, _, hb⟩ := bind_eq_ok.mp hb
  obtain ⟨_, _, hb⟩ := bind_eq_ok.mp hb
  obtain ⟨_, hi, _⟩ := bind_eq_ok.mp hb
  rw [hindex, if_pos hs] at hi
  cases hi

omit ha hr hle

theorem tileOffsetForDevice_eq : s.tileOffsetForDevice dims device = s.tileBoundForDevice dims device 0 := by
  simp only [isTiledLeaf, Bool.and_eq_true, Bool.not_eq_true'] at hl
  simp [tileOffsetForDevice, check, hl, ht]

theorem tileLimitForDevice_eq : s.tileLimitForDevice dims device = s.tileBoundForDevice dims device 1 := by
  simp only [isTiledLeaf, Bool.and_eq_true, Bool.not_eq_true'] at hl
  simp [tileLimitForDevice, check, hl, ht]

end Query

-- The function is called exactly once for every device, with the bounds of its tile.
structure EachTileAgrees (s : HloSharding) (a : Array Int) (dims : List Nat) (tiles : List Tile) : Prop where
  mem    : ∀ tile ∈ tiles, tile.deviceId ∈ a.values
  device : ∀ device ∈ a.values, ∃ offset limit, s.tileOffsetForDevice dims device = .ok offset ∧
    s.tileLimitForDevice dims device = .ok limit ∧ tiles.filter (·.deviceId = device) = [⟨device, offset, limit⟩]

-- Whether the first `r` copies of the tiles are the tiles of all devices.
def Covers (a : Array Int) (dims : List Nat) (r : Nat) : Prop :=
  let shardingDims := a.sizes.take dims.length
  let replicas     := (a.sizes.drop dims.length).prod
  (a.values.take (shardingDims.prod * r)).Nodup ∧
  ∀ k device, IsLast a.values k device → ∃ f < shardingDims.prod * r, a.values[f]? = some device ∧
    ∀ delta ≤ 1, tileBound dims shardingDims delta (f / r) = tileBound dims shardingDims delta (k / replicas)

-- A valid sharding has distinct devices.
def EachTileExact (s : HloSharding) (a : Array Int) (dims : List Nat) : Prop :=
  a.sizes ≠ [] ∧
  if a.values.Nodup then s.numReplicas = .ok (a.sizes.drop dims.length).prod
  else ∃ r, s.numReplicas = .ok r ∧ Covers a dims r

theorem filter_range_eq {values : List Int} {m f : Nat} (hm : m ≤ values.length) :
    (List.range m).filter (fun k => values.getD k 0 = device) = [f] ↔
      f < m ∧ values[f]? = some device ∧ ∀ k < m, values[k]? = some device → k = f := by
  have hg (k : Nat) (hk : k < m) : values.getD k 0 = device ↔ values[k]? = some device := by
    have : k < values.length := by omega
    simp [this]
  have hmem (k : Nat) : k ∈ (List.range m).filter (fun k => values.getD k 0 = device) ↔
      k < m ∧ values[k]? = some device := by
    rw [List.mem_filter, List.mem_range, decide_eq_true_iff]
    exact and_congr_right (hg k)
  apply Iff.intro
  case mp =>
    intro h
    have hf := (hmem f).mp (h ▸ List.mem_singleton_self f)
    refine ⟨hf.1, hf.2, fun k hk hv => ?_⟩
    exact List.mem_singleton.mp (h ▸ (hmem k).mpr ⟨hk, hv⟩)
  case mpr =>
    rintro ⟨hf, hv, hu⟩
    refine List.perm_singleton.mp ((List.perm_ext_iff_of_nodup (List.nodup_range.filter _)
      (List.nodup_singleton f)).mpr fun k => ?_)
    rw [hmem, List.mem_singleton]
    apply Iff.intro
    case mp => exact fun ⟨hk, hv⟩ => hu k hk hv
    case mpr =>
      rintro rfl
      exact ⟨hf, hv⟩

theorem nodup_take_iff {values : List Int} {m : Nat} (hm : m ≤ values.length) :
    (values.take m).Nodup ↔ ∀ i < m, ∀ j < m, values[i]? = values[j]? → i = j := by
  rw [List.nodup_iff_getElem?_ne_getElem?, List.length_take_of_le hm]
  apply Iff.intro
  case mp =>
    intro h i hi j hj he
    by_contra hne
    obtain hlt | hlt := Nat.lt_or_gt_of_ne hne
    case inl => exact h i j hlt hj (by rwa [List.getElem?_take_of_lt hi, List.getElem?_take_of_lt hj])
    case inr => exact h j i hlt hi (by rw [List.getElem?_take_of_lt hi, List.getElem?_take_of_lt hj, he])
  case mpr =>
    intro h i j hlt hj he
    rw [List.getElem?_take_of_lt (hlt.trans hj), List.getElem?_take_of_lt hj] at he
    exact hlt.ne (h i (hlt.trans hj) j hj he)

section Agrees

variable {tiles : List Tile} (ha : s.tileAssignment.HasArray a) (h : s.eachTile dims = .ok tiles)
include ha h

theorem eachTile_covers_iff (hr : s.numReplicas = .ok r) :
    s.EachTileAgrees a dims tiles ↔ a.sizes ≠ [] ∧ Covers a dims r := by
  obtain ⟨hl, ht, hrank, hle, hz, r', hr', hm, htiles⟩ := eachTile_ok ha h
  obtain rfl := Except.ok.inj (hr.symm.trans hr')
  generalize hM : (a.sizes.take dims.length).prod * r = m at hm htiles
  have hm : m ≤ a.values.length := hm
  have hget (k : Nat) (hk : k < m) : a.values[k]? = some (a.values.getD k 0) := by
    have : k < a.values.length := by omega
    simp [this]
  have hfilter (device : Int) : tiles.filter (·.deviceId = device) =
      ((List.range m).filter fun k => a.values.getD k 0 = device).map fun k =>
        ⟨a.values.getD k 0, tileBound dims (a.sizes.take dims.length) 0 (k / r),
          tileBound dims (a.sizes.take dims.length) 1 (k / r)⟩ := by
    rw [htiles, List.filter_map]
    rfl
  apply Iff.intro
  case mp =>
    intro hagrees
    -- The only position of a device in the calls.
    have hf (device : Int) (hd : device ∈ a.values) : ∃ f < m, a.values[f]? = some device ∧
        (∀ k < m, a.values[k]? = some device → k = f) ∧
        s.tileBoundForDevice dims device 0 = .ok (tileBound dims (a.sizes.take dims.length) 0 (f / r)) ∧
        s.tileBoundForDevice dims device 1 = .ok (tileBound dims (a.sizes.take dims.length) 1 (f / r)) := by
      obtain ⟨offset, limit, ho, hl', he⟩ := hagrees.device device hd
      rw [hfilter, List.map_eq_singleton_iff] at he
      obtain ⟨f, hf, he⟩ := he
      obtain ⟨hf, hv, hu⟩ := (filter_range_eq hm).mp hf
      obtain ⟨-, rfl, rfl⟩ := Tile.mk.inj he
      rw [tileOffsetForDevice_eq hl ht] at ho
      rw [tileLimitForDevice_eq hl ht] at hl'
      exact ⟨f, hf, hv, hu, ho, hl'⟩
    have hs : a.sizes ≠ [] := by
      intro hs
      have hlen : a.values.length = 1 := by rw [ha.valid.length_values, hs, List.prod_nil]
      have hd : a.values[0] ∈ a.values := List.getElem_mem _
      obtain ⟨k, hk⟩ := exists_isLast hd
      obtain ⟨f, _, _, _, hb, _⟩ := hf _ hd
      exact ne_nil_of_tileBoundForDevice ha hl ht hrank hle hk hb hs
    refine ⟨hs, ?nodup, fun k device hk => ?placed⟩
    case nodup =>
      rw [hM, nodup_take_iff hm]
      intro i hi j hj he
      obtain ⟨f, _, _, hu, _⟩ := hf _ (List.mem_of_getElem? (hget i hi))
      rw [hu i hi (hget i hi), hu j hj (he ▸ hget i hi)]
    case placed =>
      obtain ⟨f, hf, hv, _, ho, hl'⟩ := hf device (List.mem_of_getElem? hk.1)
      have hq (delta : Nat) : s.tileBoundForDevice dims device delta = _ :=
        tileBoundForDevice_eq ha hl ht hrank hle hz hs hk
      refine ⟨f, hM ▸ hf, hv, fun delta hdelta => ?_⟩
      obtain rfl | rfl := Nat.le_one_iff_eq_zero_or_eq_one.mp hdelta
      case inl => exact Except.ok.inj (ho.symm.trans (hq 0))
      case inr => exact Except.ok.inj (hl'.symm.trans (hq 1))
  case mpr =>
    rintro ⟨hs, hnodup, hlast⟩
    refine ⟨fun tile htile => ?tiles, fun device hd => ?devices⟩
    case tiles =>
      rw [htiles, List.mem_map] at htile
      obtain ⟨k, hk, rfl⟩ := htile
      exact List.mem_of_getElem? (hget k (List.mem_range.mp hk))
    case devices =>
      obtain ⟨k, hk⟩ := exists_isLast hd
      obtain ⟨f, hf, hv, hb⟩ := hlast k device hk
      rw [hM] at hf
      rw [hM, nodup_take_iff hm] at hnodup
      have hq (delta : Nat) : s.tileBoundForDevice dims device delta = _ :=
        tileBoundForDevice_eq ha hl ht hrank hle hz hs hk
      have hf' : (List.range m).filter (fun k => a.values.getD k 0 = device) = [f] :=
        (filter_range_eq hm).mpr ⟨hf, hv, fun j hj hvj => hnodup j hj f hf (hvj.trans hv.symm)⟩
      have hd : a.values.getD f 0 = device := Option.some.inj ((hget f hf).symm.trans hv)
      refine ⟨_, _, (tileOffsetForDevice_eq hl ht).trans (hq 0), (tileLimitForDevice_eq hl ht).trans (hq 1), ?_⟩
      rw [hfilter, hf', List.map_singleton, hd, hb 0 (by decide), hb 1 (by decide)]

theorem eachTile_agrees_iff : s.EachTileAgrees a dims tiles ↔ s.EachTileExact a dims := by
  obtain ⟨_, _, _, _, hz, r, hr, hm, _⟩ := eachTile_ok ha h
  rw [eachTile_covers_iff ha h hr, EachTileExact]
  refine and_congr_right fun hs => ?_
  have hprod : (a.sizes.take dims.length).prod * (a.sizes.drop dims.length).prod = a.values.length := by
    rw [List.prod_take_mul_prod_drop, ha.valid.length_values]
  have hp : 0 < (a.sizes.take dims.length).prod := List.prod_pos fun d hd => Nat.pos_of_ne_zero (hz d hd)
  split_ifs with hnodup
  case neg =>
    apply Iff.intro
    case mp => exact fun hc => ⟨r, hr, hc⟩
    case mpr =>
      rintro ⟨r', hr', hc⟩
      exact Except.ok.inj (hr.symm.trans hr') ▸ hc
  case pos =>
    rw [hr, Except.ok.injEq]
    have hm : (a.sizes.take dims.length).prod * r ≤ a.values.length := hm
    have hinj {i j : Nat} {device : Int} (hi : a.values[i]? = some device) (hj : a.values[j]? = some device) : i = j :=
      (nodup_take_iff le_rfl).mp (by rwa [List.take_length]) i (List.getElem?_eq_some_iff.mp hi).1 j
        (List.getElem?_eq_some_iff.mp hj).1 (hi.trans hj.symm)
    apply Iff.intro
    case mp =>
      rintro ⟨_, hlast⟩
      have hge : a.values.length ≤ (a.sizes.take dims.length).prod * r := by
        by_contra hlt
        have hk : (a.sizes.take dims.length).prod * r < a.values.length := by omega
        have hv := List.getElem?_eq_getElem hk
        obtain ⟨f, hf, hvf, _⟩ := hlast _ _ ⟨hv, fun j hj hvj => by have := hinj hv hvj; omega⟩
        have := hinj hvf hv
        omega
      have : (a.sizes.take dims.length).prod * r = (a.sizes.take dims.length).prod * (a.sizes.drop dims.length).prod := by
        omega
      exact Nat.eq_of_mul_eq_mul_left hp this
    case mpr =>
      rintro rfl
      refine ⟨hnodup.sublist (List.take_sublist _ _), fun k device hk => ⟨k, ?_, hk.1, fun _ _ => rfl⟩⟩
      rw [hprod]
      exact (List.getElem?_eq_some_iff.mp hk.1).1

end Agrees

-- The sharding `devices=[2,2]0,1,2,3` with a replicated or another last dimension.
theorem eachTile_agrees_iff_replicated :
    let s := ofTileAssignment (.ofArray ⟨[2, 2], [0, 1, 2, 3]⟩) true
    s.EachTileAgrees ⟨[2, 2], [0, 1, 2, 3]⟩ [4]
        [⟨0, [0], [2]⟩, ⟨1, [0], [2]⟩, ⟨2, [2], [4]⟩, ⟨3, [2], [4]⟩] ↔
      s.EachTileExact ⟨[2, 2], [0, 1, 2, 3]⟩ [4] :=
  eachTile_agrees_iff (TileAssignment.hasArray_ofArray ⟨rfl⟩) rfl

-- The devices 2 and 3 are left out, and device 1 gets the second tile instead of the first one.
theorem not_eachTile_agrees_manual :
    let s := ofSubgroupTypes (.ofArray ⟨[2, 2], [0, 1, 2, 3]⟩) [.manual]
    s.eachTile [4] = .ok [⟨0, [0], [2]⟩, ⟨1, [2], [4]⟩] ∧ s.tileOffsetForDevice [4] 1 = .ok [0] ∧
      ¬s.EachTileAgrees ⟨[2, 2], [0, 1, 2, 3]⟩ [4] [⟨0, [0], [2]⟩, ⟨1, [2], [4]⟩] := by
  refine ⟨rfl, rfl, fun h => ?_⟩
  obtain ⟨_, _, _, _, hf⟩ := h.device 2 (by decide)
  cases hf

end HloSharding
end Sharding
