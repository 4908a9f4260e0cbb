import XlaModel.Lib.Fallible
import XlaModel.Hlo.Theorems.ReachabilityMap

namespace Hlo.HloReachabilityMap

open Relation HloComputation BitSet Fallible

variable {c : HloComputation} {m : HloReachabilityMap} {nodes order ds : List Nat} {index : Nat → Nat} {x i : Nat}

section Create

theorem foldl_max_ge (xs : List Nat) (n : Nat) : n ≤ xs.foldl max n ∧ ∀ x ∈ xs, x ≤ xs.foldl max n := by
  induction xs generalizing n
  case nil => simp
  case cons y xs hi =>
    obtain ⟨h, hm⟩ := hi (max n y)
    refine ⟨(le_max_left ..).trans h, fun x hx => ?_⟩
    obtain rfl | hx := List.mem_cons.mp hx
    case inl => exact (le_max_right ..).trans h
    case inr => exact hm x hx

theorem getD_foldl_set (hn : nodes.Nodup) {k : Nat} {indices : List (Option Nat)}
    (hl : ∀ x ∈ nodes, x < indices.length) :
    ((nodes.zipIdx k).foldl (fun indices (x, i) => indices.set x (some i)) indices).getD x none =
      if x ∈ nodes then some (k + nodes.idxOf x) else indices.getD x none := by
  induction nodes generalizing k indices
  case nil => simp
  case cons y nodes hi =>
    obtain ⟨hy, hn⟩ := List.nodup_cons.mp hn
    rw [List.zipIdx_cons, List.foldl_cons, hi hn fun x hx => by simpa using hl x (.tail _ hx)]
    by_cases hx : x ∈ nodes
    case pos =>
      have hne : y ≠ x := fun h => hy (h ▸ hx)
      simp only [hx, if_true, List.mem_cons, or_true, List.idxOf_cons_ne _ hne]
      congr 1
      omega
    case neg =>
      simp only [hx, if_false, List.mem_cons, or_false]
      have hly := hl y (.head _)
      by_cases hxy : x = y
      case pos => simp [hxy, hly]
      case neg => simp [hxy, List.getElem?_set_ne (Ne.symm hxy)]

theorem create_indexes (hn : order.Nodup) : Indexes (create order) order (order.idxOf ·) where
  getIndex x hx := by
    have hl : ∀ x ∈ order, x < (List.replicate (order.foldl max 0 + 1) (none : Option Nat)).length := by
      intro x hx
      simpa [Nat.lt_succ_iff] using (foldl_max_ge order 0).2 x hx
    simp only [getIndex, create]
    rw [getD_foldl_set hn hl, if_pos hx, Nat.zero_add]
  inj x hx y _ h := (List.idxOf_inj hx).mp h
  lt x hx := by simpa [create] using List.idxOf_lt_length_of_mem hx
  words r hr := by
    obtain ⟨i, _, rfl⟩ := List.mem_map.mp hr
    simp [BitSet.set, BitSet.zero, create]
  le := by
    simp only [create, List.length_map, List.length_range, kBits]
    omega

theorem create_bit (hi : i < order.length) {a : Nat} : (create order).bit a i = true ↔ a = i := by
  have hl : i < 64 * (zero (create order).wordsPerBitset).words.length := by
    simp only [zero, create, List.length_replicate, kBits]
    omega
  have hr : (create order).bitSetFromIndex i = (zero (create order).wordsPerBitset).set i := by
    simp [bitSetFromIndex, create, hi]
  rw [bit, hr, get_set hl]
  simp

end Create

-- The row at `index x` is united with the rows of the other instructions.
theorem foldlM_orBitSet (h : Indexes m nodes index) (hx : x ∈ nodes) (hd : ∀ d ∈ ds, d ∈ nodes) (hn : x ∉ ds) :
    Yields (ds.foldlM (orBitSet (index x)) m) fun m' => Indexes m' nodes index ∧
      m'.wordsPerBitset = m.wordsPerBitset ∧ (∀ j, j ≠ index x → m'.bitSetFromIndex j = m.bitSetFromIndex j) ∧
      ∀ a, m'.bit a (index x) = true ↔ m.bit a (index x) = true ∨ ∃ d ∈ ds, m.bit a (index d) = true := by
  induction ds generalizing m
  case nil => exact .pure ⟨h, rfl, fun _ _ => rfl, by simp⟩
  case cons d ds hi =>
    have hdn := hd d (.head _)
    have hl : (m.bitSetFromIndex (index x)).words.length = (m.bitSetFromIndex (index d)).words.length :=
      h.length_bitSet.trans h.length_bitSet.symm
    have hrow (j : Nat) := bitSetFromIndex_setBitSet (j := j) (h.lt x hx)
      (b := (m.bitSetFromIndex (index x)).or (m.bitSetFromIndex (index d)))
    have hs : orBitSet (index x) m d =
        some (m.setBitSet (index x) ((m.bitSetFromIndex (index x)).or (m.bitSetFromIndex (index d)))) := by
      rw [orBitSet, h.getIndex d hdn]
      rfl
    have hor : ((m.bitSetFromIndex (index x)).or (m.bitSetFromIndex (index d))).words.length = m.wordsPerBitset := by
      simp [BitSet.or, h.length_bitSet]
    rw [List.foldlM_cons, hs]
    refine .imp (hi (h.setBitSet hor) (fun d hd' => hd d (.tail _ hd')) fun hx => hn (.tail _ hx)) ?_
    rintro m' ⟨hi', hw, hj, hb⟩
    refine ⟨hi', hw, fun j hne => by rw [hj j hne, hrow, if_neg hne.symm], fun a => ?_⟩
    have hds : (∃ e ∈ ds, (m.setBitSet (index x) ((m.bitSetFromIndex (index x)).or
        (m.bitSetFromIndex (index d)))).bit a (index e) = true) ↔ ∃ e ∈ ds, m.bit a (index e) = true := by
      refine exists_congr fun e => and_congr_right fun he => ?_
      have hne : index x ≠ index e := by
        intro hxe
        exact hn (.tail _ (h.inj x hx e (hd e (.tail _ he)) hxe ▸ he))
      rw [bit, hrow, if_neg hne, bit]
    rw [hb, hds, bit, hrow, if_pos rfl, get_or hl, Bool.or_eq_true, or_assoc]
    simp [bit]

-- The rows of the instructions that are left only contain the instructions themselves.
structure Processed (c : HloComputation) (index : Nat → Nat) (order left : List Nat) (m : HloReachabilityMap) :
    Prop where
  indexes  : Indexes m c.instructions index
  mem      : ∀ x ∈ left, x ∈ c.instructions
  suffix   : ∃ done, order = done ++ left ∧ ∀ x ∈ done, Equation c m index x
  rest     : ∀ x ∈ left, ∀ a, m.bit a (index x) = true ↔ a = index x

theorem Processed.addDependencies (hc : c.Valid) (ho : c.IsPostOrder order) {left : List Nat}
    (h : Processed c index order (x :: left) m) :
    Yields (addDependencies c m x) (Processed c index order left) := by
  obtain ⟨done, hd, he⟩ := h.suffix
  have hx := h.mem x (.head _)
  have hnd : (done ++ x :: left).Nodup := hd ▸ ho.perm.nodup_iff.mpr hc.nodup
  have hop : ∀ d ∈ c.operands x, d ∈ c.instructions ∧ d ≠ x := by
    intro d hd
    have hde : c.Edge d x := ⟨hx, .inl hd⟩
    exact ⟨hc.mem hde, fun h => hc.acyclic x (.single (h ▸ hde))⟩
  have hcp : ∀ d ∈ c.controlPredecessors x, d ∈ c.instructions ∧ d ≠ x := by
    intro d hd
    have hde : c.Edge d x := ⟨hx, .inr hd⟩
    exact ⟨hc.mem hde, fun h => hc.acyclic x (.single (h ▸ hde))⟩
  have hne : ∀ p ∈ c.instructions, p ≠ x → index p ≠ index x :=
    fun p hp hpx hi => hpx (h.indexes.inj p hp x hx hi)
  rw [HloReachabilityMap.addDependencies, h.indexes.getIndex x hx, Option.bind_eq_bind, Option.bind_some]
  refine .bind (foldlM_orBitSet h.indexes hx (fun d hd => (hop d hd).1) fun hm => (hop x hm).2 rfl) ?_
  rintro m₁ ⟨hi₁, _, hj₁, hb₁⟩
  refine .imp (foldlM_orBitSet hi₁ hx (fun d hd => (hcp d hd).1) fun hm => (hcp x hm).2 rfl) ?_
  rintro m₂ ⟨hi₂, _, hj₂, hb₂⟩
  have hbit : ∀ p ∈ c.instructions, p ≠ x → ∀ a, m₂.bit a (index p) = m.bit a (index p) := by
    intro p hp hpx a
    rw [bit, bit, hj₂ _ (hne p hp hpx), hj₁ _ (hne p hp hpx)]
  refine ⟨hi₂, fun y hy => h.mem y (.tail _ hy), ⟨done ++ [x], by simp [hd], fun y hy a ha => ?_⟩, fun y hy a => ?_⟩
  · obtain hyd | hyx := List.mem_append.mp hy
    case inl =>
      have hyn : y ∈ c.instructions := ho.perm.mem_iff.mp (hd ▸ List.mem_append_left _ hyd)
      have hyx : y ≠ x := by
        rintro rfl
        exact (List.nodup_append.mp hnd).2.2 y hyd y (.head _) rfl
      rw [hbit y hyn hyx, he y hyd a ha]
      refine or_congr_right (exists_congr fun p => and_congr_right fun hpe => ?_)
      have hpx : p ≠ x := by
        rintro rfl
        obtain ⟨before, after, hba⟩ := List.append_of_mem hyd
        have hp : p ∈ before := ho.pred (by rw [hd, hba, List.append_assoc, List.cons_append]) hpe
        exact (List.nodup_append.mp hnd).2.2 p (hba ▸ List.mem_append_left _ hp) p (.head _) rfl
      rw [hbit p (hc.mem hpe) hpx]
    case inr =>
      obtain rfl := List.mem_singleton.mp hyx
      rw [hb₂, hb₁, h.rest y (.head _), or_assoc]
      refine or_congr ⟨fun hi => h.indexes.inj a ha y hx hi, fun hi => hi ▸ rfl⟩ ?_
      constructor
      · rintro (⟨d, hd, hb⟩ | ⟨d, hd, hb⟩)
        case inl =>
          obtain ⟨hdn, hdy⟩ := hop d hd
          exact ⟨d, ⟨hx, .inl hd⟩, by rwa [hbit d hdn hdy]⟩
        case inr =>
          obtain ⟨hdn, hdy⟩ := hcp d hd
          refine ⟨d, ⟨hx, .inr hd⟩, ?_⟩
          rwa [bit, ← hj₂ _ (hne d hdn hdy)] at hb
      · rintro ⟨p, ⟨_, hp⟩, hb⟩
        obtain hp | hp := hp
        case inl =>
          obtain ⟨hpn, hpy⟩ := hop p hp
          exact .inl ⟨p, hp, by rwa [hbit p hpn hpy] at hb⟩
        case inr =>
          obtain ⟨hpn, hpy⟩ := hcp p hp
          exact .inr ⟨p, hp, by rwa [bit, hj₂ _ (hne p hpn hpy)] at hb⟩
  · have hyx : y ≠ x := by
      rintro rfl
      have := (List.nodup_append.mp hnd).2.1
      exact (List.nodup_cons.mp this).1 hy
    rw [hbit y (h.mem y (.tail _ hy)) hyx, h.rest y (.tail _ hy)]

theorem build_exact (hc : c.Valid) (ho : c.IsPostOrder order) :
    Yields (build c order) (Exact c · (order.idxOf ·)) := by
  have hmem (x : Nat) : x ∈ order ↔ x ∈ c.instructions := ho.perm.mem_iff
  have hi := create_indexes (ho.perm.nodup_iff.mpr hc.nodup)
  have h : Processed c (order.idxOf ·) order order (create order) :=
    ⟨hi.mono fun x hx => (hmem x).mpr hx, fun x hx => (hmem x).mp hx, ⟨[], rfl, by simp⟩, fun x hx a => create_bit (List.idxOf_lt_length_of_mem hx)⟩
  refine .imp (.foldlM (Processed c (order.idxOf ·) order) h fun x left m h => h.addDependencies hc ho) ?_
  intro b hb
  obtain ⟨done, hd, he⟩ := hb.suffix
  rw [List.append_nil] at hd
  exact exact_of_equation hb.indexes hc fun x hx => he x (hd ▸ (hmem x).mpr hx)

def line (length : Nat) : HloComputation :=
  .ofPredecessors 3 (fun y => if 0 < y ∧ y ≤ length then [y - 1] else []) fun _ => []

theorem line_valid (length : Nat) : (line length).Valid ∧ (line length).IsPostOrder (List.range 3) := by
  have h : ∀ y, ∀ x ∈ (if 0 < y ∧ y ≤ length then [y - 1] else []) ++ [], x < y := by
    intro y x hx
    split at hx
    case isTrue hy =>
      obtain rfl : x = y - 1 := by simpa using hx
      omega
    case isFalse => simp at hx
  exact ⟨ofPredecessors_valid h, ofPredecessors_isPostOrder h⟩

theorem line_edge {length x y : Nat} : (line length).Edge x y ↔ y < 3 ∧ y ≤ length ∧ y = x + 1 := by
  simp only [line, ofPredecessors, Edge, List.mem_range, List.not_mem_nil, or_false]
  split
  case isTrue h =>
    rw [List.mem_singleton]
    omega
  case isFalse h => simp; omega

end Hlo.HloReachabilityMap
