import XlaModel.Lib.Path
import XlaModel.Lib.Fallible
import XlaModel.Hlo.ReachabilityMap
import XlaModel.Hlo.Theorems.BitSet

namespace Hlo

open Relation

namespace HloComputation

def Edge (c : HloComputation) (x y : Nat) : Prop :=
  y ∈ c.instructions ∧ (x ∈ c.operands y ∨ x ∈ c.controlPredecessors y)

structure Valid (c : HloComputation) : Prop where
  nodup             : c.instructions.Nodup
  mem               : ∀ {x y}, c.Edge x y → x ∈ c.instructions
  users             : ∀ x ∈ c.instructions, ∀ y, y ∈ c.users x ↔ y ∈ c.instructions ∧ x ∈ c.operands y
  controlSuccessors : ∀ x ∈ c.instructions, ∀ y,
    y ∈ c.controlSuccessors x ↔ y ∈ c.instructions ∧ x ∈ c.controlPredecessors y
  acyclic           : ∀ x, ¬TransGen c.Edge x x

-- Every instruction comes after its operands and control predecessors.
structure IsPostOrder (c : HloComputation) (order : List Nat) : Prop where
  perm : order.Perm c.instructions
  pred : ∀ {x y before after}, order = before ++ y :: after → c.Edge x y → x ∈ before

theorem mem_predecessors {c : HloComputation} {x y : Nat} (hy : y ∈ c.instructions) :
    x ∈ c.operands y ++ c.controlPredecessors y ↔ c.Edge x y := by
  rw [List.mem_append, Edge, and_iff_right hy]

namespace Valid

variable {c : HloComputation} (h : c.Valid)
include h

theorem wellFounded : WellFounded c.Edge :=
  wellFounded_of_acyclic (fun _ _ he => h.mem he) h.acyclic

theorem wellFounded_flip : WellFounded (fun s x => c.Edge x s) :=
  wellFounded_of_acyclic (fun _ _ he => he.1) fun x ht => h.acyclic x (transGen_swap.mp ht)

theorem mem_successors {x y : Nat} (hx : x ∈ c.instructions) :
    y ∈ c.users x ++ c.controlSuccessors x ↔ c.Edge x y := by
  rw [List.mem_append, h.users x hx, h.controlSuccessors x hx, Edge, and_or_left]

theorem exists_weight : ∃ w : Nat → Nat, ∀ x ∈ c.instructions,
    w x = 1 + ((c.users x ++ c.controlSuccessors x).map w).sum := by
  let successors (x : Nat) : List Nat := if x ∈ c.instructions then c.users x ++ c.controlSuccessors x else []
  have hs : ∀ x, ∀ s ∈ successors x, c.Edge x s := by
    intro x s hs
    by_cases hx : x ∈ c.instructions
    case pos => exact (h.mem_successors hx).mp (by rwa [show successors x = _ from if_pos hx] at hs)
    case neg => rw [show successors x = _ from if_neg hx] at hs; simp at hs
  obtain ⟨w, hw⟩ := Relation.exists_weight h.wellFounded_flip hs
  exact ⟨w, fun x hx => by rw [hw, show successors x = _ from if_pos hx]⟩

end Valid
section OfPredecessors

variable {n : Nat} {operands controlPredecessors : Nat → List Nat}

theorem ofPredecessors_valid (h : ∀ y, ∀ x ∈ operands y ++ controlPredecessors y, x < y) :
    (ofPredecessors n operands controlPredecessors).Valid := by
  have hlt : ∀ x y, (ofPredecessors n operands controlPredecessors).Edge x y → x < y :=
    fun x y he => h y x (List.mem_append.mpr he.2)
  refine ⟨List.nodup_range, fun {x y} he => ?_, fun x _ y => ?_, fun x _ y => ?_, fun x ht => ?_⟩
  · have hy : y < n := List.mem_range.mp he.1
    exact List.mem_range.mpr ((hlt x y he).trans hy)
  · simp [ofPredecessors]
  · simp [ofPredecessors]
  · exact lt_irrefl x (ht.rank_lt (β := Nat) hlt)

theorem ofPredecessors_isPostOrder (h : ∀ y, ∀ x ∈ operands y ++ controlPredecessors y, x < y) :
    (ofPredecessors n operands controlPredecessors).IsPostOrder (List.range n) where
  perm := .refl _
  pred {x y before after} ho he := by
    have hx : x ∈ before ++ y :: after := ho ▸ (ofPredecessors_valid h).mem he
    have hs : (before ++ y :: after).Pairwise (· < ·) := ho ▸ List.pairwise_lt_range
    have hxy : x < y := h y x (List.mem_append.mpr he.2)
    obtain hx | hx := List.mem_append.mp hx
    case inl => exact hx
    case inr =>
      have hy := (List.pairwise_cons.mp (List.pairwise_append.mp hs).2.1).1
      obtain rfl | hx := List.mem_cons.mp hx
      case inl => exact absurd hxy (lt_irrefl x)
      case inr => exact absurd hxy (hy x hx).asymm

end OfPredecessors
end HloComputation

namespace HloReachabilityMap

open HloComputation BitSet

variable {c : HloComputation} {m m' : HloReachabilityMap} {nodes inputs : List Nat} {x y a i j : Nat}

-- Every one of the instructions has an index and a row of its own.
structure Indexes (m : HloReachabilityMap) (nodes : List Nat) (index : Nat → Nat) : Prop where
  getIndex : ∀ x ∈ nodes, m.getIndex x = some (index x)
  inj      : ∀ x ∈ nodes, ∀ y ∈ nodes, index x = index y → x = y
  lt       : ∀ x ∈ nodes, index x < m.rows.length
  words    : ∀ r ∈ m.rows, r.words.length = m.wordsPerBitset
  le       : m.rows.length ≤ 64 * m.wordsPerBitset

variable {index : Nat → Nat}

def bit (m : HloReachabilityMap) (i j : Nat) : Bool :=
  (m.bitSetFromIndex j).get i

-- The rows are the sets of the ancestors.
structure Exact (c : HloComputation) (m : HloReachabilityMap) (index : Nat → Nat) : Prop extends
    Indexes m c.instructions index where
  bit : ∀ x ∈ c.instructions, ∀ a ∈ c.instructions,
    m.bit (index a) (index x) = true ↔ ReflTransGen c.Edge a x

namespace Indexes

theorem length_bitSet (h : Indexes m nodes index) : (m.bitSetFromIndex i).words.length = m.wordsPerBitset := by
  rw [bitSetFromIndex]
  by_cases hi : i < m.rows.length
  case pos =>
    rw [List.getD_eq_getElem _ _ hi]
    exact h.words _ (List.getElem_mem hi)
  case neg =>
    rw [List.getD_eq_default _ _ (Nat.le_of_not_lt hi)]
    simp [BitSet.zero]

theorem setBitSet (h : Indexes m nodes index) {b : BitSet} (hb : b.words.length = m.wordsPerBitset) :
    Indexes (m.setBitSet i b) nodes index where
  getIndex := h.getIndex
  inj      := h.inj
  lt x hx  := by simpa [HloReachabilityMap.setBitSet] using h.lt x hx
  le       := by simpa [HloReachabilityMap.setBitSet] using h.le
  words r hr := by
    obtain hr | rfl := List.mem_or_eq_of_mem_set hr
    case inl => exact h.words r hr
    case inr => exact hb

theorem mono {nodes' : List Nat} (h : Indexes m nodes index) (hn : ∀ x ∈ nodes', x ∈ nodes) :
    Indexes m nodes' index where
  getIndex x hx := h.getIndex x (hn x hx)
  inj x hx y hy := h.inj x (hn x hx) y (hn y hy)
  lt x hx       := h.lt x (hn x hx)
  words         := h.words
  le            := h.le

theorem index_lt (h : Indexes m nodes index) (hx : x ∈ nodes) : index x < 64 * m.wordsPerBitset :=
  (h.lt x hx).trans_le h.le

end Indexes

theorem bitSetFromIndex_setBitSet {b : BitSet} (hi : i < m.rows.length) :
    (m.setBitSet i b).bitSetFromIndex j = if i = j then b else m.bitSetFromIndex j := by
  rw [bitSetFromIndex, bitSetFromIndex, setBitSet, List.getD_eq_getElem?_getD, List.getElem?_set,
    List.getD_eq_getElem?_getD]
  split <;> simp_all

section Union

variable {is : List Nat}

theorem length_foldl_or (h : Indexes m nodes index) {b : BitSet} (hb : b.words.length = m.wordsPerBitset) :
    (is.foldl (fun b i => if i ≠ j then b.or (m.bitSetFromIndex i) else b) b).words.length = m.wordsPerBitset := by
  induction is generalizing b
  case nil => exact hb
  case cons i is hi =>
    rw [List.foldl_cons]
    split
    case isTrue  => exact hi (by simp [BitSet.or, hb, h.length_bitSet])
    case isFalse => exact hi hb

theorem get_foldl_or (h : Indexes m nodes index) {b : BitSet} (hb : b.words.length = m.wordsPerBitset) :
    (is.foldl (fun b i => if i ≠ j then b.or (m.bitSetFromIndex i) else b) b).get a = true ↔
      b.get a = true ∨ ∃ i ∈ is, i ≠ j ∧ m.bit a i = true := by
  induction is generalizing b
  case nil => simp
  case cons i is hi =>
    rw [List.foldl_cons]
    split
    case isTrue hne =>
      rw [hi (by simp [BitSet.or, hb, h.length_bitSet]), get_or (hb.trans h.length_bitSet.symm)]
      simp [hne, or_assoc, bit]
    case isFalse hne =>
      rw [hi hb]
      simp only [not_not] at hne
      simp [hne]

theorem mapM_getIndex (h : Indexes m nodes index) (hi : ∀ p ∈ inputs, p ∈ nodes) :
    inputs.mapM m.getIndex = some (inputs.map index) := by
  induction inputs
  case nil => rfl
  case cons p inputs ih =>
    rw [List.mapM_cons, h.getIndex p (hi p (.head _)), ih fun q hq => hi q (.tail _ hq)]
    rfl

-- The row of an instruction is replaced by the union of the rows of other instructions.
theorem setReachabilityToUnion_spec (h : Indexes m nodes index) (hx : x ∈ nodes) (hi : ∀ p ∈ inputs, p ∈ nodes)
    (hn : x ∉ inputs) :
    ∃ m' changed, m.setReachabilityToUnion inputs x = some (m', changed) ∧ Indexes m' nodes index ∧
      (∀ j, j ≠ index x → m'.bitSetFromIndex j = m.bitSetFromIndex j) ∧
      (∀ a, m'.bit a (index x) = true ↔ a = index x ∨ ∃ p ∈ inputs, m.bit a (index p) = true) ∧
      (changed = false → m'.bitSetFromIndex (index x) = m.bitSetFromIndex (index x)) := by
  have hni : index x ∉ inputs.map index := by
    intro hm
    obtain ⟨p, hp, he⟩ := List.mem_map.mp hm
    exact hn (h.inj p (hi p hp) x hx he ▸ hp)
  have hb : (((m.bitSetFromIndex (index x)).setToZero).set (index x)).words.length = m.wordsPerBitset := by
    simp [BitSet.set, setToZero, BitSet.zero, h.length_bitSet]
  obtain ⟨b, hbl, hbg, hm⟩ : ∃ b : BitSet, b.words.length = m.wordsPerBitset ∧
      (∀ a, b.get a = true ↔ a = index x ∨ ∃ p ∈ inputs, m.bit a (index p) = true) ∧
      m.setReachabilityToUnionHelper (inputs.map index) (index x) = m.setBitSet (index x) b := by
    refine ⟨_, length_foldl_or h hb, fun a => ?_, by rw [setReachabilityToUnionHelper, if_neg hni]⟩
    have hlt : index x < 64 * (m.bitSetFromIndex (index x)).setToZero.words.length := by
      simpa [setToZero, BitSet.zero, h.length_bitSet] using h.index_lt hx
    rw [get_foldl_or h hb, get_set hlt, get_setToZero, Bool.false_or, decide_eq_true_iff]
    have he : (∃ i ∈ inputs.map index, i ≠ index x ∧ m.bit a i = true) ↔
        ∃ p ∈ inputs, m.bit a (index p) = true := by
      constructor
      · rintro ⟨i, hm, _, hb⟩
        obtain ⟨p, hp, rfl⟩ := List.mem_map.mp hm
        exact ⟨p, hp, hb⟩
      · rintro ⟨p, hp, hb⟩
        exact ⟨index p, List.mem_map_of_mem hp, fun he => hni (he ▸ List.mem_map_of_mem hp), hb⟩
    rw [he]
  have hr (j : Nat) : (m.setBitSet (index x) b).bitSetFromIndex j =
      if index x = j then b else m.bitSetFromIndex j :=
    bitSetFromIndex_setBitSet (h.lt x hx)
  refine ⟨m.setBitSet (index x) b, decide (b ≠ m.bitSetFromIndex (index x)), ?_, h.setBitSet hbl, ?_, ?_, ?_⟩
  · rw [setReachabilityToUnion, h.getIndex x hx, mapM_getIndex h hi]
    simp only [Option.bind_eq_bind, Option.bind_some, hm, hr, if_true]
    rfl
  · exact fun j hj => by rw [hr, if_neg (Ne.symm hj)]
  · exact fun a => by rw [bit, hr, if_pos rfl, hbg]
  · intro hc
    rw [hr, if_pos rfl]
    simpa using hc

end Union

-- The row of an instruction is the union of the rows of its predecessors.
def Equation (c : HloComputation) (m : HloReachabilityMap) (index : Nat → Nat) (x : Nat) : Prop :=
  ∀ a ∈ c.instructions, m.bit (index a) (index x) = true ↔
    a = x ∨ ∃ p, c.Edge p x ∧ m.bit (index a) (index p) = true

theorem Exact.equation (h : Exact c m index) (hc : c.Valid) (hx : x ∈ c.instructions) : Equation c m index x := by
  intro a ha
  rw [h.bit x hx a ha, ReflTransGen.cases_tail_iff, eq_comm]
  refine or_congr_right (exists_congr fun p => ?_)
  constructor
  · rintro ⟨hr, he⟩
    exact ⟨he, (h.bit p (hc.mem he) a ha).mpr hr⟩
  · rintro ⟨he, hb⟩
    exact ⟨(h.bit p (hc.mem he) a ha).mp hb, he⟩

theorem exact_of_equation (h : Indexes m c.instructions index) (hc : c.Valid)
    (he : ∀ x ∈ c.instructions, Equation c m index x) : Exact c m index := by
  have hself : ∀ x ∈ c.instructions, m.bit (index x) (index x) = true :=
    fun x hx => (he x hx x hx).mpr (.inl rfl)
  let R (x a : Nat) : Prop := a = x ∨ (x ∈ c.instructions ∧ a ∈ c.instructions ∧ m.bit (index a) (index x) = true)
  have hR : ∀ x a, R x a ↔ a = x ∨ ∃ p, c.Edge p x ∧ R p a := by
    intro x a
    constructor
    · rintro (rfl | ⟨hx, ha, hb⟩)
      case inl => exact .inl rfl
      case inr =>
        obtain rfl | ⟨p, hp, hb⟩ := (he x hx a ha).mp hb
        case inl => exact .inl rfl
        case inr => exact .inr ⟨p, hp, .inr ⟨hc.mem hp, ha, hb⟩⟩
    · rintro (rfl | ⟨p, hp, rfl | ⟨_, ha, hb⟩⟩)
      case inl     => exact .inl rfl
      case inr.inl => exact .inr ⟨hp.1, hc.mem hp, (he x hp.1 a (hc.mem hp)).mpr (.inr ⟨a, hp, hself a (hc.mem hp)⟩)⟩
      case inr.inr => exact .inr ⟨hp.1, ha, (he x hp.1 a ha).mpr (.inr ⟨p, hp, hb⟩)⟩
  refine ⟨h, fun x hx a ha => ?_⟩
  rw [← reflTransGen_iff_of_equation hc.wellFounded hR]
  constructor
  · exact fun hb => .inr ⟨hx, ha, hb⟩
  · rintro (rfl | ⟨_, _, hb⟩)
    case inl => exact hself a hx
    case inr => exact hb

theorem Exact.isReachable (h : Exact c m index) (ha : a ∈ c.instructions) (hx : x ∈ c.instructions) :
    ∃ b, m.isReachable a x = some b ∧ (b = true ↔ ReflTransGen c.Edge a x) := by
  unfold HloReachabilityMap.isReachable
  split
  case isTrue heq => exact ⟨true, rfl, by simp [heq, ReflTransGen.refl]⟩
  case isFalse hne =>
    refine ⟨_, by rw [h.getIndex a ha, h.getIndex x hx]; rfl, ?_⟩
    have : index a ≠ index x := fun he => hne (h.inj a ha x hx he)
    rw [Bool.or_eq_true, decide_eq_true_iff, or_iff_right this]
    exact h.bit x hx a ha

end HloReachabilityMap
end Hlo
