import Mathlib.Data.List.GetD
import XlaModel.Lib.PermutedView

-- Views of an array whose dimensions are split into blocks of dimensions.
namespace View

variable {blocks blocks' : List (List Nat)} {perm xs ys : List Nat} {cut : Nat → Nat} {b d j k m n : Nat}

def first (blocks : List (List Nat)) (d : Nat) : Nat :=
  (blocks.take d).flatten.length

def block (blocks : List (List Nat)) (d : Nat) : List Nat :=
  List.range' (first blocks d) (blocks.getD d []).length

@[simp]
theorem length_block : (block blocks d).length = (blocks.getD d []).length := by
  simp [block]

@[simp]
theorem first_zero : first blocks 0 = 0 := by
  simp [first]

theorem first_succ : first blocks (d + 1) = first blocks d + (blocks.getD d []).length := by
  rw [first, List.take_add_one, List.flatten_append, List.length_append, first, List.getD_eq_getElem?_getD]
  cases blocks[d]? <;> simp

theorem first_congr (h : blocks.map List.length = blocks'.map List.length) : first blocks d = first blocks' d := by
  rw [first, first, List.length_flatten, List.length_flatten, List.map_take, List.map_take, h]

theorem length_getD_congr (h : blocks.map List.length = blocks'.map List.length) :
    (blocks.getD d []).length = (blocks'.getD d []).length := by
  have hg (blocks : List (List Nat)) : (blocks.getD d []).length = (blocks.map List.length).getD d 0 := by
    exact (List.getD_map blocks [] List.length).symm
  rw [hg, hg, h]

theorem block_congr (h : blocks.map List.length = blocks'.map List.length) : block blocks d = block blocks' d := by
  rw [block, block, first_congr h, length_getD_congr h]

theorem flatten_eq_append (hd : d < blocks.length) :
    blocks.flatten = (blocks.take d).flatten ++ blocks[d] ++ (blocks.drop (d + 1)).flatten := by
  conv_lhs => rw [← List.take_append_drop d blocks, List.drop_eq_getElem_cons hd]
  rw [List.flatten_append, List.flatten_cons, List.append_assoc]

theorem map_range'_getD (xs ys zs : List Nat) (x : Nat) :
    (List.range' xs.length ys.length).map ((xs ++ ys ++ zs).getD · x) = ys := by
  refine List.ext_getElem (by simp) fun i h₁ h₂ => ?_
  simp [List.getElem?_append_right, List.getElem?_append_left, h₂]

-- A block of dimensions lists the sizes of its dimensions.
theorem map_block (hd : d < blocks.length) (x : Nat) : (block blocks d).map (blocks.flatten.getD · x) = blocks[d] := by
  rw [block, List.getD_eq_getElem _ _ hd, flatten_eq_append hd]
  exact map_range'_getD _ _ _ x

theorem same_range' (xs ys zs : List Nat) :
    Same ((List.range' xs.length ys.length).map (axis (xs ++ ys ++ zs))) [⟨ys.prod, zs.prod⟩] := by
  induction ys generalizing xs
  case nil => exact (same_one rfl).symm
  case cons y ys hi =>
    have hx : axis (xs ++ y :: ys ++ zs) xs.length = ⟨y, ys.prod * zs.prod⟩ := by
      rw [List.append_assoc, List.cons_append, axis_append, List.prod_append]
    have hs := hi (xs ++ [y])
    rw [List.length_append, List.length_singleton] at hs
    rw [List.length_cons, List.range'_succ, List.map_cons, hx, List.prod_cons]
    simp only [List.append_assoc, List.cons_append] at hs ⊢
    exact hs.cons.trans (same_merge rfl)

-- A block of dimensions is a single dimension of the size of their product.
theorem same_block (hd : d < blocks.length) :
    Same (permuted blocks.flatten (block blocks d)) [axis (blocks.map List.prod) d] := by
  have ha : axis (blocks.map List.prod) d = ⟨blocks[d].prod, (blocks.drop (d + 1)).flatten.prod⟩ := by
    simp [axis, stride, hd, List.prod_flatten]
  rw [permuted, block, List.getD_eq_getElem _ _ hd, ha, flatten_eq_append hd]
  exact same_range' _ _ _

theorem permuted_append : permuted xs (ys ++ zs) = permuted xs ys ++ permuted xs zs :=
  List.map_append

theorem same_blocks (h : ∀ d ∈ perm, d < blocks.length) :
    Same (permuted blocks.flatten (perm.flatMap (block blocks))) (permuted (blocks.map List.prod) perm) := by
  induction perm
  case nil => exact .refl _
  case cons d perm hi =>
    rw [List.flatMap_cons, permuted_append]
    exact (same_block (h d (.head _))).append (hi fun e he => h e (.tail _ he))

theorem flatMap_block_range (hn : n ≤ blocks.length) :
    (List.range n).flatMap (block blocks) = List.range (first blocks n) := by
  induction n
  case zero => rfl
  case succ n hi =>
    rw [List.range_succ, List.flatMap_append, hi (Nat.le_of_succ_le hn), List.flatMap_singleton, first_succ, block,
      List.range_eq_range', List.range_eq_range']
    conv_lhs => arg 2; rw [← Nat.zero_add (first blocks n)]
    exact List.range'_append_1

theorem flatMap_block_perm (h : perm.Perm (List.range blocks.length)) :
    (perm.flatMap (block blocks)).Perm (List.range blocks.flatten.length) := by
  have hr := flatMap_block_range (le_refl blocks.length)
  rw [first, List.take_length] at hr
  exact hr ▸ h.flatMap_right (block blocks)

section BlockIndex

-- The block that a position belongs to.
def blockIndex : List (List Nat) → Nat → Nat
  | [],              _ => 0
  | block :: blocks, k => if k < block.length then 0 else blockIndex blocks (k - block.length) + 1

theorem mem_block_iff : k ∈ block blocks d ↔ first blocks d ≤ k ∧ k < first blocks (d + 1) := by
  rw [block, List.mem_range'_1, first_succ]

theorem first_mono (h : d ≤ n) : first blocks d ≤ first blocks n := by
  induction n, h using Nat.le_induction
  case base        => exact le_rfl
  case succ n _ hi => exact hi.trans (first_succ ▸ Nat.le_add_right _ _)

theorem first_cons_succ (xs : List Nat) : first (xs :: blocks) (d + 1) = xs.length + first blocks d := by
  simp [first]

theorem blockIndex_spec (hk : k < blocks.flatten.length) :
    blockIndex blocks k < blocks.length ∧ k ∈ block blocks (blockIndex blocks k) := by
  induction blocks generalizing k
  case nil => simp at hk
  case cons xs blocks hi =>
    simp only [blockIndex]
    split
    case isTrue h => exact ⟨Nat.succ_pos _, mem_block_iff.mpr ⟨by simp, by simpa [first_cons_succ] using h⟩⟩
    case isFalse h =>
      rw [List.flatten_cons, List.length_append] at hk
      obtain ⟨hl, hm⟩ := @hi (k - xs.length) (by omega)
      rw [mem_block_iff] at hm ⊢
      rw [first_cons_succ, first_cons_succ, List.length_cons]
      omega

theorem block_unique (hd : k ∈ block blocks d) (hn : k ∈ block blocks n) : d = n := by
  rw [mem_block_iff] at hd hn
  rcases Nat.lt_trichotomy d n with h | h | h
  case inl =>
    have : first blocks (d + 1) ≤ first blocks n := first_mono h
    omega
  case inr.inl => exact h
  case inr.inr =>
    have : first blocks (n + 1) ≤ first blocks d := first_mono h
    omega

theorem lt_length_of_mem_block (hd : d < blocks.length) (hk : k ∈ block blocks d) : k < blocks.flatten.length := by
  have h := (mem_block_iff.mp hk).2.trans_le (first_mono hd)
  rwa [first, List.take_length] at h

theorem blockIndex_eq (hd : d < blocks.length) (hk : k ∈ block blocks d) : blockIndex blocks k = d :=
  block_unique (blockIndex_spec (lt_length_of_mem_block hd hk)).2 hk

theorem blockIndex_mono (h : j ≤ k) (hk : k < blocks.flatten.length) : blockIndex blocks j ≤ blockIndex blocks k := by
  have hj := mem_block_iff.mp (blockIndex_spec (h.trans_lt hk)).2
  have hk := mem_block_iff.mp (blockIndex_spec hk).2
  by_contra hlt
  have : first blocks (blockIndex blocks k + 1) ≤ first blocks (blockIndex blocks j) := first_mono (not_le.mp hlt)
  omega

end BlockIndex

section Slices

-- Positions that divide a list of dimensions into `m` blocks.
structure Cuts (xs : List Nat) (m : Nat) (cut : Nat → Nat) : Prop where
  zero : cut 0 = 0
  step : ∀ k < m, cut k ≤ cut (k + 1)
  last : cut m = xs.length

def slices (xs : List Nat) (m : Nat) (cut : Nat → Nat) : List (List Nat) :=
  (List.range m).map fun k => (xs.drop (cut k)).take (cut (k + 1) - cut k)

@[simp]
theorem length_slices : (slices xs m cut).length = m := by
  simp [slices]

namespace Cuts

variable (h : Cuts xs m cut)
include h

theorem mono (hj : j ≤ k) (hk : k ≤ m) : cut j ≤ cut k := by
  induction k, hj using Nat.le_induction
  case base        => exact le_rfl
  case succ k _ hi => exact (hi (Nat.le_of_succ_le hk)).trans (h.step k hk)

theorem le_length (hk : k ≤ m) : cut k ≤ xs.length :=
  h.last ▸ h.mono hk le_rfl

theorem flatten_take (hk : k ≤ m) : ((slices xs m cut).take k).flatten = xs.take (cut k) := by
  induction k
  case zero => simp [h.zero]
  case succ k hi =>
    have hs : (slices xs m cut)[k]? = some ((xs.drop (cut k)).take (cut (k + 1) - cut k)) := by
      simp [slices, Nat.lt_of_succ_le hk]
    have hc : cut k + (cut (k + 1) - cut k) = cut (k + 1) := Nat.add_sub_cancel' (h.step k hk)
    rw [List.take_add_one, hs, List.flatten_append, hi (Nat.le_of_succ_le hk), Option.toList_some, List.flatten_singleton,
      ← List.take_add, hc]

theorem flatten : (slices xs m cut).flatten = xs := by
  have hf := h.flatten_take le_rfl
  rwa [List.take_of_length_le (by rw [length_slices]), h.last, List.take_length] at hf

theorem first (hk : k ≤ m) : first (slices xs m cut) k = cut k := by
  rw [View.first, h.flatten_take hk, List.length_take, Nat.min_eq_left (h.le_length hk)]

theorem block (hk : k < m) : block (slices xs m cut) k = List.range' (cut k) (cut (k + 1) - cut k) := by
  have hs := h.first (Nat.succ_le_of_lt hk)
  rw [first_succ, h.first hk.le] at hs
  rw [View.block, h.first hk.le, ← hs, Nat.add_sub_cancel_left]

theorem prod_take (hk : k < m) :
    (xs.take (cut (k + 1))).prod = (xs.take (cut k)).prod * ((slices xs m cut).map List.prod).getD k 1 := by
  have hs : k < ((slices xs m cut).map List.prod).length := by simpa
  rw [← h.flatten_take hk.le, ← h.flatten_take hk, List.prod_flatten, List.prod_flatten, List.map_take, List.map_take,
    List.take_succ_eq_append_getElem hs, List.prod_append, List.prod_singleton, List.getD_eq_getElem _ _ hs]

end Cuts

end Slices

end View
