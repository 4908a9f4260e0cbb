import XlaModel.Lib.List
import XlaModel.Lib.PermutedView
import XlaModel.Shape.Util

namespace Shape

open View

variable {perm p₁ p₂ : List Nat} {seen : List Bool} {n d : Nat}

theorem isPermutation_loop_iff (h : seen.length = n) :
    IsPermutation.loop n perm seen = true ↔ (∀ p ∈ perm, p < n ∧ seen.getD p false = false) ∧ perm.Nodup := by
  induction perm generalizing seen
  case nil => simp [IsPermutation.loop]
  case cons p perm hi =>
    have hs {q : Nat} (hq : q ≠ p) : (seen.set p true).getD q false = seen.getD q false := by
      simp [List.getElem?_set_ne hq.symm]
    have hs' (hp : p < n) : (seen.set p true).getD p false = true := by
      simp [h, hp]
    rw [IsPermutation.loop]
    split_ifs with hp
    case pos => grind
    case neg =>
      obtain ⟨hlt, hf⟩ := not_or.mp hp
      have hlt := Nat.lt_of_not_le hlt
      rw [hi (by simpa), List.nodup_cons, List.forall_mem_cons]
      grind

theorem isPermutation_iff : isPermutation perm = true ↔ perm.Perm (List.range perm.length) := by
  rw [isPermutation, isPermutation_loop_iff (by simp)]
  constructor
  case mp =>
    rintro ⟨hp, hn⟩
    exact (List.subperm_of_subset hn fun p hp' => List.mem_range.mpr (hp p hp').1).perm_of_length_le (by simp)
  case mpr =>
    intro hp
    refine ⟨fun p hp' => ⟨List.mem_range.mp (hp.mem_iff.mp hp'), ?_⟩, hp.nodup_iff.mpr List.nodup_range⟩
    have := List.mem_range.mp (hp.mem_iff.mp hp')
    simp [this]

theorem inversePermutation_eq (h : perm.Perm (List.range n)) : inversePermutation perm = inverse perm := by
  have hl : perm.length = n := by simpa using h.length_eq
  refine List.ext_getElem? fun d => ?_
  rw [inversePermutation, List.getElem?_foldl_set (h.nodup_iff.mpr List.nodup_range) (by simp)]
  by_cases hd : d < n
  case pos =>
    have hm : d ∈ perm := h.mem_iff.mpr (List.mem_range.mpr hd)
    have hi := List.idxOf_lt_length_iff.mpr hm
    simp [inverse, hm, hl, hd, hl ▸ hi]
  case neg =>
    have hm : d ∉ perm := fun hm => hd (List.mem_range.mp (h.mem_iff.mp hm))
    simp [inverse, hm, hl, hd]

theorem composePermutations_eq (h : p₁.length = p₂.length) : composePermutations p₁ p₂ = .ok (p₂.map (p₁.getD · 0)) := by
  rw [composePermutations, check, if_pos (by simpa)]
  rfl

theorem permute_eq {input : List Nat} (h : perm.Perm (List.range input.length)) :
    permute input perm = .ok (perm.map (input.getD · 0)) := by
  have hl : perm.length = input.length := by simpa using h.length_eq
  rw [permute, check, if_pos (by simpa), check, if_pos (isPermutation_iff.mpr (hl ▸ h))]
  rfl

-- A permutation of the entries of a permutation.
theorem map_getD_perm (h : p₁.Perm (List.range n)) (h' : p₂.Perm (List.range n)) :
    (p₂.map (p₁.getD · 0)).Perm (List.range n) := by
  have hl : p₁.length = n := by simpa using h.length_eq
  refine (h'.map _).trans ?_
  rw [← hl, map_getD_range]
  exact hl ▸ h

end Shape
