import Mathlib.Data.List.Chain
import XlaModel.HeapSimulator.Theorems.SlicedAllocationFinder.Update
import XlaModel.HeapSimulator.Theorems.SlicedAllocationFinder.New

namespace HeapSimulator

open DescendingMap

variable {root : FreeChunkRoot} {p q : FreeChunkPiece} {ps : List FreeChunkPiece} {x offset : Int}

namespace FreeChunkRoot

-- Adjacent pieces by ascending offsets, such that the first one contains `offset`.
def Adjacent : List FreeChunkPiece → Int → Prop
  | [],      _      => True
  | p :: ps, offset => offset ∈ p.dimensions ∧ Adjacent ps p.dimensions.chunkEnd

theorem Partitioned.mem_chunk (h : root.Partitioned) (hp : p ∈ root.pieces) (hx : x ∈ p.dimensions) : x ∈ root.chunk :=
  (h.covers x).mpr ⟨p, hp, hx⟩

theorem Partitioned.offset_mem (h : root.Partitioned) (hp : p ∈ root.pieces) : p.offset ∈ p.dimensions :=
  ⟨le_rfl, Chunk.size_pos_iff.mp (h.size_pos p hp)⟩

theorem Partitioned.isChain (h : root.Partitioned) : root.pieces.IsChain fun p q => q.dimensions.chunkEnd = p.offset := by
  apply List.isChain_iff_forall_rel_of_append_cons_cons.mpr
  intro p q l₁ l₂ he
  have hpw := h.pairwise
  have hmem : ∀ r, r ∈ root.pieces ↔ r ∈ l₁ ∨ r = p ∨ r = q ∨ r ∈ l₂ := by simp [he]
  have hp := (hmem p).mpr (by simp)
  have hq := (hmem q).mpr (by simp)
  rw [he, List.pairwise_append, List.pairwise_cons, List.pairwise_cons] at hpw
  obtain ⟨-, ⟨hp', hq', -⟩, hl⟩ := hpw
  apply le_antisymm (hp' q (.head _))
  by_contra hlt
  have hpm := Chunk.mem_def.mp <| h.mem_chunk hp (h.offset_mem hp)
  have hqm := Chunk.mem_def.mp <| h.mem_chunk hq (h.offset_mem hq)
  have hqo := (h.offset_mem hq).2
  -- The address after `q` belongs to no piece.
  obtain ⟨r, hr, hxr⟩ := (h.covers q.dimensions.chunkEnd).mp ⟨by omega, by omega⟩
  rw [Chunk.mem_def, ←FreeChunkPiece.offset] at hxr
  obtain hr | rfl | rfl | hr := (hmem r).mp hr
  case inl =>
    have hle := hl r hr p (.head _)
    have hpo := (h.offset_mem hp).2
    omega
  case inr.inl         => omega
  case inr.inr.inl     => omega
  case inr.inr.inr =>
    have hle := hq' r hr
    omega

theorem adjacent_of_isChain (hc : (p :: ps).IsChain fun p q => p.dimensions.chunkEnd = q.offset)
    (hp : ∀ q ∈ ps, 0 < q.dimensions.size) (hx : x ∈ p.dimensions) : Adjacent (p :: ps) x := by
  induction ps generalizing p x
  case nil => exact ⟨hx, trivial⟩
  case cons q ps hi =>
    obtain ⟨he, hc⟩ := List.isChain_cons_cons.mp hc
    have ⟨hq, hps⟩ := List.forall_mem_cons.mp hp
    exact ⟨hx, he ▸ hi hc hps ⟨le_rfl, Chunk.size_pos_iff.mp hq⟩⟩

-- The pieces that a permutation is compared with.
theorem Partitioned.adjacent (h : root.Partitioned) (hx : offset < root.chunk.chunkEnd)
    (hl : lowerBound FreeChunkPiece.offset root.pieces offset = p :: ps) :
    Adjacent (p :: (root.pieces.takeWhile (offset < ·.offset)).reverse) offset := by
  have happ : root.pieces.takeWhile (offset < ·.offset) ++ p :: ps = root.pieces := by
    rw [←hl]
    exact List.takeWhile_append_dropWhile
  have htw : ∀ r ∈ root.pieces.takeWhile (offset < ·.offset), offset < r.offset :=
    fun r hr => by simpa using List.mem_takeWhile_imp hr
  have hpo : p.offset ≤ offset := lowerBound_head_le hl
  generalize root.pieces.takeWhile (offset < ·.offset) = tw at *
  have hmem : ∀ r, r ∈ root.pieces ↔ r ∈ tw ∨ r = p ∨ r ∈ ps := by simp [←happ]
  have hp := (hmem p).mpr (by simp)
  have hpm := Chunk.mem_def.mp <| h.mem_chunk hp (h.offset_mem hp)
  have hmp : offset ∈ p.dimensions := by
    obtain ⟨r, hr, hxr⟩ := (h.covers offset).mp ⟨by omega, hx⟩
    obtain hr | rfl | hr := (hmem r).mp hr
    case inl =>
      exact absurd (htw r hr) (not_lt_of_ge hxr.1)
    case inr.inl => exact hxr
    case inr.inr =>
      have hpw := h.pairwise
      rw [←happ, List.pairwise_append, List.pairwise_cons] at hpw
      have hle := hpw.2.1.1 r hr
      exact absurd hxr.2 (by omega)
  have hc : (tw ++ [p]).IsChain fun p q => q.dimensions.chunkEnd = p.offset := by
    have hc := h.isChain
    rw [←happ, List.append_cons] at hc
    exact hc.left_of_append
  have hr := List.isChain_reverse.mpr hc
  rw [List.reverse_append, List.reverse_singleton, List.singleton_append] at hr
  apply adjacent_of_isChain hr _ hmp
  intro q hq
  exact h.size_pos q <| (hmem q).mpr <| .inl <| List.mem_reverse.mp hq

end FreeChunkRoot

namespace SlicedAllocationFinder

open FreeChunkRoot

variable {pieces : List FreeChunkPiece} {slices : List (Nat × Int)} {i : Nat} {consumed : Int}

-- All addresses of the slices that are placed from an offset on are good at the slice times of the slices.
def Placed (good : Nat → Int → Prop) : List (Nat × Int) → Int → Prop
  | [],                     _      => True
  | (time, size) :: slices, offset =>
    (∀ x, offset ≤ x → x < offset + size → good time x) ∧ Placed good slices (offset + size)

def FreeBy (pieces : List FreeChunkPiece) (time : Nat) (x : Int) : Prop :=
  ∃ p ∈ pieces, x ∈ p.dimensions ∧ p.earliestFreeSliceTime ≤ time

def consume (consumed : Int) : List (Nat × Int) → List (Nat × Int)
  | []                     => []
  | (time, size) :: slices => (time, size - consumed) :: slices

theorem Placed.imp {good good' : Nat → Int → Prop} (hg : ∀ t x, good t x → good' t x) (h : Placed good slices offset) :
    Placed good' slices offset := by
  induction slices generalizing offset
  case nil => trivial
  case cons s slices hi => exact ⟨fun x hl hr => hg _ x (h.1 x hl hr), hi h.2⟩

theorem FreeBy.cons {t : Nat} (h : FreeBy ps t x) : FreeBy (p :: ps) t x :=
  have ⟨q, hq, hx, ht⟩ := h
  ⟨q, .tail _ hq, hx, ht⟩

theorem consume_zero : consume 0 slices = slices := by
  cases slices <;> simp [consume]

-- The slice at the front has been consumed in part.
theorem fitLoop_sound (hf : fitLoop root pieces slices i consumed offset = .ok ()) (ha : Adjacent pieces offset)
    (hs : ∀ s ∈ slices, 0 ≤ s.2) (hc : ∀ s ∈ slices.head?, consumed ≤ s.2) :
    Placed (FreeBy pieces) (consume consumed slices) offset := by
  fun_induction fitLoop root pieces slices i consumed offset
  case case1 => trivial
  case case2 => cases hf
  case case3 => cases hf
  case case4 p pieces t size slices i consumed offset remS remP amount ht he hi =>
    have ⟨_, hsl⟩ := List.forall_mem_cons.mp hs
    have hz : ∀ s ∈ slices.head?, 0 ≤ s.2 := fun s hs => hsl s (List.mem_of_mem_head? hs)
    have hend : offset + amount = p.dimensions.chunkEnd := by simp only [amount, remP, he, min_self]; omega
    have hpl := hi hf (hend ▸ ha.2) hsl hz
    have hsize : amount = size - consumed := by simp only [amount, ←he, min_self, remS]
    rw [consume_zero, hsize] at hpl
    refine ⟨fun x hl hr => ?_, hpl.imp fun _ _ => .cons⟩
    exact ⟨p, .head _, ⟨ha.1.1.trans hl, by omega⟩, not_lt.mp ht⟩
  case case5 p pieces t size slices i consumed offset remS remP amount ht hne hgt hi =>
    have hend : offset + amount = p.dimensions.chunkEnd := by simp only [amount, min_eq_right hgt.le, remP]; omega
    have hle : ∀ s ∈ ((t, size) :: slices).head?, consumed + amount ≤ s.2 := by
      simp only [List.head?_cons, Option.mem_some_iff, forall_eq']
      omega
    have hpl := hi hf (hend ▸ ha.2) hs hle
    have hstart : offset + amount + (size - (consumed + amount)) = offset + (size - consumed) := by omega
    refine ⟨fun x hl hr => ?_, hstart ▸ hpl.2.imp fun _ _ => .cons⟩
    by_cases hx : x < offset + amount
    case pos => exact ⟨p, .head _, ⟨ha.1.1.trans hl, hend ▸ hx⟩, not_lt.mp ht⟩
    case neg => exact (hpl.1 x (not_lt.mp hx) (hstart ▸ hr)).cons
  case case6 p pieces t size slices i consumed offset remS remP amount ht hne hgt hi =>
    have ⟨_, hsl⟩ := List.forall_mem_cons.mp hs
    have hz : ∀ s ∈ slices.head?, 0 ≤ s.2 := fun s hs => hsl s (List.mem_of_mem_head? hs)
    have hcs : consumed ≤ size := hc _ rfl
    have hsize : amount = size - consumed := by
      rw [not_lt] at hgt
      simp only [amount, min_eq_left hgt, remS]
    have hlt : offset + amount < p.dimensions.chunkEnd := by omega
    have hpl := hi hf ⟨⟨by have := ha.1.1; omega, hlt⟩, ha.2⟩ hsl hz
    rw [consume_zero, hsize] at hpl
    refine ⟨fun x hl hr => ?_, hpl⟩
    exact ⟨p, .head _, ⟨ha.1.1.trans hl, by omega⟩, not_lt.mp ht⟩

section Permutation

variable {finder : SlicedAllocationFinder} {permutation : List Nat}

structure Fits (finder : SlicedAllocationFinder) (root : FreeChunkRoot) (permutation : List Nat) (offset : Int) :
    Prop where
  length  : permutation.length = finder.sortedSliceSizes.length
  lower   : root.chunk.offset ≤ offset
  upper   : offset + finder.maxColocationSize ≤ root.chunk.chunkEnd
  allowed : finder.isOffsetAllowed offset
  placed  : Placed (FreeBy root.pieces) (permutation.zip finder.sortedSliceSizes) offset

theorem doesPermutationFit_iff : finder.doesPermutationFit root permutation offset = .ok () ↔
    permutation.length = finder.sortedSliceSizes.length ∧ offset < root.chunk.chunkEnd ∧
      offset + finder.maxColocationSize ≤ root.chunk.chunkEnd ∧ finder.isOffsetAllowed offset ∧
        ∃ p ps, lowerBound FreeChunkPiece.offset root.pieces offset = p :: ps ∧
          fitLoop root (p :: (root.pieces.takeWhile (offset < ·.offset)).reverse)
            (permutation.zip finder.sortedSliceSizes) 0 0 offset = .ok () := by
  rw [doesPermutationFit]
  dsimp only
  split_ifs with hl ho hm ha
  case pos => simp [hl]
  case pos => simp [not_lt.mpr ho]
  case pos => simp [not_le.mpr hm]
  case pos => simp_all
  case neg =>
    rw [not_not] at hl
    rw [ge_iff_le, not_le] at ho
    rw [gt_iff_lt, not_lt] at hm
    have ha : finder.isOffsetAllowed offset = true := by simpa using ha
    cases hlb : lowerBound FreeChunkPiece.offset root.pieces offset
    case nil       => simp
    case cons p ps => simp [hl, ho, hm, ha]

theorem doesPermutationFit_sound (h : root.Partitioned)
    (hf : finder.doesPermutationFit root permutation offset = .ok ()) : Fits finder root permutation offset := by
  obtain ⟨hl, ho, hm, ha, p, ps, hlb, hf⟩ := doesPermutationFit_iff.mp hf
  have hadj := h.adjacent ho hlb
  have hp : p ∈ root.pieces := mem_of_lowerBound_eq hlb
  have hs : ∀ s ∈ permutation.zip finder.sortedSliceSizes, 0 ≤ s.2 :=
    fun s hs => finder.sizes_nonneg s.2 (List.of_mem_zip hs).2
  have hpl := fitLoop_sound hf hadj hs fun s h₀ => hs s (List.mem_of_mem_head? h₀)
  rw [consume_zero] at hpl
  refine ⟨hl, (h.mem_chunk hp (h.offset_mem hp)).1.trans hadj.1.1, hm, ha, hpl.imp ?_⟩
  rintro t x ⟨q, hq, hx, ht⟩
  refine ⟨q, ?_, hx, ht⟩
  obtain rfl | hq := List.mem_cons.mp hq
  case inl => exact hp
  case inr => exact (List.takeWhile_sublist _).subset (List.mem_reverse.mp hq)

end Permutation
end SlicedAllocationFinder
end HeapSimulator

namespace HeapSimulator.SlicedAllocationFinder

open DescendingMap FreeChunks FreeChunkRoot

variable {finder : SlicedAllocationFinder} {root : FreeChunkRoot} {permutation : List Nat} {offset o : Int}

section Chunks

variable {slices : List (Nat × Int)} {chunks : List Chunk} {t : Nat}

theorem length_placeSlices : (placeSlices slices offset chunks).1.length = chunks.length := by
  fun_induction placeSlices slices offset chunks
  case case1 => rfl
  case case2 hi => rw [hi, List.length_set]

theorem placeSlices_offset : (placeSlices slices offset chunks).2 = offset + (slices.map (·.2)).sum := by
  fun_induction placeSlices slices offset chunks
  case case1 => simp
  case case2 hi => rw [hi, List.map_cons, List.sum_cons, add_assoc]

theorem placeSlices_of_not_mem (h : t ∉ slices.map (·.1)) : (placeSlices slices offset chunks).1[t]? = chunks[t]? := by
  fun_induction placeSlices slices offset chunks
  case case1 => rfl
  case case2 hi =>
    obtain ⟨hne, hm⟩ := List.ne_and_not_mem_of_not_mem_cons h
    rw [hi hm, List.getElem?_set_ne (Ne.symm hne)]

-- The slices are placed one after the other.
theorem placeSlices_getElem {i : Nat} {size : Int} (hd : (slices.map (·.1)).Nodup) (hl : ∀ s ∈ slices, s.1 < chunks.length)
    (hi : slices[i]? = some (t, size)) :
    (placeSlices slices offset chunks).1[t]? = some ⟨offset + ((slices.map (·.2)).take i).sum, size⟩ := by
  fun_induction placeSlices slices offset chunks generalizing i
  case case1 => simp at hi
  case case2 s size' slices offset chunks hj =>
    obtain ⟨hs, hd⟩ := List.nodup_cons.mp hd
    have ⟨hsl, hl⟩ := List.forall_mem_cons.mp hl
    cases i
    case zero =>
      obtain ⟨rfl, rfl⟩ : s = t ∧ size' = size := by simpa using hi
      rw [placeSlices_of_not_mem hs, List.getElem?_set_self hsl]
      simp
    case succ i =>
      rw [hj hd (by simpa using hl) (by simpa using hi)]
      simp [add_assoc]

variable (hp : permutation.Perm (List.range finder.sortedSliceSizes.length))

include hp

theorem map_snd_zip : (permutation.zip finder.sortedSliceSizes).map (·.2) = finder.sortedSliceSizes :=
  List.map_snd_zip (by simpa using hp.length_eq.ge)

theorem map_fst_zip : (permutation.zip finder.sortedSliceSizes).map (·.1) = permutation :=
  List.map_fst_zip (by simpa using hp.length_eq.le)

theorem length_permutationToChunks :
    (finder.permutationToChunks permutation offset).length = finder.sortedSliceSizes.length + 1 := by
  rw [permutationToChunks]
  dsimp only
  rw [List.length_set, length_placeSlices, List.length_replicate, hp.length_eq, List.length_range]

-- The positions of the slices in space are given by the permutation.
theorem permutationToChunks_getElem {i : Nat} {size : Int} (ht : permutation[i]? = some t)
    (hs : finder.sortedSliceSizes[i]? = some size) :
    (finder.permutationToChunks permutation offset)[t]? =
      some ⟨offset + (finder.sortedSliceSizes.take i).sum, size⟩ := by
  have hlen := hp.length_eq
  rw [List.length_range] at hlen
  have hlt : ∀ t ∈ permutation, t < finder.sortedSliceSizes.length := fun t ht => List.mem_range.mp (hp.mem_iff.mp ht)
  have hd : ((permutation.zip finder.sortedSliceSizes).map (·.1)).Nodup := by
    rw [map_fst_zip hp]
    exact hp.nodup_iff.mpr List.nodup_range
  have hz : (permutation.zip finder.sortedSliceSizes)[i]? = some (t, size) := by simp [List.getElem?_zip_eq_some, ht, hs]
  have hpl := @placeSlices_getElem offset _ (List.replicate (permutation.length + 1) ⟨-1, 1⟩) t i size hd
    (by
      intro s hs
      have := hlt s.1 (List.of_mem_zip hs).1
      simp
      omega) hz
  have ht := hlt t (List.mem_of_getElem? ht)
  rw [permutationToChunks]
  dsimp only
  rw [List.getElem?_set_ne, hpl, map_snd_zip hp]
  rw [length_placeSlices, List.length_replicate]
  omega

theorem permutationToChunks_last :
    (finder.permutationToChunks permutation offset)[finder.sortedSliceSizes.length]? =
      some ⟨offset + finder.sortedSliceSizes.sum, finder.maxColocationSize - finder.sortedSliceSizes.sum⟩ := by
  have hlen := hp.length_eq
  rw [List.length_range] at hlen
  rw [permutationToChunks]
  dsimp only
  rw [length_placeSlices, List.length_replicate, Nat.add_sub_cancel, hlen, List.getElem?_set_self, placeSlices_offset,
    map_snd_zip hp, add_sub_cancel_left]
  rw [length_placeSlices, List.length_replicate]
  omega

end Chunks

section Search

variable {lastEnd : Int} {only : Option Int}

-- The result of a search for an offset with the property `P`.
inductive Search (finder : SlicedAllocationFinder) (root : FreeChunkRoot) (P : Int → Prop) :
    ChunksSortedBySliceTime → Prop
  | found (permutation : List Nat) (offset : Int) (hm : permutation ∈ finder.sliceTimePermutation) (hP : P offset)
      (hf : finder.doesPermutationFit root permutation offset = .ok ()) :
      Search finder root P (finder.permutationToChunks permutation offset)
  | notFound (h : ∀ offset, P offset → ∀ permutation ∈ finder.sliceTimePermutation,
      finder.doesPermutationFit root permutation offset ≠ .ok ()) : Search finder root P []

theorem Search.imp {P Q : Int → Prop} {chunks : ChunksSortedBySliceTime} (h : Search finder root P chunks)
    (hpq : ∀ o, P o → Q o)
    (hqp : ∀ o, Q o → ∀ permutation ∈ finder.sliceTimePermutation,
      finder.doesPermutationFit root permutation o = .ok () → P o) :
    Search finder root Q chunks := by
  cases h
  case found permutation offset hm hP hf => exact .found permutation offset hm (hpq offset hP) hf
  case notFound h => exact .notFound fun o hQ p hm hf => h o (hqp o hQ p hm hf) p hm hf

theorem isOk_iff {ε : Type} {r : Except ε Unit} : r.isOk = true ↔ r = .ok () := by
  cases r <;> simp [Except.isOk, Except.toBool]

-- The offsets that are tried, apart from the room that is left.
def Tried (finder : SlicedAllocationFinder) (root : FreeChunkRoot) (offset o : Int) : Prop :=
  offset ≤ o ∧ finder.alignment ∣ o - offset ∧ (root.pieces.length = 1 → o = offset)

theorem findAtOffsets_spec : Search finder root
    (fun o => Tried finder root offset o ∧ o + finder.maxColocationSize ≤ lastEnd)
    (finder.findAtOffsets root lastEnd offset) := by
  fun_induction finder.findAtOffsets root lastEnd offset
  case case1 offset hle permutation hf =>
    have hfit := isOk_iff.mp (List.find?_eq_some_iff_append.mp hf).1
    exact .found permutation offset (List.mem_of_find?_eq_some hf) ⟨⟨le_rfl, by simp, fun _ => rfl⟩, hle⟩ hfit
  case case2 offset hle hf hone =>
    apply Search.notFound
    rintro o ⟨⟨-, -, ho⟩, -⟩ p hp hfit
    have hn := List.find?_eq_none.mp hf p hp
    exact hn (isOk_iff.mpr (ho hone ▸ hfit))
  case case3 offset hle hf hone hi =>
    have hpos := finder.alignment_pos
    apply hi.imp
    case hpq =>
      rintro o ⟨⟨ho, hd, -⟩, hle⟩
      have he : o - offset = o - (offset + finder.alignment) + finder.alignment := by omega
      have hd' : finder.alignment ∣ o - offset := he ▸ dvd_add hd (dvd_refl finder.alignment)
      exact ⟨⟨by omega, hd', fun h => absurd h hone⟩, hle⟩
    case hqp =>
      rintro o ⟨⟨ho, hd, -⟩, hle⟩ p hp hfit
      have hne : o ≠ offset := by
        rintro rfl
        exact List.find?_eq_none.mp hf p hp (isOk_iff.mpr hfit)
      have hd' : finder.alignment ∣ o - (offset + finder.alignment) := by
        simpa [sub_sub] using dvd_sub hd (dvd_refl finder.alignment)
      have hle' := Int.le_of_dvd (by omega) hd
      exact ⟨⟨by omega, hd', fun h => absurd h hone⟩, hle⟩
  case case4 offset hgt =>
    apply Search.notFound
    rintro o ⟨⟨ho, -, -⟩, hle⟩
    omega

theorem dvd_firstOffset : finder.alignment ∣ finder.firstOffset root := by
  rw [firstOffset]
  split_ifs with h
  case pos =>
    have he : root.chunk.offset + (finder.alignment - root.chunk.offset % finder.alignment) =
        root.chunk.offset - root.chunk.offset % finder.alignment + finder.alignment := by omega
    rw [he]
    exact dvd_add (Int.dvd_self_sub_emod) (dvd_refl _)
  case neg => exact Int.dvd_of_emod_eq_zero (not_not.mp h)

theorem offset_le_firstOffset : root.chunk.offset ≤ finder.firstOffset root := by
  have hlt := Int.emod_lt_of_pos root.chunk.offset (by have := finder.alignment_pos; omega : 0 < finder.alignment)
  rw [firstOffset]
  split_ifs <;> omega

theorem firstOffset_le (ho : root.chunk.offset ≤ o) (hd : finder.alignment ∣ o) : finder.firstOffset root ≤ o := by
  have hpos := finder.alignment_pos
  by_contra hlt
  have hle := Int.le_of_dvd (by omega) (dvd_sub (@dvd_firstOffset finder root) hd)
  have hge := Int.emod_nonneg root.chunk.offset (by omega : finder.alignment ≠ 0)
  rw [firstOffset] at hle hlt
  split_ifs at hle hlt <;> omega

-- An offset that `findInRoot` tries.
def Candidate (finder : SlicedAllocationFinder) (root : FreeChunkRoot) (only : Option Int) (o : Int) : Prop :=
  finder.alignment ∣ o ∧
    match only with
    | some offset => o = offset
    | none        => root.pieces.length = 1 → o = finder.firstOffset root

theorem findInRoot_spec (h : root.Partitioned) :
    Search finder root (Candidate finder root only) (finder.findInRoot root only) := by
  cases only
  case none =>
    rw [findInRoot]
    apply findAtOffsets_spec.imp
    case hpq =>
      rintro o ⟨⟨-, hd, hone⟩, -⟩
      exact ⟨(dvd_sub_left dvd_firstOffset).mp hd, hone⟩
    case hqp =>
      rintro o ⟨hd, hone⟩ p - hfit
      have hf := doesPermutationFit_sound h hfit
      exact ⟨⟨firstOffset_le hf.lower hd, dvd_sub hd dvd_firstOffset, hone⟩, hf.upper⟩
  case some offset =>
    rw [findInRoot]
    split_ifs with ha
    case pos =>
      apply Search.notFound
      rintro o ⟨hd, rfl⟩
      exact absurd (Int.emod_eq_zero_of_dvd hd) ha
    case neg =>
      apply findAtOffsets_spec.imp
      case hpq =>
        rintro o ⟨⟨hle, -, -⟩, hge⟩
        obtain rfl : o = offset := by omega
        exact ⟨Int.dvd_of_emod_eq_zero (not_not.mp ha), rfl⟩
      case hqp =>
        rintro o ⟨-, rfl⟩ p - -
        exact ⟨⟨le_rfl, by simp, fun _ => rfl⟩, le_rfl⟩

theorem Search.eq_nil_iff {P : Int → Prop} {chunks : ChunksSortedBySliceTime} (h : Search finder root P chunks) :
    chunks = [] ↔ ∀ o, P o → ∀ permutation ∈ finder.sliceTimePermutation,
      finder.doesPermutationFit root permutation o ≠ .ok () := by
  cases h
  case notFound h => exact ⟨fun _ => h, fun _ => rfl⟩
  case found permutation offset hm hP hf =>
    have hl := @length_permutationToChunks finder permutation offset (finder.legal permutation hm)
    constructor
    case mp =>
      intro he
      rw [he] at hl
      cases hl
    case mpr => exact fun h => absurd hf (h offset hP permutation hm)

end Search

section Heap

theorem findInHeap_spec {heap : List FreeChunkRoot} :
    (finder.findInHeap heap = [] ∧ ∀ r ∈ heap, finder.findInRoot r none = []) ∨
      ∃ r ∈ heap, finder.findInHeap heap = finder.findInRoot r none ∧ finder.findInRoot r none ≠ [] := by
  induction heap
  case nil => exact .inl ⟨rfl, by simp⟩
  case cons r heap hi =>
    rw [findInHeap]
    split_ifs with h
    case pos => exact .inr ⟨r, .head _, rfl, h⟩
    case neg =>
      rw [not_not] at h
      obtain ⟨he, hn⟩ | ⟨r', hr, he, hn⟩ := hi
      case inl => exact .inl ⟨he, List.forall_mem_cons.mpr ⟨h, hn⟩⟩
      case inr => exact .inr ⟨r', .tail _ hr, he, hn⟩

theorem findForOffset_spec :
    (finder.findForOffset o = [] ∧ ∀ r rs, lowerBound FreeChunkRoot.offset finder.freeChunks o = r :: rs →
      finder.findInRoot r o = []) ∨
    ∃ r ∈ finder.freeChunks, finder.findForOffset o = finder.findInRoot r o ∧ finder.findInRoot r o ≠ [] := by
  rw [findForOffset]
  cases h : lowerBound FreeChunkRoot.offset finder.freeChunks o
  case nil => exact .inl ⟨rfl, by simp⟩
  case cons r rs =>
    by_cases he : finder.findInRoot r o = []
    case pos =>
      refine .inl ⟨he, fun r' rs' h' => ?_⟩
      exact (List.cons_eq_cons.mp h').1 ▸ he
    case neg => exact .inr ⟨r, mem_of_lowerBound_eq h, rfl, he⟩

theorem mem_heap : root ∈ finder.freeChunks.reverse.mergeSort heapLe ↔ root ∈ finder.freeChunks := by
  rw [List.mem_mergeSort, List.mem_reverse]

theorem find_spec :
    (finder.find = [] ∧ (0 ≤ finder.preferredOffset → finder.findForOffset finder.preferredOffset = []) ∧
      ∀ r ∈ finder.freeChunks, finder.findInRoot r none = []) ∨
    ∃ r ∈ finder.freeChunks, ∃ only, (only = none ∨ only = some finder.preferredOffset) ∧
      finder.find = finder.findInRoot r only ∧ finder.findInRoot r only ≠ [] := by
  rw [find]
  by_cases hp : (if finder.preferredOffset ≥ 0 then finder.findForOffset finder.preferredOffset else []) ≠ []
  case pos =>
    rw [if_pos hp]
    split_ifs at hp ⊢
    case pos =>
      obtain ⟨he, -⟩ | ⟨r, hr, he, hn⟩ := @findForOffset_spec finder finder.preferredOffset
      case inl => exact absurd he hp
      case inr => exact .inr ⟨r, hr, some finder.preferredOffset, .inr rfl, he, hn⟩
    case neg => exact absurd rfl hp
  case neg =>
    rw [if_neg hp]
    rw [not_not] at hp
    obtain ⟨he, hn⟩ | ⟨r, hr, he, hn⟩ := @findInHeap_spec finder (finder.freeChunks.reverse.mergeSort heapLe)
    case inl => exact .inl ⟨he, fun h => by rwa [if_pos h] at hp, fun r hr => hn r (mem_heap.mpr hr)⟩
    case inr => exact .inr ⟨r, mem_heap.mp hr, none, .inl rfl, he, hn⟩

end Heap
end HeapSimulator.SlicedAllocationFinder
