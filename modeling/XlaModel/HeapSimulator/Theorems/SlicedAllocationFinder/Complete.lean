import XlaModel.HeapSimulator.Theorems.SlicedAllocationFinder.Find

namespace HeapSimulator.SlicedAllocationFinder

open DescendingMap FreeChunks FreeChunkRoot

variable {finder : SlicedAllocationFinder} {maps : List FreeChunks} {request : SliceRequest} {root : FreeChunkRoot}
  {permutation : List Nat} {offset : Int} {chunks : ChunksSortedBySliceTime}

theorem new_eq_some (h : SlicedAllocationFinder.new maps request = some finder) :
    ∃ (hne : maps ≠ []) (roots : List FreeChunkRoot), request.sortedSliceSizes.length = maps.length ∧
      finder = { request with maxColocationSize := effectiveMaxColocationSize request, freeChunks := roots } ∧
      roots.map (·.chunk) =
        ((maps.getLast hne).toList.filter fun c => c.1 < c.2).map (fun c => .fromOffsetEnd c.1 c.2) ∧
      Separated roots ∧ ∀ root ∈ roots, Sliced maps 0 root := by
  have hl : request.sortedSliceSizes.length = maps.length := by
    by_contra hl
    simp [SlicedAllocationFinder.new, guard, hl] at h
  have hne : maps ≠ [] := by
    rintro rfl
    simp [SlicedAllocationFinder.new, guard] at h
  obtain ⟨roots, hr, hm, hs, hsl⟩ := new_spec hl hne
  exact ⟨hne, roots, hl, Option.some.inj (h.symm.trans hr), hm, hs, hsl⟩

-- What the documentation of the finder promises of its results.
structure Allocation (maps : List FreeChunks) (request : SliceRequest) (permutation : List Nat) (offset : Int)
    (chunks : ChunksSortedBySliceTime) : Prop where
  length  : chunks.length = request.sortedSliceSizes.length + 1
  slices  : ∀ i t size, permutation[i]? = some t → request.sortedSliceSizes[i]? = some size →
    chunks[t]? = some (⟨offset + (request.sortedSliceSizes.take i).sum, size⟩ : Chunk)
  last    : chunks[request.sortedSliceSizes.length]? = some
    (⟨offset + request.sortedSliceSizes.sum, effectiveMaxColocationSize request - request.sortedSliceSizes.sum⟩ : Chunk)
  free    : ∀ t (chunk : Chunk), t < request.sortedSliceSizes.length → chunks[t]? = some chunk →
    ∀ x ∈ chunk, FreeFrom maps t x
  room    : ∃ last ∈ maps.getLast?, ∃ c ∈ last.toList,
    c.1 ≤ offset ∧ offset + effectiveMaxColocationSize request ≤ c.2
  aligned : request.alignment ∣ offset
  allowed : request.isOffsetAllowed offset

theorem Placed.getElem {good : Nat → Int → Prop} {slices : List (Nat × Int)} {i t : Nat} {size x : Int}
    (h : Placed good slices offset) (hi : slices[i]? = some (t, size))
    (hx : x ∈ (⟨offset + ((slices.map (·.2)).take i).sum, size⟩ : Chunk)) : good t x := by
  induction slices generalizing offset i
  case nil => simp at hi
  case cons s slices hj =>
    obtain ⟨time, size'⟩ := s
    cases i
    case zero =>
      obtain ⟨rfl, rfl⟩ : time = t ∧ size' = size := by simpa using hi
      rw [Chunk.mem_def, Chunk.chunkEnd] at hx
      simp only [List.take_zero, List.sum_nil, add_zero] at hx
      exact h.1 x hx.1 hx.2
    case succ i =>
      apply hj h.2 (by simpa using hi)
      simpa [add_assoc] using hx

theorem Sliced.freeFrom {t : Nat} {x : Int} (h : Sliced maps 0 root) (hf : FreeBy root.pieces t x) :
    FreeFrom maps t x := by
  obtain ⟨p, hp, hx, ht⟩ := hf
  have hl := (h.least x _ ⟨p, hp, hx, rfl⟩).1.2
  exact fun s hs => hl s (ht.trans hs)

theorem allocation_of_fits (h : SlicedAllocationFinder.new maps request = some finder) (hr : root ∈ finder.freeChunks)
    (hp : permutation ∈ finder.sliceTimePermutation)
    (hf : finder.doesPermutationFit root permutation offset = .ok ()) (hd : finder.alignment ∣ offset) :
    permutation ∈ request.sliceTimePermutation ∧
      Allocation maps request permutation offset (finder.permutationToChunks permutation offset) := by
  obtain ⟨hne, roots, hl, he, hm, -, hsl⟩ := new_eq_some h
  have hroots : finder.freeChunks = roots := by rw [he]
  have hsizes : request.sortedSliceSizes = finder.sortedSliceSizes := by rw [he]
  have hmax : effectiveMaxColocationSize request = finder.maxColocationSize := by rw [he]
  have hmem : permutation ∈ request.sliceTimePermutation := by rwa [he] at hp
  have hdvd : request.alignment ∣ offset := by rwa [he] at hd
  have hallowed : finder.isOffsetAllowed = request.isOffsetAllowed := by rw [he]
  have hlegal := finder.legal permutation hp
  rw [hroots] at hr
  have hfit := doesPermutationFit_sound (hsl root hr).partitioned hf
  refine ⟨hmem, ?length, ?slices, ?last, ?free, ?room, hdvd, hallowed ▸ hfit.allowed⟩
  case length =>
    rw [hsizes]
    exact length_permutationToChunks hlegal
  case slices =>
    rw [hsizes]
    exact fun i t size => permutationToChunks_getElem hlegal
  case last =>
    rw [hsizes, hmax]
    exact permutationToChunks_last hlegal
  case free =>
    intro t chunk ht hc x hx
    rw [hsizes] at ht
    obtain ⟨i, hi⟩ := List.mem_iff_getElem?.mp <| hlegal.mem_iff.mpr (List.mem_range.mpr ht)
    have hil : i < finder.sortedSliceSizes.length := hfit.length ▸ (List.getElem?_eq_some_iff.mp hi).1
    obtain ⟨size, hs⟩ : ∃ size, finder.sortedSliceSizes[i]? = some size := ⟨_, List.getElem?_eq_getElem hil⟩
    have hz : (permutation.zip finder.sortedSliceSizes)[i]? = some (t, size) := by
      simp [List.getElem?_zip_eq_some, hi, hs]
    obtain rfl := Option.some.inj <| hc.symm.trans (permutationToChunks_getElem hlegal hi hs)
    rw [←map_snd_zip hlegal] at hx
    exact (hsl root hr).freeFrom <| hfit.placed.getElem hz hx
  case room =>
    have hroot : root.chunk ∈ roots.map (·.chunk) := List.mem_map_of_mem hr
    rw [hm] at hroot
    obtain ⟨c, hc, he⟩ := List.mem_map.mp hroot
    rw [hmax]
    refine ⟨maps.getLast hne, List.getLast?_eq_some_getLast hne, c, (List.mem_filter.mp hc).1, ?lower, ?upper⟩
    case lower => simpa [←he] using hfit.lower
    case upper => simpa [←he] using hfit.upper

theorem search_allocation {only : Option Int} (h : SlicedAllocationFinder.new maps request = some finder)
    (hr : root ∈ finder.freeChunks) (hn : finder.findInRoot root only ≠ []) :
    ∃ permutation ∈ request.sliceTimePermutation, ∃ offset, (∀ o, only = some o → offset = o) ∧
      Allocation maps request permutation offset (finder.findInRoot root only) := by
  have hp : root.Partitioned := by
    obtain ⟨_, _, _, he, _, _, hsl⟩ := new_eq_some h
    rw [he] at hr
    exact (hsl root hr).partitioned
  have hs := @findInRoot_spec finder root only hp
  generalize finder.findInRoot root only = chunks at *
  cases hs
  case notFound => exact absurd rfl hn
  case found permutation offset hm hc hf =>
    obtain ⟨hm, ha⟩ := allocation_of_fits h hr hm hf hc.1
    refine ⟨permutation, hm, offset, fun o ho => ?_, ha⟩
    cases ho
    exact hc.2

end HeapSimulator.SlicedAllocationFinder

namespace HeapSimulator.SlicedAllocationFinder

open DescendingMap FreeChunks FreeChunkRoot

variable {finder : SlicedAllocationFinder} {maps : List FreeChunks} {request : SliceRequest} {root : FreeChunkRoot}
  {permutation : List Nat} {offset o : Int} {p : FreeChunkPiece}

def FitsAt (finder : SlicedAllocationFinder) (root : FreeChunkRoot) (o : Int) : Prop :=
  finder.alignment ∣ o ∧
    ∃ permutation ∈ finder.sliceTimePermutation, finder.doesPermutationFit root permutation o = .ok ()

section Single

theorem fitLoop_nil {slices : List (Nat × Int)} {i : Nat} {c : Int} (h : fitLoop root [] slices i c o = .ok ()) :
    slices = [] := by
  cases slices
  case nil  => rfl
  case cons => simp [fitLoop] at h

-- In a single piece, what fits at an offset fits at a smaller one.
theorem fitLoop_single {slices : List (Nat × Int)} {i : Nat} {c : Int} (hle : offset ≤ o)
    (h : fitLoop root [p] slices i c o = .ok ()) : fitLoop root [p] slices i c offset = .ok () := by
  induction slices generalizing i c o offset
  case nil => simp [fitLoop]
  case cons s slices hi =>
    rw [fitLoop] at h ⊢
    split_ifs at h with ht he hgt
    case pos =>
      obtain rfl := fitLoop_nil h
      rw [if_neg ht]
      split_ifs
      case pos => simp [fitLoop]
      case pos => omega
      case neg => simp [fitLoop]
    case pos => exact absurd (fitLoop_nil h) (List.cons_ne_nil _ _)
    case neg =>
      rw [if_neg ht, if_neg (by omega), if_neg (by omega)]
      apply hi _ h
      omega

-- Any offset of a root with a single piece may be replaced by the first one.
theorem FitsAt.firstOffset (h : root.Partitioned) (hone : root.pieces.length = 1) (hf : FitsAt finder root o)
    (ha : finder.isOffsetAllowed (finder.firstOffset root)) : FitsAt finder root (finder.firstOffset root) := by
  obtain ⟨hd, permutation, hp, hf⟩ := hf
  have hle := firstOffset_le (doesPermutationFit_sound h hf).lower hd
  have hge := @offset_le_firstOffset finder root
  obtain ⟨p, hps⟩ := List.length_eq_one_iff.mp hone
  have hpo : p.offset ≤ root.chunk.offset := by
    obtain ⟨q, hq, hx⟩ := (h.covers root.chunk.offset).mp ⟨le_rfl, Chunk.size_pos_iff.mp h.chunk_pos⟩
    obtain rfl : q = p := by simpa [hps] using hq
    exact hx.1
  have hw {o : Int} (hlt : p.offset ≤ o) : root.pieces.takeWhile (o < ·.offset) = [] ∧
      lowerBound FreeChunkPiece.offset root.pieces o = [p] := by
    simp [hps, lowerBound, not_lt.mpr hlt]
  obtain ⟨hl, ho, hm, -, q, qs, hlb, hfit⟩ := doesPermutationFit_iff.mp hf
  obtain ⟨rfl, rfl⟩ : q = p ∧ qs = [] := by simpa [(hw (hpo.trans (hge.trans hle))).2, eq_comm] using hlb
  rw [(hw (hpo.trans (hge.trans hle))).1] at hfit
  refine ⟨dvd_firstOffset, permutation, hp,
      doesPermutationFit_iff.mpr ⟨hl, by omega, by omega, ha, q, [], ?room, ?slices⟩⟩
  case room => exact (hw (hpo.trans hge)).2
  case slices =>
    rw [(hw (hpo.trans hge)).1]
    exact fitLoop_single hle hfit

end Single

section New

variable (h : SlicedAllocationFinder.new maps request = some finder)

include h

theorem root_partitioned (hr : root ∈ finder.freeChunks) : root.Partitioned := by
  obtain ⟨_, _, _, he, _, _, hsl⟩ := new_eq_some h
  rw [he] at hr
  exact (hsl root hr).partitioned

theorem root_nonneg (hr : root ∈ finder.freeChunks) : 0 ≤ root.chunk.offset := by
  obtain ⟨hne, roots, _, he, hm, -, -⟩ := new_eq_some h
  rw [he] at hr
  have hroot : root.chunk ∈ roots.map (·.chunk) := List.mem_map_of_mem hr
  rw [hm] at hroot
  obtain ⟨c, hc, he⟩ := List.mem_map.mp hroot
  rw [←he]
  exact ((maps.getLast hne).nonneg c (List.mem_filter.mp hc).1).1

-- The root at an offset is unique.
theorem lowerBound_of_fitsAt (hr : root ∈ finder.freeChunks) (hf : FitsAt finder root o) :
    ∃ roots, lowerBound FreeChunkRoot.offset finder.freeChunks o = root :: roots := by
  obtain ⟨-, permutation, -, hf⟩ := hf
  have hlow := (doesPermutationFit_sound (root_partitioned h hr) hf).lower
  have hlt := (doesPermutationFit_iff.mp hf).2.1
  have hsep : Separated finder.freeChunks := by
    obtain ⟨_, _, _, he, _, hs, _⟩ := new_eq_some h
    rw [he]
    exact hs
  have hmem : root ∈ lowerBound FreeChunkRoot.offset finder.freeChunks o := by
    by_contra hn
    have hgt : o < root.offset := lt_of_not_mem_lowerBound hr hn
    exact absurd hlow (not_le_of_gt hgt)
  cases hlb : lowerBound FreeChunkRoot.offset finder.freeChunks o
  case nil => simp [hlb] at hmem
  case cons r roots =>
    rw [hlb] at hmem
    obtain rfl | hmem := List.mem_cons.mp hmem
    case inl => exact ⟨roots, rfl⟩
    case inr =>
      have hs : Separated (r :: roots) := hlb ▸ hsep.sublist lowerBound_sublist
      have hle := (List.pairwise_cons.mp hs).1 root hmem
      have hr : r.offset ≤ o := lowerBound_head_le hlb
      rw [FreeChunkRoot.offset] at hr
      omega

theorem findForOffset_ne_nil (hr : root ∈ finder.freeChunks) (hf : FitsAt finder root o) :
    finder.findForOffset o ≠ [] := by
  intro hn
  obtain ⟨roots, hlb⟩ := lowerBound_of_fitsAt h hr hf
  obtain ⟨-, he⟩ | ⟨r, -, he, hne⟩ := @findForOffset_spec finder o
  case inl =>
    obtain ⟨hd, permutation, hp, hf⟩ := hf
    have hnil := (findInRoot_spec (root_partitioned h hr)).eq_nil_iff.mp (he root roots hlb)
    exact hnil o ⟨hd, rfl⟩ permutation hp hf
  case inr => exact hne (he ▸ hn)

theorem find_ne_nil_iff : finder.find ≠ [] ↔ ∃ root ∈ finder.freeChunks, ∃ o, FitsAt finder root o ∧
    (o = finder.preferredOffset ∨ root.pieces.length ≠ 1 ∨ o = finder.firstOffset root) := by
  obtain ⟨he, hpref, hall⟩ | ⟨root, hr, only, ho, he, hne⟩ := @find_spec finder
  case inl =>
    apply iff_of_false (not_not.mpr he)
    rintro ⟨root, hr, o, hf, ho⟩
    have hp := root_partitioned h hr
    obtain rfl | ho := ho
    case inl =>
      obtain ⟨permutation, _, hfit⟩ := hf.2
      have hnonneg := (root_nonneg h hr).trans (doesPermutationFit_sound hp hfit).lower
      exact findForOffset_ne_nil h hr hf (hpref hnonneg)
    case inr =>
      obtain ⟨hd, permutation, hm, hf⟩ := hf
      have hnil := (findInRoot_spec hp).eq_nil_iff.mp (hall root hr)
      exact hnil o ⟨hd, fun h => ho.resolve_left (not_not.mpr h)⟩ permutation hm hf
  case inr =>
    rw [he]
    apply iff_of_true hne
    have hs := @findInRoot_spec finder root only (root_partitioned h hr)
    generalize finder.findInRoot root only = chunks at *
    cases hs
    case notFound => exact absurd rfl hne
    case found permutation o hm hc hf =>
      refine ⟨root, hr, o, ⟨hc.1, permutation, hm, hf⟩, ?_⟩
      obtain rfl | rfl := ho
      case inl => exact .inr (or_iff_not_imp_left.mpr fun h => hc.2 (not_not.mp h))
      case inr => exact .inl hc.2

-- The search misses an allowed offset of a root with a single piece if its first offset is not allowed.
theorem find_complete_iff :
    ((∃ root ∈ finder.freeChunks, ∃ o, FitsAt finder root o) → finder.find ≠ []) ↔
      ((∃ root ∈ finder.freeChunks, ∃ o, FitsAt finder root o) →
        ∃ root ∈ finder.freeChunks, ∃ o, FitsAt finder root o ∧ (o = finder.preferredOffset ∨
          root.pieces.length ≠ 1 ∨ finder.isOffsetAllowed (finder.firstOffset root))) := by
  apply imp_congr_right
  intro _
  rw [find_ne_nil_iff h]
  constructor
  case mp =>
    rintro ⟨root, hr, o, hf, ho | hl | rfl⟩
    case inl     => exact ⟨root, hr, o, hf, .inl ho⟩
    case inr.inl => exact ⟨root, hr, o, hf, .inr (.inl hl)⟩
    case inr.inr =>
      obtain ⟨permutation, _, hfit⟩ := hf.2
      exact ⟨root, hr, _, hf, .inr <| .inr (doesPermutationFit_iff.mp hfit).2.2.2.1⟩
  case mpr =>
    rintro ⟨root, hr, o, hf, ho | hl | ha⟩
    case inl     => exact ⟨root, hr, o, hf, .inl ho⟩
    case inr.inl => exact ⟨root, hr, o, hf, .inr (.inl hl)⟩
    case inr.inr =>
      by_cases hl : root.pieces.length = 1
      case neg => exact ⟨root, hr, o, hf, .inr (.inl hl)⟩
      case pos => exact ⟨root, hr, _, hf.firstOffset (root_partitioned h hr) hl ha, .inr (.inr rfl)⟩

omit h

-- A slice of size 5 in the free chunk [0,10), where offset 5 only is allowed.
def onlyOffsetFive : SliceRequest :=
  ⟨[5], 5, -1, 1, [[0]], (· = 5), by decide, Int.one_pos, by decide⟩

theorem find_incomplete :
    ∃ finder, SlicedAllocationFinder.new [single 0 10 (by decide)] onlyOffsetFive = some finder ∧
      ¬((∃ root ∈ finder.freeChunks, ∃ o, FitsAt finder root o) → finder.find ≠ []) := by
  let root := FreeChunkRoot.new ⟨0, 10⟩ 0
  let finder : SlicedAllocationFinder := { onlyOffsetFive with freeChunks := [root] }
  have hfit : finder.doesPermutationFit root [0] 5 = .ok () := isOk_iff.mp (by decide +kernel)
  have hfind : finder.find = [] := by decide +kernel
  refine ⟨finder, rfl, fun h => h ⟨root, .head _, 5, ?_, [0], .head _, hfit⟩ hfind⟩
  exact one_dvd 5

theorem find_complete_iff_twoTimes :
    ∃ finder, SlicedAllocationFinder.new twoTimes twoSlices = some finder ∧
      (((∃ root ∈ finder.freeChunks, ∃ o, FitsAt finder root o) → finder.find ≠ []) ↔
        ((∃ root ∈ finder.freeChunks, ∃ o, FitsAt finder root o) →
          ∃ root ∈ finder.freeChunks, ∃ o, FitsAt finder root o ∧ (o = finder.preferredOffset ∨
            root.pieces.length ≠ 1 ∨ finder.isOffsetAllowed (finder.firstOffset root)))) := by
  obtain ⟨roots, hn, -⟩ := @new_spec twoTimes twoSlices rfl (List.cons_ne_nil _ _)
  exact ⟨_, hn, find_complete_iff hn⟩

end New
end HeapSimulator.SlicedAllocationFinder
