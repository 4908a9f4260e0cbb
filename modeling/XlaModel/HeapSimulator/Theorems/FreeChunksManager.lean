import Mathlib
import XlaModel.HeapSimulator.FreeChunksManager
import XlaModel.Lib.SeparatedIntervals

namespace HeapSimulator

namespace MemoryChunk

variable {a b : MemoryChunk}

instance : IsTrans MemoryChunk AlignedSizeLessThan where
  trans a b c hab hbc := by
    simp only [AlignedSizeLessThan] at *
    omega

theorem alignedSizeLessThan_total (h : a.id ≠ b.id) : AlignedSizeLessThan a b ∨ AlignedSizeLessThan b a := by
  simp only [AlignedSizeLessThan]
  omega

end MemoryChunk

namespace FreeChunksManager

open MemoryChunk SeparatedIntervals

-- The free chunks of a manager by their offsets. What the index by size holds besides them is marked as removed.
structure Represents (chunkAlignment : Int → Int) (manager : FreeChunksManager) (live : List MemoryChunk) : Prop where
  byOffset     : manager.freeChunksByOffset = veryBeginningChunk :: (live ++ [veryEndChunk])
  separated    : Separated MemoryChunk.offset MemoryChunk.end_ live
  range        : ∀ x ∈ live, 0 ≤ x.offset ∧ x.end_ ≤ int64Max - 3
  aligned      : ∀ x ∈ live, x.alignedChunkOffset = chunkAlignment x.offset
  ids          : live.Pairwise (·.id ≠ ·.id)
  idNonneg     : ∀ x ∈ live, 0 ≤ x.id
  nextNonneg   : 0 ≤ manager.nextFreeChunkId
  bySize       : manager.freeChunksBySize.Pairwise AlignedSizeLessThan
  indexed      : ∀ x ∈ live, x ∈ manager.freeChunksBySize
  kept         : ∀ x ∈ live, x.id ∉ manager.freeChunksToBeRemoved
  stale        : ∀ x ∈ manager.freeChunksBySize, x ∈ live ∨ x.id ∈ manager.freeChunksToBeRemoved
  fresh        : ∀ x ∈ manager.freeChunksBySize, x.id < manager.nextFreeChunkId
  freshRemoved : ∀ i ∈ manager.freeChunksToBeRemoved, i < manager.nextFreeChunkId

variable {chunkAlignment : Int → Int} {manager : FreeChunksManager} {live as bs : List MemoryChunk}
  {chunk x : MemoryChunk} {offset end_ v : Int}

theorem forall_mem_middle {P : MemoryChunk → Prop} : (∀ x ∈ as ++ chunk :: bs, P x) ↔ P chunk ∧ ∀ x ∈ as ++ bs, P x := by
  simp only [List.mem_append, List.mem_cons, or_imp, forall_and, forall_eq]
  tauto

abbrev free (live : List MemoryChunk) : Set Int :=
  covered MemoryChunk.offset MemoryChunk.end_ live

theorem free_append : free (as ++ bs) = free as ∪ free bs :=
  covered_append

theorem free_cons : free (chunk :: bs) = Set.Ico chunk.offset chunk.end_ ∪ free bs :=
  covered_cons

theorem free_create : free [{ offset := 0, end_ := int64Max - 3, alignedChunkOffset := v, id := 2 }] =
    Set.Ico 0 (int64Max - 3) := by
  ext v
  simp [covered]

theorem Represents.create : Represents chunkAlignment (create chunkAlignment)
    [{ offset := 0, end_ := int64Max - 3, alignedChunkOffset := chunkAlignment 0, id := 2 }] where
  byOffset     := rfl
  separated    := ⟨by simp [int64Max], by simp⟩
  range        := by simp
  aligned      := by simp
  ids          := by simp
  idNonneg     := by simp
  nextNonneg   := by simp [FreeChunksManager.create]
  bySize       := by simp [FreeChunksManager.create]
  indexed      := by simp [FreeChunksManager.create]
  kept         := by simp [FreeChunksManager.create]
  stale        := by simp [FreeChunksManager.create]
  fresh        := by simp [FreeChunksManager.create]
  freshRemoved := by simp [FreeChunksManager.create]

namespace Represents

theorem erase_byOffset (h : Represents chunkAlignment manager (as ++ chunk :: bs)) :
    manager.freeChunksByOffset.erase chunk = veryBeginningChunk :: (as ++ bs ++ [veryEndChunk]) := by
  have hr := h.range chunk (by simp)
  have hb : veryBeginningChunk ≠ chunk := by
    rintro rfl
    simp [veryBeginningChunk] at hr
  have ha : chunk ∉ as := fun ha => (List.pairwise_append.mp h.ids).2.2 chunk ha chunk List.mem_cons_self rfl
  rw [h.byOffset, List.erase_cons_tail (by simpa using hb), List.append_assoc, List.erase_append_right _ ha]
  simp

theorem remove (h : Represents chunkAlignment manager (as ++ chunk :: bs)) :
    Represents chunkAlignment (manager.removeFreeChunk chunk) (as ++ bs) := by
  have hs : (as ++ bs).Sublist (as ++ chunk :: bs) := (List.Sublist.refl _).append (List.sublist_cons_self _ _)
  have hne : ∀ x ∈ as ++ bs, x.id ≠ chunk.id := by
    obtain ⟨ha, hb, hab⟩ := List.pairwise_append.mp h.ids
    intro x hx
    obtain hx | hx := List.mem_append.mp hx
    case inl => exact hab x hx chunk List.mem_cons_self
    case inr => exact ((List.pairwise_cons.mp hb).1 x hx).symm
  constructor
  case byOffset     => exact h.erase_byOffset
  case separated    => exact ⟨fun x hx => h.separated.nonempty x (hs.subset hx), h.separated.pairwise.sublist hs⟩
  case range        => exact fun x hx => h.range x (hs.subset hx)
  case aligned      => exact fun x hx => h.aligned x (hs.subset hx)
  case ids          => exact h.ids.sublist hs
  case idNonneg     => exact fun x hx => h.idNonneg x (hs.subset hx)
  case nextNonneg   => exact h.nextNonneg
  case bySize       => exact h.bySize
  case indexed      => exact fun x hx => h.indexed x (hs.subset hx)
  case kept         =>
    intro x hx hm
    obtain he | hm := List.mem_cons.mp hm
    case inl => exact hne x hx he
    case inr => exact h.kept x (hs.subset hx) hm
  case stale        =>
    intro x hx
    obtain hl | hm := h.stale x hx
    case inr => exact .inr (List.mem_cons_of_mem _ hm)
    case inl =>
      simp only [List.mem_append, List.mem_cons] at hl ⊢
      obtain hl | rfl | hl := hl
      case inl     => exact .inl (.inl hl)
      case inr.inl => exact .inr List.mem_cons_self
      case inr.inr => exact .inl (.inr hl)
  case fresh        => exact h.fresh
  case freshRemoved =>
    intro i hi
    obtain rfl | hi := List.mem_cons.mp hi
    case inl => exact h.fresh chunk (h.indexed chunk (by simp))
    case inr => exact h.freshRemoved i hi

theorem insert_byOffset (h : Represents chunkAlignment manager (as ++ bs)) (hlt : chunk.offset < chunk.end_)
    (ho : 0 ≤ chunk.offset) (he : chunk.end_ ≤ int64Max - 3) (ha : ∀ x ∈ as, x.end_ < chunk.offset)
    (hb : ∀ x ∈ bs, chunk.end_ < x.offset) :
    BTreeSet.insert OffsetLessThan chunk manager.freeChunksByOffset =
    veryBeginningChunk :: (as ++ chunk :: bs ++ [veryEndChunk]) := by
  have ha' : ∀ x ∈ veryBeginningChunk :: as, OffsetLessThan x chunk := by
    intro x hx
    obtain rfl | hx := List.mem_cons.mp hx
    case inl => exact .inl (by simp only [veryBeginningChunk]; omega)
    case inr =>
      have hn := h.separated.nonempty x (List.mem_append_left _ hx)
      exact .inl (hn.trans (ha x hx))
  have hb' : ∀ x ∈ bs ++ [veryEndChunk], ¬OffsetLessThan x chunk ∧ OffsetLessThan chunk x := by
    intro x hx
    have hlt' : chunk.end_ < x.offset := by
      obtain hx | hx := List.mem_append.mp hx
      case inl => exact hb x hx
      case inr =>
        obtain rfl := List.mem_singleton.mp hx
        simp only [veryEndChunk]
        omega
    simp only [OffsetLessThan]
    omega
  have hs := BTreeSet.insert_append ha' hb'
  simpa [h.byOffset] using hs

-- A new chunk goes where neither neighbour touches it.
theorem add (h : Represents chunkAlignment manager (as ++ bs)) (hlt : offset < end_) (ho : 0 ≤ offset)
    (he : end_ ≤ int64Max - 3) (ha : ∀ x ∈ as, x.end_ < offset) (hb : ∀ x ∈ bs, end_ < x.offset) :
    ∃ chunk : MemoryChunk, chunk.offset = offset ∧ chunk.end_ = end_ ∧
      Represents chunkAlignment (manager.addNewFreeChunk chunkAlignment offset end_) (as ++ chunk :: bs) := by
  obtain ⟨chunk, hc⟩ : ∃ chunk : MemoryChunk, chunk = ⟨offset, end_, chunkAlignment offset, manager.nextFreeChunkId⟩ :=
    ⟨_, rfl⟩
  have hadd : manager.addNewFreeChunk chunkAlignment offset end_ = { manager with
      freeChunksByOffset := BTreeSet.insert OffsetLessThan chunk manager.freeChunksByOffset
      freeChunksBySize   := BTreeSet.insert AlignedSizeLessThan chunk manager.freeChunksBySize
      nextFreeChunkId    := manager.nextFreeChunkId + 1 } := by
    rw [hc]
    rfl
  obtain ⟨rfl, rfl, hal, hid⟩ : chunk.offset = offset ∧ chunk.end_ = end_ ∧
      chunk.alignedChunkOffset = chunkAlignment offset ∧ chunk.id = manager.nextFreeChunkId := by simp [hc]
  have hne : ∀ x ∈ manager.freeChunksBySize, x.id ≠ chunk.id := fun x hx => hid ▸ (h.fresh x hx).ne
  have htot : ∀ x ∈ manager.freeChunksBySize, AlignedSizeLessThan x chunk ∨ AlignedSizeLessThan chunk x := fun x hx =>
    alignedSizeLessThan_total (hne x hx)
  have hmem {x : MemoryChunk} := BTreeSet.mem_insert (y := x) h.bySize htot
  refine ⟨chunk, rfl, rfl, ?_⟩
  rw [hadd]
  constructor
  case byOffset     => exact h.insert_byOffset hlt ho he ha hb
  case separated    => exact h.separated.insert hlt ha hb
  case range        => exact forall_mem_middle.mpr ⟨⟨ho, he⟩, h.range⟩
  case aligned      => exact forall_mem_middle.mpr ⟨hal, h.aligned⟩
  case ids          =>
    apply (List.pairwise_middle fun h => h.symm).mpr
    exact List.pairwise_cons.mpr ⟨fun x hx => (hne x (h.indexed x hx)).symm, h.ids⟩
  case idNonneg     => exact forall_mem_middle.mpr ⟨hid ▸ h.nextNonneg, h.idNonneg⟩
  case nextNonneg   => exact h.nextNonneg.trans (Int.lt_succ _).le
  case bySize       => exact BTreeSet.pairwise_insert h.bySize htot
  case indexed      => exact forall_mem_middle.mpr ⟨hmem.mpr (.inl rfl), fun x hx => hmem.mpr (.inr (h.indexed x hx))⟩
  case kept         => exact forall_mem_middle.mpr ⟨fun hm => (hid ▸ h.freshRemoved _ hm).false, h.kept⟩
  case stale        =>
    intro x hx
    obtain rfl | hx := hmem.mp hx
    case inl => simp
    case inr =>
      obtain hl | hm := h.stale x hx
      case inl => exact .inl (List.mem_append.mpr ((List.mem_append.mp hl).imp_right (List.mem_cons_of_mem _)))
      case inr => exact .inr hm
  case fresh        =>
    intro x hx
    obtain rfl | hx := hmem.mp hx
    case inl => exact hid ▸ Int.lt_succ _
    case inr => exact (h.fresh x hx).trans (Int.lt_succ _)
  case freshRemoved => exact fun i hi => (h.freshRemoved i hi).trans (Int.lt_succ _)

end Represents
end FreeChunksManager
end HeapSimulator

namespace HeapSimulator.FreeChunksManager

open MemoryChunk SeparatedIntervals

variable {chunkAlignment : Int → Int} {manager : FreeChunksManager} {live as bs : List MemoryChunk}
  {chunk x : MemoryChunk} {offset end_ size v : Int}

namespace Represents

section Allocate

theorem before_append_cons (h : Represents chunkAlignment manager (as ++ chunk :: bs)) (ho : chunk.offset ≤ offset)
    (he : offset < chunk.end_) :
    BTreeSet.before OffsetLessThan { offset, end_ := int64Max } manager.freeChunksByOffset =
    veryBeginningChunk :: (as ++ [chunk]) := by
  obtain ⟨-, hs, hab⟩ := separated_append.mp h.separated
  have hr := h.range chunk (by simp)
  have hl : ∀ x ∈ veryBeginningChunk :: (as ++ [chunk]), OffsetLessThan x { offset, end_ := int64Max } := by
    intro x hx
    simp only [List.mem_cons, List.mem_append, List.not_mem_nil, or_false] at hx
    obtain rfl | hx | rfl := hx
    case inl     => exact .inl (by simp only [veryBeginningChunk]; omega)
    case inr.inr =>
      simp only [OffsetLessThan]
      omega
    case inr.inl =>
      have hn := h.separated.nonempty x (List.mem_append_left _ hx)
      exact .inl ((hn.trans (hab x hx chunk List.mem_cons_self)).trans_le ho)
  have hg : ∀ x ∈ bs ++ [veryEndChunk], ¬OffsetLessThan x { offset, end_ := int64Max } := by
    intro x hx
    have hlt : offset < x.offset := by
      obtain hx | hx := List.mem_append.mp hx
      case inl => exact he.trans ((List.pairwise_cons.mp hs.pairwise).1 x hx)
      case inr =>
        obtain rfl := List.mem_singleton.mp hx
        simp only [veryEndChunk]
        omega
    simp only [OffsetLessThan]
    omega
  have hb := BTreeSet.before_append hl hg
  simpa [h.byOffset] using hb

-- What remains of a chunk on one side of an allocation.
theorem addRemainder (h : Represents chunkAlignment manager (as ++ bs)) (hle : offset ≤ end_) (ho : 0 ≤ offset)
    (he : end_ ≤ int64Max - 3) (ha : ∀ x ∈ as, x.end_ < offset) (hb : offset < end_ → ∀ x ∈ bs, end_ < x.offset) :
    ∃ mid, Represents chunkAlignment
      (if offset < end_ then manager.addNewFreeChunk chunkAlignment offset end_ else manager) (as ++ (mid ++ bs)) ∧
      free mid = Set.Ico offset end_ ∧ ∀ x ∈ mid, offset = x.offset := by
  by_cases hlt : offset < end_
  case neg =>
    rw [if_neg hlt]
    exact ⟨[], h, by simp [hlt], by simp⟩
  case pos =>
    rw [if_pos hlt]
    obtain ⟨chunk, rfl, rfl, hadd⟩ := h.add hlt ho he ha (hb hlt)
    exact ⟨[chunk], hadd, by simp [free_cons], by simp⟩

theorem exists_chunk (h : Represents chunkAlignment manager live) (hle : offset ≤ end_)
    (hf : Set.Ico offset end_ ⊆ free live) (he : offset = end_ → offset ∈ free live ∧ offset - 1 ∉ free live) :
    ∃ chunk ∈ live, chunk.offset ≤ offset ∧ end_ ≤ chunk.end_ ∧ offset < chunk.end_ ∧
      (offset = end_ → chunk.offset = offset) := by
  obtain rfl | hlt := hle.eq_or_lt
  case inl =>
    obtain ⟨⟨chunk, hc, ho, hlt⟩, hp⟩ := he rfl
    refine ⟨chunk, hc, ho, hlt.le, hlt, fun _ => ?_⟩
    by_contra hne
    exact hp ⟨chunk, hc, by omega, by omega⟩
  case inr =>
    obtain ⟨chunk, hc, ho, hle⟩ := h.separated.exists_of_subset hlt fun v h₁ h₂ => hf ⟨h₁, h₂⟩
    exact ⟨chunk, hc, ho, hle, by omega, by omega⟩

-- A free range leaves the free chunk it lies in. An empty one may only touch the start of the chunk.
theorem allocate (h : Represents chunkAlignment manager live) (hle : offset ≤ end_)
    (hf : Set.Ico offset end_ ⊆ free live) (he : offset = end_ → offset ∈ free live ∧ offset - 1 ∉ free live) :
    ∃ manager' live', manager.allocate chunkAlignment offset end_ = some manager' ∧
      Represents chunkAlignment manager' live' ∧ free live' = free live \ Set.Ico offset end_ := by
  obtain ⟨chunk, hc, ho, hce, hlt, heq⟩ := h.exists_chunk hle hf he
  obtain ⟨as, bs, rfl⟩ := List.append_of_mem hc
  obtain ⟨hsa, hs, hab⟩ := separated_append.mp h.separated
  have hr := h.range chunk hc
  have ha : ∀ x ∈ as, x.end_ < chunk.offset := fun x hx => hab x hx chunk List.mem_cons_self
  have hb : ∀ x ∈ bs, chunk.end_ < x.offset := (List.pairwise_cons.mp hs.pairwise).1
  obtain ⟨right, hright, hfr, hor⟩ := h.remove.addRemainder hce (by omega) hr.2
    (fun x hx => (ha x hx).trans_le (ho.trans hle)) fun _ => hb
  have hb' : chunk.offset < offset → ∀ x ∈ right ++ bs, offset < x.offset := by
    intro hlt' x hx
    obtain hx | hx := List.mem_append.mp hx
    case inl => exact hor x hx ▸ hle.lt_of_ne fun h => hlt'.ne (heq h)
    case inr => exact hlt.trans (hb x hx)
  obtain ⟨left, hleft, hfl, -⟩ := hright.addRemainder ho hr.1 (by omega) ha hb'
  refine ⟨_, _, ?allocate, hleft, ?free⟩
  case allocate =>
    rw [FreeChunksManager.allocate, h.before_append_cons ho hlt]
    simp [List.getLast?_cons, ho, hce]
  case free =>
    have hva : ∀ v ∈ free as, v < chunk.offset := fun v ⟨x, hx, _, hv⟩ => hv.trans (ha x hx)
    have hvb : ∀ v ∈ free bs, chunk.end_ < v := fun v ⟨x, hx, hv, _⟩ => (hb x hx).trans_le hv
    simp only [free_append, free_cons]
    rw [hfl, hfr, middle_sdiff_Ico hva hvb ho hle hce]

end Allocate

section Deallocate

theorem lowerBound_end (h : Represents chunkAlignment manager (as ++ bs)) (ho : 0 ≤ end_) (he : end_ ≤ int64Max - 3)
    (ha : ∀ x ∈ as, x.offset < end_) (hb : ∀ x ∈ bs, end_ ≤ x.offset) :
    BTreeSet.lowerBound OffsetLessThan { offset := end_, end_ := end_ + 1 } manager.freeChunksByOffset =
    bs ++ [veryEndChunk] := by
  have hl : ∀ x ∈ veryBeginningChunk :: as, OffsetLessThan x { offset := end_, end_ := end_ + 1 } := by
    intro x hx
    obtain rfl | hx := List.mem_cons.mp hx
    case inl => exact .inl (by simp only [veryBeginningChunk]; omega)
    case inr => exact .inl (ha x hx)
  have hg : ∀ x ∈ bs ++ [veryEndChunk], ¬OffsetLessThan x { offset := end_, end_ := end_ + 1 } := by
    intro x hx
    simp only [OffsetLessThan]
    obtain hx | hx := List.mem_append.mp hx
    case inl =>
      have hn := h.separated.nonempty x (List.mem_append_right _ hx)
      have hle := hb x hx
      omega
    case inr =>
      obtain rfl := List.mem_singleton.mp hx
      simp only [veryEndChunk]
      omega
  have hb := BTreeSet.lowerBound_append hl hg
  simpa [h.byOffset] using hb

theorem deallocateAbove (h : Represents chunkAlignment manager (as ++ bs)) (ho : 0 ≤ end_) (he : end_ ≤ int64Max - 3)
    (ha : ∀ x ∈ as, x.offset < end_) (hb : ∀ x ∈ bs, end_ ≤ x.offset) :
    ∃ bs', Represents chunkAlignment (manager.deallocateAbove end_).2 (as ++ bs') ∧
      end_ ≤ (manager.deallocateAbove end_).1 ∧ (manager.deallocateAbove end_).1 ≤ int64Max - 3 ∧
      (∀ x ∈ bs', (manager.deallocateAbove end_).1 < x.offset) ∧
      free bs = Set.Ico end_ (manager.deallocateAbove end_).1 ∪ free bs' := by
  obtain ⟨-, hs, -⟩ := separated_append.mp h.separated
  rw [FreeChunksManager.deallocateAbove, h.lowerBound_end ho he ha hb]
  cases bs
  case nil =>
    have hne : veryEndChunk.offset ≠ end_ := by
      simp only [veryEndChunk]
      omega
    exact ⟨[], by simpa [hne, Option.filter] using h, by simp [hne, Option.filter, he]⟩
  case cons chunk bs =>
    have hlt := (List.pairwise_cons.mp hs.pairwise).1
    have hn := hs.nonempty chunk List.mem_cons_self
    by_cases heq : chunk.offset = end_
    case pos =>
      obtain rfl := heq
      have hr := h.range chunk (by simp)
      refine ⟨bs, by simpa [Option.filter] using h.remove, ?_⟩
      simpa [Option.filter, free_cons, hr.2, hn.le] using hlt
    case neg =>
      have hle := hb chunk List.mem_cons_self
      have hb' : ∀ x ∈ chunk :: bs, end_ < x.offset := by
        refine List.forall_mem_cons.mpr ⟨by omega, fun x hx => ?_⟩
        exact (hle.trans_lt hn).trans (hlt x hx)
      refine ⟨chunk :: bs, by simpa [heq, Option.filter] using h, ?_⟩
      simpa [heq, Option.filter, he] using hb'

theorem before_offset (h : Represents chunkAlignment manager (as ++ bs)) (ho : 0 ≤ offset) (he : offset ≤ int64Max - 3)
    (ha : ∀ x ∈ as, x.offset < offset) (hb : ∀ x ∈ bs, offset < x.offset) :
    BTreeSet.before OffsetLessThan { offset, end_ := offset + 1 } manager.freeChunksByOffset =
    veryBeginningChunk :: as := by
  have hl : ∀ x ∈ veryBeginningChunk :: as, OffsetLessThan x { offset, end_ := offset + 1 } := by
    intro x hx
    obtain rfl | hx := List.mem_cons.mp hx
    case inl => exact .inl (by simp only [veryBeginningChunk]; omega)
    case inr => exact .inl (ha x hx)
  have hg : ∀ x ∈ bs ++ [veryEndChunk], ¬OffsetLessThan x { offset, end_ := offset + 1 } := by
    intro x hx
    have hlt : offset < x.offset := by
      obtain hx | hx := List.mem_append.mp hx
      case inl => exact hb x hx
      case inr =>
        obtain rfl := List.mem_singleton.mp hx
        simp only [veryEndChunk]
        omega
    simp only [OffsetLessThan]
    omega
  have hb := BTreeSet.before_append hl hg
  simpa [h.byOffset] using hb

theorem deallocateBelow {right : Int} (h : Represents chunkAlignment manager (as ++ bs)) (ho : 0 ≤ offset)
    (hlt : offset < right) (he : right ≤ int64Max - 3) (ha : ∀ x ∈ as, x.end_ ≤ offset)
    (hb : ∀ x ∈ bs, right < x.offset) :
    ∃ manager' live', manager.deallocateBelow chunkAlignment offset right = some manager' ∧
      Represents chunkAlignment manager' live' ∧ free live' = free as ∪ Set.Ico offset right ∪ free bs := by
  obtain ⟨hsa, -, -⟩ := separated_append.mp h.separated
  have ha' : ∀ x ∈ as, x.offset < offset := fun x hx => (hsa.nonempty x hx).trans_le (ha x hx)
  rw [FreeChunksManager.deallocateBelow, h.before_offset ho (by omega) ha' fun x hx => hlt.trans (hb x hx)]
  obtain rfl | ⟨as, below, rfl⟩ := as.eq_nil_or_concat'
  case inl =>
    have hn : ¬veryBeginningChunk.end_ ≥ offset := by
      simp only [veryBeginningChunk]
      omega
    obtain ⟨chunk, rfl, rfl, hadd⟩ := h.add hlt ho he (by simp) hb
    exact ⟨_, _, by simp [hn], hadd, by simp [free_cons]⟩
  case inr =>
    obtain ⟨-, -, hab⟩ := separated_append.mp hsa
    have hbelow := ha below (by simp)
    have hn := hsa.nonempty below (by simp)
    have hr := h.range below (by simp)
    by_cases hge : below.end_ ≥ offset
    case neg =>
      have ha'' : ∀ x ∈ as ++ [below], x.end_ < offset := by
        intro x hx
        obtain hx | hx := List.mem_append.mp hx
        case inl => exact (hab x hx below (by simp)).trans (hn.trans (not_le.mp hge))
        case inr => exact List.mem_singleton.mp hx ▸ not_le.mp hge
      obtain ⟨chunk, rfl, rfl, hadd⟩ := h.add hlt ho he ha'' hb
      exact ⟨_, _, by simp [List.getLast?_cons, hge], hadd, by simp [free_append, free_cons, Set.union_assoc]⟩
    case pos =>
      have hmax : max right below.end_ = right := by omega
      rw [List.append_assoc] at h
      obtain ⟨chunk, ho, rfl, hadd⟩ := @add _ _ as bs below.offset right h.remove (by omega) hr.1 he
        (fun x hx => hab x hx below (by simp)) hb
      refine ⟨_, _, by simp [List.getLast?_cons, hge, hmax], hadd, ?_⟩
      have heq : below.end_ = offset := le_antisymm hbelow hge
      rw [free_append, free_append, free_cons, free_cons, ho, ←Set.Ico_union_Ico_eq_Ico hn.le (heq ▸ hlt.le), heq]
      simp [Set.union_assoc]

-- A range that is not free becomes free. It is united with the free chunks it touches.
theorem deallocate (h : Represents chunkAlignment manager live) (hlt : offset < end_) (ho : 0 ≤ offset)
    (he : end_ ≤ int64Max - 3) (hd : Disjoint (Set.Ico offset end_) (free live)) :
    ∃ manager' live', manager.deallocate chunkAlignment offset end_ = some manager' ∧
      Represents chunkAlignment manager' live' ∧ free live' = free live ∪ Set.Ico offset end_ := by
  obtain ⟨as, bs, rfl, ha, hb⟩ := h.separated.split_of_disjoint hlt fun v h₁ h₂ => Set.disjoint_left.mp hd ⟨h₁, h₂⟩
  obtain ⟨hsa, -, -⟩ := separated_append.mp h.separated
  have ha' : ∀ x ∈ as, x.offset < end_ := fun x hx => ((hsa.nonempty x hx).trans_le (ha x hx)).trans hlt
  obtain ⟨bs', habove, hle, hr, hb', hf⟩ := h.deallocateAbove (ho.trans hlt.le) he ha' hb
  obtain ⟨manager', live', hbelow, hrep, hf'⟩ := habove.deallocateBelow ho (hlt.trans_le hle) hr ha hb'
  refine ⟨manager', live', hbelow, hrep, ?_⟩
  rw [hf', free_append, hf, ←Set.Ico_union_Ico_eq_Ico hlt.le hle]
  rw [Set.union_assoc (free as), Set.union_assoc (free as), Set.union_assoc (Set.Ico offset end_),
    Set.union_comm (Set.Ico offset end_)]

end Deallocate

section FindJustLargeEnough

variable {c : MemoryChunk}

theorem lt_query_iff (h : Represents chunkAlignment manager live) (hx : x ∈ live) :
    AlignedSizeLessThan x { offset := 0, end_ := 0, alignedChunkOffset := -size, id := -1 } ↔ x.alignedSize < size := by
  have ho := (h.range x hx).1
  have hid := h.idNonneg x hx
  have hq : alignedSize { offset := 0, end_ := 0, alignedChunkOffset := -size, id := -1 } = size := by simp [alignedSize]
  simp only [AlignedSizeLessThan, hq]
  omega

-- A query divides the index by size into smaller chunks, stale ones it passes over, and the rest.
theorem exists_candidates (h : Represents chunkAlignment manager live) (size : Int) : ∃ smaller passed chunks,
    manager.freeChunksBySize = smaller ++ (passed ++ chunks) ∧
    manager.findJustLargeEnough size = (chunks.head?, { manager with freeChunksBySize := smaller ++ chunks }) ∧
    (∀ x ∈ passed, x.id ∈ manager.freeChunksToBeRemoved) ∧ (∀ c ∈ chunks.head?, c ∈ live) ∧
    ∀ x ∈ live, x ∈ chunks ↔ size ≤ x.alignedSize := by
  obtain ⟨he, hs, hl⟩ := BTreeSet.before_append_lowerBound h.bySize
    { offset := 0, end_ := 0, alignedChunkOffset := -size, id := -1 }
  obtain ⟨passed, hpe, hp, hn⟩ := BTreeSet.exists_append_dropWhile
    (fun x : MemoryChunk => decide (x.id ∈ manager.freeChunksToBeRemoved)) (BTreeSet.lowerBound AlignedSizeLessThan
      { offset := 0, end_ := 0, alignedChunkOffset := -size, id := -1 } manager.freeChunksBySize)
  simp only [decide_eq_true_eq, decide_eq_false_iff_not] at hp hn
  rw [hpe] at he hl
  refine ⟨_, passed, _, he, rfl, hp, fun c hc => ?mem, fun x hx => ?order⟩
  case mem =>
    have hi : c ∈ manager.freeChunksBySize :=
      he ▸ List.mem_append_right _ (List.mem_append_right _ (List.mem_of_mem_head? hc))
    exact (h.stale c hi).resolve_right (hn c hc)
  case order =>
    constructor
    case mp  => exact fun hm => not_lt.mp fun hlt => hl x (List.mem_append_right _ hm) ((h.lt_query_iff hx).mpr hlt)
    case mpr =>
      intro hle
      have hi := h.indexed x hx
      rw [he, List.mem_append, List.mem_append] at hi
      obtain hi | hi | hi := hi
      case inl     => exact absurd ((h.lt_query_iff hx).mp (hs x hi)) (not_lt.mpr hle)
      case inr.inl => exact absurd (hp x hi) (h.kept x hx)
      case inr.inr => exact hi

theorem findJustLargeEnough (h : Represents chunkAlignment manager live) :
    Represents chunkAlignment (manager.findJustLargeEnough size).2 live := by
  obtain ⟨smaller, passed, chunks, he, hf, hp, -, -⟩ := h.exists_candidates size
  rw [hf]
  have hs : (smaller ++ chunks).Sublist manager.freeChunksBySize := by
    rw [he]
    exact (List.Sublist.refl _).append (List.sublist_append_right _ _)
  constructor
  case bySize       => exact h.bySize.sublist hs
  case stale        => exact fun x hx => h.stale x (hs.subset hx)
  case fresh        => exact fun x hx => h.fresh x (hs.subset hx)
  case indexed      =>
    intro x hx
    have hi := h.indexed x hx
    have hn := h.kept x hx
    simp only [he, List.mem_append] at hi ⊢
    exact hi.imp_right fun hi => hi.resolve_left fun hi => hn (hp x hi)
  case byOffset     => exact h.byOffset
  case separated    => exact h.separated
  case range        => exact h.range
  case aligned      => exact h.aligned
  case ids          => exact h.ids
  case idNonneg     => exact h.idNonneg
  case nextNonneg   => exact h.nextNonneg
  case kept         => exact h.kept
  case freshRemoved => exact h.freshRemoved

theorem findJustLargeEnough_none_iff (h : Represents chunkAlignment manager live) :
    (manager.findJustLargeEnough size).1 = none ↔ ∀ x ∈ live, x.alignedSize < size := by
  obtain ⟨smaller, passed, chunks, -, hf, -, hl, hm⟩ := h.exists_candidates size
  rw [hf, List.head?_eq_none_iff]
  constructor
  case mp =>
    rintro rfl x hx
    exact not_le.mp fun hle => List.not_mem_nil ((hm x hx).mpr hle)
  case mpr =>
    intro hlt
    cases chunks
    case nil           => rfl
    case cons c chunks => exact absurd ((hm c (hl c rfl)).mp List.mem_cons_self) (not_le.mpr (hlt c (hl c rfl)))

theorem findJustLargeEnough_some (h : Represents chunkAlignment manager live)
    (hc : (manager.findJustLargeEnough size).1 = some c) :
    c ∈ live ∧ size ≤ c.alignedSize ∧ ∀ x ∈ live, size ≤ x.alignedSize →
      c.alignedSize < x.alignedSize ∨ c.alignedSize = x.alignedSize ∧ c.offset ≤ x.offset := by
  obtain ⟨smaller, passed, chunks, he, hf, -, hl, hm⟩ := h.exists_candidates size
  rw [hf] at hc
  obtain ⟨chunks, rfl⟩ := List.head?_eq_some_iff.mp hc
  have hs := he ▸ h.bySize
  have hs := (List.pairwise_append.mp (List.pairwise_append.mp hs).2.1).2.1
  refine ⟨hl c hc, (hm c (hl c hc)).mp List.mem_cons_self, fun x hx hle => ?_⟩
  obtain rfl | hx := List.mem_cons.mp ((hm x hx).mpr hle)
  case inl => exact .inr ⟨rfl, le_rfl⟩
  case inr =>
    have hlt := (List.pairwise_cons.mp hs).1 x hx
    simp only [AlignedSizeLessThan] at hlt
    omega

end FindJustLargeEnough

end Represents
end HeapSimulator.FreeChunksManager

namespace HeapSimulator.FreeChunksManager

open MemoryChunk SeparatedIntervals

def addressSpace : Set Int :=
  Set.Ico 0 (int64Max - 3)

section Calls

namespace Call

-- Ranges of a call hold an address. Only at the start of a free range an empty one may be allocated, as for a heap
-- whose first phase allocates nothing.
def Allowed (F : Set Int) : Call → Prop
  | allocate offset end_   => offset ≤ end_ ∧ Set.Ico offset end_ ⊆ F ∧ (offset = end_ → offset ∈ F ∧ offset - 1 ∉ F)
  | deallocate offset end_ => offset < end_ ∧ Set.Ico offset end_ ⊆ addressSpace \ F
  | findJustLargeEnough _  => True

def effect (F : Set Int) : Call → Set Int
  | allocate offset end_   => F \ Set.Ico offset end_
  | deallocate offset end_ => F ∪ Set.Ico offset end_
  | findJustLargeEnough _  => F

end Call

-- The free addresses before and after some calls.
inductive Calls : Set Int → List Call → Set Int → Prop
  | nil (F : Set Int) : Calls F [] F
  | cons {F F' : Set Int} {call : Call} {calls : List Call} :
    call.Allowed F → Calls (call.effect F) calls F' → Calls F (call :: calls) F'

end Calls

variable {chunkAlignment : Int → Int} {manager : FreeChunksManager} {live : List MemoryChunk} {call : Call}
  {calls : List Call} {F F' : Set Int} {a b size : Int} {c : MemoryChunk}

namespace Represents

theorem apply_call (h : Represents chunkAlignment manager live) (hc : call.Allowed (free live)) :
    ∃ manager' live', manager.apply chunkAlignment call = some manager' ∧
      Represents chunkAlignment manager' live' ∧ free live' = call.effect (free live) := by
  cases call
  case allocate offset end_ => exact h.allocate hc.1 hc.2.1 hc.2.2
  case deallocate offset end_ =>
    obtain ⟨hlt, hs⟩ := hc
    have ho := (hs ⟨le_rfl, hlt⟩).1.1
    have he := (hs (a := end_ - 1) ⟨by omega, by omega⟩).1.2
    exact h.deallocate hlt ho (by omega) <| Set.disjoint_left.mpr fun v hv => (hs hv).2
  case findJustLargeEnough size => exact ⟨_, live, rfl, h.findJustLargeEnough, rfl⟩

theorem run (h : Represents chunkAlignment manager live) (hc : Calls F calls F') (hf : F = free live) :
    ∃ manager' live', manager.run chunkAlignment calls = some manager' ∧
      Represents chunkAlignment manager' live' ∧ F' = free live' := by
  induction hc generalizing manager live
  case nil => exact ⟨manager, live, rfl, h, hf⟩
  case cons ha _ hi =>
    subst hf
    obtain ⟨manager₁, live₁, happ, h₁, hf₁⟩ := h.apply_call ha
    obtain ⟨manager', live', hrun, h', hf'⟩ := hi h₁ hf₁.symm
    exact ⟨manager', live', by simpa [FreeChunksManager.run, happ] using hrun, h', hf'⟩

theorem getFreeChunks (h : Represents chunkAlignment manager live) :
    manager.getFreeChunks = live.map fun chunk => { offset := chunk.offset, end_ := chunk.end_ } := by
  simp [FreeChunksManager.getFreeChunks, h.byOffset]

theorem isMaximal_iff (h : Represents chunkAlignment manager live) :
    IsMaximal (free live) a b ↔ ∃ chunk ∈ live, chunk.offset = a ∧ chunk.end_ = b :=
  h.separated.isMaximal_iff

theorem alignedSize_eq (h : Represents chunkAlignment manager live) (hc : c ∈ live) :
    c.alignedSize = c.end_ - chunkAlignment c.offset := by
  rw [alignedSize, h.aligned c hc]

end Represents

-- The two indexes agree on the free set after any calls, also while the one by size holds stale chunks.
theorem run_canonical (h : Calls addressSpace calls F) :
    ∃ manager, (create chunkAlignment).run chunkAlignment calls = some manager ∧
      manager.getFreeChunks.Pairwise (·.end_ < ·.offset) ∧
      (∀ a b, IsMaximal F a b ↔ ∃ chunk ∈ manager.getFreeChunks, chunk.offset = a ∧ chunk.end_ = b) ∧
      ∀ size,
        ((manager.findJustLargeEnough size).1 = none ↔ ∀ a b, IsMaximal F a b → b - chunkAlignment a < size) ∧
        ∀ chunk, (manager.findJustLargeEnough size).1 = some chunk →
          IsMaximal F chunk.offset chunk.end_ ∧ chunk.alignedChunkOffset = chunkAlignment chunk.offset ∧
          size ≤ chunk.alignedSize ∧
          ∀ a b, IsMaximal F a b → size ≤ b - chunkAlignment a →
            chunk.alignedSize < b - chunkAlignment a ∨ chunk.alignedSize = b - chunkAlignment a ∧ chunk.offset ≤ a := by
  obtain ⟨manager, live, hrun, hrep, rfl⟩ := (@Represents.create chunkAlignment).run h free_create.symm
  refine ⟨manager, hrun, ?sorted, ?free, fun size => ⟨?none, fun chunk hc => ?some⟩⟩
  case sorted =>
    rw [hrep.getFreeChunks, List.pairwise_map]
    exact hrep.separated.pairwise
  case free =>
    intro a b
    rw [hrep.isMaximal_iff, hrep.getFreeChunks]
    simp
  case none =>
    rw [hrep.findJustLargeEnough_none_iff]
    constructor
    case mp =>
      intro hlt a b hm
      obtain ⟨chunk, hc, rfl, rfl⟩ := hrep.isMaximal_iff.mp hm
      exact hrep.alignedSize_eq hc ▸ hlt chunk hc
    case mpr =>
      intro hlt chunk hc
      exact hrep.alignedSize_eq hc ▸ hlt _ _ (hrep.isMaximal_iff.mpr ⟨chunk, hc, rfl, rfl⟩)
  case some =>
    obtain ⟨hl, hle, hmin⟩ := hrep.findJustLargeEnough_some hc
    refine ⟨hrep.isMaximal_iff.mpr ⟨chunk, hl, rfl, rfl⟩, hrep.aligned chunk hl, hle, fun a b hm hab => ?_⟩
    obtain ⟨x, hx, rfl, rfl⟩ := hrep.isMaximal_iff.mp hm
    rw [←hrep.alignedSize_eq hx] at hab ⊢
    exact hmin x hx hab

theorem run_canonical_deallocate : ∃ manager,
    (create id).run id [.allocate 4 7, .findJustLargeEnough 5, .deallocate 5 7] = some manager ∧
      manager.getFreeChunks.Pairwise (·.end_ < ·.offset) := by
  have ha : (Call.allocate 4 7).Allowed addressSpace := by
    refine ⟨by omega, fun v hv => ?_, by omega⟩
    simp only [addressSpace, int64Max, Set.mem_Ico] at hv ⊢
    omega
  have hd : (Call.deallocate 5 7).Allowed (addressSpace \ Set.Ico 4 7) := by
    refine ⟨by omega, fun v hv => ?_⟩
    simp only [addressSpace, int64Max, Set.mem_Ico, Set.mem_sdiff] at hv ⊢
    omega
  have h : Calls addressSpace [.allocate 4 7, .findJustLargeEnough 5, .deallocate 5 7]
      (addressSpace \ Set.Ico 4 7 ∪ Set.Ico 5 7) := .cons ha (.cons trivial (.cons hd (.nil _)))
  obtain ⟨manager, hr, hp, -⟩ := @run_canonical id _ _ h
  exact ⟨manager, hr, hp⟩

end HeapSimulator.FreeChunksManager
