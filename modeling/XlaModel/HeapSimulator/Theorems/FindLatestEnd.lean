import Mathlib
import XlaModel.HeapSimulator.Theorems.GlobalDecreasingSizeBestFitHeap

namespace HeapSimulator

open Fuel

namespace BufferIntervalTree

section Scan

variable {C : Interval → Prop} [DecidablePred C] {latestEnd prevStart : Int} {nodes : List BufferIntervalTreeNode}

-- Stops at the first node that satisfies a condition.
def stopBefore (C : Interval → Prop) [DecidablePred C] (latestEnd : Int) (node : BufferIntervalTreeNode) : Int × Bool :=
  if C (entryOf node) then (node.start - 1, true) else (latestEnd, false)

-- The times up to the result are those before all nodes that satisfy the condition.
structure EndsBefore (C : Interval → Prop) (xs : List Interval) (latestEnd e : Int) : Prop where
  le_latest : e ≤ latestEnd
  free_iff  : ∀ t ≤ latestEnd, (∀ x ∈ xs, C x → t < x.start) ↔ t ≤ e

theorem scan_stopBefore (hs : (nodes.map entryOf).Pairwise (·.start ≤ ·.start))
    (hle : ∀ x ∈ nodes.map entryOf, x.start ≤ latestEnd) :
    (scan (stopBefore C) prevStart latestEnd nodes = none ↔ ∃ x ∈ nodes.map entryOf, x.start < prevStart) ∧
      ∀ e, scan (stopBefore C) prevStart latestEnd nodes = some e → EndsBefore C (nodes.map entryOf) latestEnd e := by
  induction nodes generalizing prevStart
  case nil =>
    refine ⟨by simp [scan], fun e h => ?_⟩
    obtain rfl : latestEnd = e := Option.some.inj h
    exact ⟨le_rfl, fun t ht => iff_of_true (fun x hx => absurd hx List.not_mem_nil) ht⟩
  case cons node nodes hi =>
    rw [List.map_cons] at hs hle ⊢
    obtain ⟨hfirst, hs⟩ := List.pairwise_cons.mp hs
    obtain ⟨hn, hle⟩ := List.forall_mem_cons.mp hle
    rw [scan]
    by_cases hp : prevStart ≤ node.start
    case neg =>
      rw [if_neg hp]
      exact ⟨iff_of_true rfl ⟨_, .head _, not_le.mp hp⟩, fun e h => by cases h⟩
    case pos =>
      have hno {c : Int} (hc : c ≤ node.start) : ¬∃ x ∈ entryOf node :: nodes.map entryOf, x.start < c := by
        rintro ⟨x, hx, hlt⟩
        obtain rfl | hx := List.mem_cons.mp hx
        case inl => exact absurd hlt (not_lt.mpr hc)
        case inr => exact absurd (hfirst x hx) (not_le.mpr (hlt.trans_le hc))
      rw [if_pos hp, stopBefore]
      by_cases hc : C (entryOf node)
      case pos =>
        rw [if_pos hc, if_pos rfl]
        refine ⟨iff_of_false (by simp) (hno hp), fun e h => ?_⟩
        obtain rfl : node.start - 1 = e := Option.some.inj h
        refine ⟨(Int.sub_one_lt_of_le le_rfl).le.trans hn, fun t _ => ⟨fun h => ?mp, fun ht x hx _ => ?mpr⟩⟩
        case mp => exact Int.le_sub_one_of_lt (h _ (.head _) hc)
        case mpr =>
          have hx : node.start ≤ x.start := not_lt.mp fun hlt => hno le_rfl ⟨x, hx, hlt⟩
          omega
      case neg =>
        rw [if_neg hc, if_neg (by simp)]
        obtain ⟨hnone, hsome⟩ := @hi node.start hs hle
        have hrest : ¬∃ x ∈ nodes.map entryOf, x.start < node.start := by
          rintro ⟨x, hx, hlt⟩
          exact hno le_rfl ⟨x, .tail _ hx, hlt⟩
        refine ⟨iff_of_false (fun h => hrest (hnone.mp h)) (hno hp), fun e h => ⟨(hsome e h).le_latest, fun t ht => ?_⟩⟩
        rw [List.forall_mem_cons, ← (hsome e h).free_iff t ht]
        exact and_iff_right fun h => absurd h hc

-- A callback that does not fail computes the results of another one.
theorem scan_some {f : Int → BufferIntervalTreeNode → Int × Bool}
    {g : Option Int → BufferIntervalTreeNode → Option Int × Bool}
    (hg : ∀ node ∈ nodes, ∀ e, g (some e) node = (some (f e node).1, (f e node).2)) :
    scan g prevStart (some latestEnd) nodes = (scan f prevStart latestEnd nodes).map some := by
  induction nodes generalizing prevStart latestEnd
  case nil => rfl
  case cons node nodes hi =>
    obtain ⟨hn, hg⟩ := List.forall_mem_cons.mp hg
    rw [scan, scan, hn latestEnd, hi hg]
    split_ifs <;> rfl

end Scan

end BufferIntervalTree

namespace GlobalDecreasingSizeBestFitHeap

open BufferIntervalTree

variable {β : Type} {heap : GlobalDecreasingSizeBestFitHeap β} {M : Multiset Interval} {bufferInterval : BufferInterval β}
  {preferredOffset : Int} {chunk : Chunk}

-- The addresses of a chunk and those up to its aligned end.
def Extent (heap : GlobalDecreasingSizeBestFitHeap β) (chunk : Chunk) : Set Int :=
  {a | chunk.offset ≤ a ∧ ∀ e, heap.AlignedUp chunk.chunkEnd e → a < e}

def range (preferredOffset size : Int) : Set Int :=
  Set.Ico preferredOffset (preferredOffset + size)

-- No chunk that is used during the interval, together with the addresses that `used` adds, is in the range.
def FreeThroughout (used : Chunk → Set Int) (M : Multiset Interval) (start end_ preferredOffset size : Int) : Prop :=
  ∀ x ∈ M, overlapping start end_ x → Disjoint (used x.chunk) (range preferredOffset size)

-- The ends of the intervals are those up to `e`, if there are any.
structure IsLatestEnd (heap : GlobalDecreasingSizeBestFitHeap β) (M : Multiset Interval) (bufferInterval : BufferInterval β)
    (preferredOffset e : Int) : Prop where
  le_end     : e ≤ bufferInterval.end_
  free_iff   : ∀ t, bufferInterval.start ≤ t → t ≤ bufferInterval.end_ →
    (FreeThroughout heap.Extent M bufferInterval.start t preferredOffset bufferInterval.size ↔ t ≤ e)
  of_aligned : heap.alignment ∣ preferredOffset → ∀ t, bufferInterval.start ≤ t → t ≤ bufferInterval.end_ →
    (FreeThroughout (fun chunk => {a | a ∈ chunk}) M bufferInterval.start t preferredOffset bufferInterval.size ↔ t ≤ e)

section Conflicts

variable {x : Interval} {size : Int}

-- The condition that stops the search.
def Conflicts (heap : GlobalDecreasingSizeBestFitHeap β) (preferredOffset size : Int) (x : Interval) : Prop :=
  (x.chunk.offset < preferredOffset ∧ preferredOffset < heap.alignedEnd x.chunk.chunkEnd) ∨
    (preferredOffset ≤ x.chunk.offset ∧ x.chunk.offset < preferredOffset + size)

instance : DecidablePred (heap.Conflicts preferredOffset size) :=
  fun _ => inferInstanceAs (Decidable (_ ∨ _))

theorem extent_eq (h : 0 ≤ chunk.chunkEnd) :
    heap.Extent chunk = Set.Ico chunk.offset (heap.alignedEnd chunk.chunkEnd) := by
  have hs : heap.AlignedUp chunk.chunkEnd _ := alignedEnd_spec h
  ext a
  refine and_congr_right fun _ => ⟨fun ha => ha _ hs, fun ha e he => ?_⟩
  rwa [he.unique hs]

theorem conflicts_iff (hx : 0 ≤ x.chunk.offset ∧ 0 < x.chunk.size) (hs : 0 < size) :
    heap.Conflicts preferredOffset size x ↔ ¬Disjoint (heap.Extent x.chunk) (range preferredOffset size) := by
  have he : x.chunk.offset < x.chunk.chunkEnd := Chunk.size_pos_iff.mp hx.2
  have ha : x.chunk.chunkEnd ≤ heap.alignedEnd x.chunk.chunkEnd :=
    (alignedEnd_spec (hx.1.trans he.le)).1.1
  rw [extent_eq (hx.1.trans he.le), range, Set.Ico_disjoint_Ico, Conflicts]
  omega

-- For an aligned address the rounding does not matter.
theorem conflicts_iff_of_aligned (hx : 0 ≤ x.chunk.offset ∧ 0 < x.chunk.size) (hs : 0 < size)
    (hd : heap.alignment ∣ preferredOffset) :
    heap.Conflicts preferredOffset size x ↔ ¬Disjoint {a | a ∈ x.chunk} (range preferredOffset size) := by
  have he : x.chunk.offset < x.chunk.chunkEnd := Chunk.size_pos_iff.mp hx.2
  have ha : heap.AlignedUp x.chunk.chunkEnd _ := alignedEnd_spec (hx.1.trans he.le)
  have hle : x.chunk.chunkEnd ≤ heap.alignedEnd x.chunk.chunkEnd := ha.1.1
  have hi : {a | a ∈ x.chunk} = Set.Ico x.chunk.offset x.chunk.chunkEnd := rfl
  have hr : x.chunk.chunkEnd ≤ preferredOffset → heap.alignedEnd x.chunk.chunkEnd ≤ preferredOffset :=
    fun h => ha.2 ⟨h, hd⟩
  rw [hi, range, Set.Ico_disjoint_Ico, Conflicts]
  omega

theorem intersectsPreferred_eq (hx : 0 ≤ x.chunk.offset ∧ 0 < x.chunk.size) (hf : heap.EndFits x.chunk.chunkEnd)
    (hp : preferredOffset + size ≤ int64Max) :
    heap.intersectsPreferred size preferredOffset x.chunk = some (decide (heap.Conflicts preferredOffset size x)) := by
  have he : x.chunk.offset < x.chunk.chunkEnd := Chunk.size_pos_iff.mp hx.2
  rw [intersectsPreferred, computeAlignedChunkEnd_of_fits (hx.1.trans he.le) hf, checked, if_pos hp]
  split_ifs with hlt
  case pos => simp [Conflicts, hlt, not_le.mpr hlt]
  case neg => simp [Conflicts, hlt, not_lt.mp hlt]

-- An interval up to `t` is free if all conflicts come later.
theorem freeThroughout_iff {used : Chunk → Set Int} {start end_ t : Int} (hle : t ≤ end_)
    (hc : ∀ x ∈ M, heap.Conflicts preferredOffset size x ↔ ¬Disjoint (used x.chunk) (range preferredOffset size)) :
    FreeThroughout used M start t preferredOffset size ↔
      ∀ x ∈ M.filter (overlapping start end_), heap.Conflicts preferredOffset size x → t < x.start := by
  constructor
  case mp =>
    intro h x hx hconflict
    obtain ⟨hx, -, hstart⟩ := Multiset.mem_filter.mp hx
    by_contra hlt
    exact (hc x hx).mp hconflict (h x hx ⟨not_lt.mp hlt, hstart⟩)
  case mpr =>
    intro h x hx ⟨hxt, hstart⟩
    by_contra hd
    have hm : x ∈ M.filter (overlapping start end_) := Multiset.mem_filter.mpr ⟨hx, hxt.trans hle, hstart⟩
    exact absurd hxt (not_le.mpr (h x hm ((hc x hx).mpr hd)))

end Conflicts

section Find

-- The aligned ends of the chunks that are used during the interval, and the end of the preferred range, do not overflow.
structure RangesFit (heap : GlobalDecreasingSizeBestFitHeap β) (M : Multiset Interval) (bufferInterval : BufferInterval β)
    (preferredOffset : Int) : Prop where
  ends      : ∀ x ∈ M, overlapping bufferInterval.start bufferInterval.end_ x → heap.EndFits x.chunk.chunkEnd
  preferred : preferredOffset + bufferInterval.size ≤ int64Max

-- The check of the order fails for intervals that start before time -1.
theorem findLatestEnd_spec (ht : ∃ t, Holds heap.intervalTree M t) (hc : ∀ x ∈ M, 0 ≤ x.chunk.offset ∧ 0 < x.chunk.size)
    (hs : 0 < bufferInterval.size) (hf : heap.RangesFit M bufferInterval preferredOffset) :
    Computes (heap.findLatestEndWithFreeChunkAtPreferredOffset · bufferInterval preferredOffset) fun e? =>
      (e? = none ↔ preferredOffset < 0 ∨ ∃ x ∈ M, overlapping bufferInterval.start bufferInterval.end_ x ∧ x.start < -1) ∧
        ∀ e, e? = some e → heap.IsLatestEnd M bufferInterval preferredOffset e := by
  obtain ⟨t, h⟩ := ht
  obtain ⟨p, dead, hr⟩ := h.represents
  refine .ite (fun hp => ?_) fun hp => .pure ⟨iff_of_true rfl (.inl (not_le.mp hp)), fun e he => by cases he⟩
  refine .bind (applyToSortedNodesOverlapping_spec hr.root hr.rep) ?_
  rintro e? ⟨nodes, rfl, hx⟩
  rw [IntervalTree.visitSorted_eq h.sorted h.bounded] at hx
  have hm : ∀ x, x ∈ nodes.map entryOf ↔ x ∈ M.filter (overlapping bufferInterval.start bufferInterval.end_) := by
    intro x
    rw [hx, ← h.entries, Multiset.filter_coe, Multiset.mem_coe]
    rfl
  obtain ⟨hnone, hsome⟩ := @scan_stopBefore (heap.Conflicts preferredOffset bufferInterval.size) _ bufferInterval.end_ (-1)
    nodes (hx ▸ h.sorted.pairwise.filter _) fun x hx => (Multiset.mem_filter.mp ((hm x).mp hx)).2.1
  rw [scan_some (f := stopBefore (heap.Conflicts preferredOffset bufferInterval.size)) ?callback]
  case callback =>
    intro node hn e
    obtain ⟨hx, ho⟩ := Multiset.mem_filter.mp ((hm _).mp (List.mem_map_of_mem hn))
    have hi := intersectsPreferred_eq (hc _ hx) (hf.ends _ hx ho) hf.preferred
    rw [entryOf] at hi
    simp only [hi, stopBefore, entryOf]
    split_ifs with hcon <;> simp [hcon]
  have hjoin (r? : Option Int) : (r?.map some).join = r? := by cases r? <;> rfl
  rw [hjoin]
  refine .pure ⟨hnone.trans ?order, fun e he => ?latest⟩
  case order => simp only [hm, Multiset.mem_filter, and_assoc, not_lt.mpr hp, false_or]
  case latest =>
    have hfree := (hsome e he).free_iff
    simp only [hm] at hfree
    refine ⟨(hsome e he).le_latest, fun t hst hle => ?free, fun hd t hst hle => ?aligned⟩
    case free => exact (freeThroughout_iff hle fun x hx => conflicts_iff (hc x hx) hs).trans (hfree t hle)
    case aligned =>
      exact (freeThroughout_iff hle fun x hx => conflicts_iff_of_aligned (hc x hx) hs hd).trans (hfree t hle)

-- The search finds the latest end.
def FindsLatestEnd (heap : GlobalDecreasingSizeBestFitHeap β) (M : Multiset Interval) (bufferInterval : BufferInterval β)
    (preferredOffset : Int) : Prop :=
  Computes (heap.findLatestEndWithFreeChunkAtPreferredOffset · bufferInterval preferredOffset) fun e? =>
    ∃ e, e? = some e ∧ heap.IsLatestEnd M bufferInterval preferredOffset e

end Find

section Examples

theorem findLatestEnd_spec_usedHeap :
    Computes (usedHeap.findLatestEndWithFreeChunkAtPreferredOffset · smallBuffer 8) fun e? =>
      (e? = none ↔ (8 : Int) < 0 ∨ ∃ x ∈ ({⟨0, 10, ⟨4, 4⟩⟩} : Multiset Interval), overlapping 0 10 x ∧ x.start < -1) ∧
        ∀ e, e? = some e → usedHeap.IsLatestEnd {⟨0, 10, ⟨4, 4⟩⟩} smallBuffer 8 e :=
  findLatestEnd_spec usedHeap_wellFormed.tree (fun x hx => ⟨(usedHeap_wellFormed.chunks x hx).1,
    (usedHeap_wellFormed.chunks x hx).2.1⟩) (by decide) ⟨fun _ _ _ hone => absurd rfl hone, by decide⟩

-- A heap with a single chunk.
def singleton (start end_ : Int) (chunk : Chunk) : GlobalDecreasingSizeBestFitHeap Nat where
  alignment     := 1
  alignment_pos := Int.zero_lt_one
  intervalTree  := ⟨some 0, [⟨start, end_, end_, chunk, none, none, none⟩]⟩

theorem not_findsLatestEnd_of_returns {e : Int} {t : Int}
    (hr : Returns (heap.findLatestEndWithFreeChunkAtPreferredOffset · bufferInterval preferredOffset) (some e))
    (hd : heap.alignment ∣ preferredOffset) (hst : bufferInterval.start ≤ t) (hle : t ≤ bufferInterval.end_) (hlt : e < t)
    (hfree : ∀ x ∈ M, Disjoint {a | a ∈ x.chunk} (range preferredOffset bufferInterval.size)) :
    ¬heap.FindsLatestEnd M bufferInterval preferredOffset := by
  rintro ⟨e?, hr', e', rfl, hl⟩
  obtain rfl := Option.some.inj (hr.unique hr')
  exact absurd ((hl.of_aligned hd t hst hle).mp fun x hx _ => hfree x hx) (not_le.mpr hlt)

theorem not_findsLatestEnd_of_fails
    (hr : Returns (heap.findLatestEndWithFreeChunkAtPreferredOffset · bufferInterval preferredOffset) none) :
    ¬heap.FindsLatestEnd M bufferInterval preferredOffset := by
  rintro ⟨e?, hr', e, rfl, -⟩
  exact Option.some_ne_none e (hr'.unique hr)

theorem not_findsLatestEnd :
    ¬(singleton (-2) 10 ⟨4, 4⟩).FindsLatestEnd {⟨-2, 10, ⟨4, 4⟩⟩} smallBuffer 0 ∧
    ¬usedHeap.FindsLatestEnd {⟨0, 10, ⟨4, 4⟩⟩} smallBuffer (-1) ∧
    ¬usedHeap.FindsLatestEnd {⟨0, 10, ⟨4, 4⟩⟩} { smallBuffer with size := 0 } 5 ∧
    ¬(singleton 0 10 ⟨4, 0⟩).FindsLatestEnd {⟨0, 10, ⟨4, 0⟩⟩} smallBuffer 4 ∧
    ¬FindsLatestEnd { singleton 0 10 ⟨0, int64Max - 2⟩ with alignment := 8, alignment_pos := by decide }
      {⟨0, 10, ⟨0, int64Max - 2⟩⟩} smallBuffer 8 ∧
    ¬(singleton 0 10 ⟨int64Max - 1, 1⟩).FindsLatestEnd {⟨0, 10, ⟨int64Max - 1, 1⟩⟩} smallBuffer (int64Max - 1) := by
  have hfuel {f : Nat → Option (Option Int)} {e? : Option Int} (h : ∀ n, f (n + 1) = some e?) : Returns f e? :=
    Returns.iff_exists.mpr ⟨1, fun n hn => by
      obtain ⟨n, rfl⟩ := Nat.exists_eq_add_of_le' hn
      exact h n⟩
  refine ⟨?early, ?negative, ?emptyBuffer, ?emptyChunk, ?alignedEnd, ?preferredEnd⟩
  case early        => exact not_findsLatestEnd_of_fails (hfuel fun _ => rfl)
  case negative     => exact not_findsLatestEnd_of_fails (hfuel fun _ => rfl)
  case alignedEnd   => exact not_findsLatestEnd_of_fails (hfuel fun _ => rfl)
  case preferredEnd => exact not_findsLatestEnd_of_fails (hfuel fun _ => rfl)
  case emptyBuffer =>
    refine @not_findsLatestEnd_of_returns _ _ _ _ _ (-1) 0 (hfuel fun _ => rfl) (one_dvd _) le_rfl (by decide) (by decide) ?_
    intro x _
    simp [range]
  case emptyChunk =>
    refine @not_findsLatestEnd_of_returns _ _ _ _ _ (-1) 0 (hfuel fun _ => rfl) (one_dvd _) le_rfl (by decide) (by decide) ?_
    intro x hx
    obtain rfl := Multiset.mem_singleton.mp hx
    refine Set.disjoint_left.mpr fun a ha => ?_
    obtain ⟨hge, hlt⟩ := ha
    simp only [Chunk.chunkEnd] at hge hlt
    omega

end Examples

end GlobalDecreasingSizeBestFitHeap

end HeapSimulator
