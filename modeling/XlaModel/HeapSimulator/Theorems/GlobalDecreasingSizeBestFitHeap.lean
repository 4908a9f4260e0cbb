import XlaModel.HeapSimulator.GlobalDecreasingSizeBestFitHeap
import XlaModel.HeapSimulator.Theorems.BufferIntervalTree.Faithful
import XlaModel.Lib.SeparatedIntervals

namespace HeapSimulator.GlobalDecreasingSizeBestFitHeap

variable {β : Type} {heap : GlobalDecreasingSizeBestFitHeap β} {x y a : Int}

-- The smallest multiple of the alignment from an address on.
def AlignedUp (heap : GlobalDecreasingSizeBestFitHeap β) (x y : Int) : Prop :=
  IsLeast {y | x ≤ y ∧ heap.alignment ∣ y} y

theorem isLeast_of_lt (hle : x ≤ y) (hd : a ∣ y) (hlt : y < x + a) : IsLeast {y | x ≤ y ∧ a ∣ y} y := by
  refine ⟨⟨hle, hd⟩, fun z ⟨hz, hdz⟩ => ?_⟩
  by_contra hn
  have hge := Int.le_of_dvd (by omega) (dvd_sub hd hdz)
  omega

theorem roundUpTo_isLeast (ha : 0 < a) (hx : 0 ≤ x) : IsLeast {y | x ≤ y ∧ a ∣ y} (roundUpTo x a) := by
  have hm := Int.ediv_mul_add_emod x a
  have hlt := Int.emod_lt_of_pos x ha
  have hge := Int.emod_nonneg x ha.ne'
  have hq : 0 ≤ x / a := Int.ediv_nonneg hx ha.le
  rw [roundUpTo, ceilOfRatio, Int.tdiv_eq_ediv_of_nonneg hx]
  split_ifs with h
  case pos =>
    have hadj : x / a * a < x := by
      obtain ⟨-, ⟨-, h⟩ | ⟨hneg, -⟩⟩ := h
      case inl => exact h
      case inr => omega
    have he : (x / a + 1) * a = x / a * a + a := by ring
    apply isLeast_of_lt _ (dvd_mul_left _ _) <;> omega
  case neg =>
    have hadj : ¬x / a * a < x := fun hlt => h ⟨hq, .inl ⟨ha, hlt⟩⟩
    have he : (x / a + 0) * a = x / a * a := by ring
    apply isLeast_of_lt _ (dvd_mul_left _ _) <;> omega

theorem ldiff_two_pow_sub_one (n k : Nat) : Nat.ldiff n (2 ^ k - 1) = n / 2 ^ k * 2 ^ k := by
  apply Nat.eq_of_testBit_eq
  intro i
  rw [Nat.testBit_ldiff, Nat.testBit_two_pow_sub_one, Nat.testBit_mul_two_pow, Nat.testBit_div_two_pow]
  by_cases hi : i < k
  case pos => simp [hi, not_le.mpr hi]
  case neg => simp [hi, not_lt.mp hi]

theorem land_lnot_two_pow (n k : Nat) :
    Int.land (n + (2 ^ k : Nat) - 1) (Int.lnot ((2 ^ k : Nat) - 1)) = ((n + 2 ^ k - 1) / 2 ^ k * 2 ^ k : Nat) := by
  have hpos := Nat.two_pow_pos k
  have hn : (n + (2 ^ k : Nat) - 1 : Int) = (n + 2 ^ k - 1 : Nat) := by omega
  have hm : ((2 ^ k : Nat) - 1 : Int) = (2 ^ k - 1 : Nat) := by omega
  rw [hn, hm, ←ldiff_two_pow_sub_one]
  rfl

-- The end that is rounded up to the alignment.
def alignedEnd (heap : GlobalDecreasingSizeBestFitHeap β) (x : Int) : Int :=
  roundUpTo x heap.alignment

theorem alignedEnd_spec (hx : 0 ≤ x) : heap.AlignedUp x (heap.alignedEnd x) :=
  roundUpTo_isLeast heap.alignment_pos hx

theorem AlignedUp.mono {x' y' : Int} (h : heap.AlignedUp x y) (h' : heap.AlignedUp x' y') (hle : x ≤ x') : y ≤ y' :=
  h.2 ⟨hle.trans h'.1.1, h'.1.2⟩

theorem AlignedUp.unique {y' : Int} (h : heap.AlignedUp x y) (h' : heap.AlignedUp x y') : y = y' :=
  IsLeast.unique h h'

theorem alignedEnd_mono (hx : 0 ≤ x) (hle : x ≤ y) : heap.alignedEnd x ≤ heap.alignedEnd y :=
  (alignedEnd_spec hx).mono (alignedEnd_spec (hx.trans hle)) hle

theorem alignedEnd_zero : heap.alignedEnd 0 = 0 :=
  (alignedEnd_spec le_rfl).unique ⟨⟨le_rfl, dvd_zero _⟩, fun _ hy => hy.1⟩

-- The operations that round an end up do not overflow.
def EndFits (heap : GlobalDecreasingSizeBestFitHeap β) (x : Int) : Prop :=
  heap.alignment ≠ 1 →
    if heap.alignment.toNat.isPowerOfTwo then x + heap.alignment ≤ int64Max else roundUpTo x heap.alignment ≤ int64Max

instance : DecidablePred heap.EndFits :=
  fun _ => inferInstanceAs (Decidable (_ → _))

theorem EndFits.of_le (h : heap.EndFits y) (hx : 0 ≤ x) (hle : x ≤ y) : heap.EndFits x := by
  intro hone
  have h := h hone
  split_ifs at h ⊢
  case pos => exact (Int.add_le_add_right hle _).trans h
  case neg => exact (alignedEnd_mono hx hle).trans h

theorem computeAlignedChunkEnd_of_fits (hx : 0 ≤ x) (h : heap.EndFits x) :
    heap.computeAlignedChunkEnd x = some (heap.alignedEnd x) := by
  have ha : 0 < heap.alignment := heap.alignment_pos
  rw [computeAlignedChunkEnd]
  by_cases hone : heap.alignment = 1
  case pos =>
    have hs : heap.AlignedUp x x := ⟨⟨le_rfl, hone ▸ one_dvd x⟩, fun y hy => hy.1⟩
    rw [if_neg (not_not.mpr hone), ←hs.unique (alignedEnd_spec hx)]
    rfl
  case neg =>
    have h := h hone
    rw [if_pos hone]
    split_ifs at h ⊢ with hpow
    case neg => exact if_pos h
    case pos =>
      obtain ⟨k, hk⟩ := hpow
      obtain ⟨n, rfl⟩ := Int.eq_ofNat_of_zero_le hx
      have he : heap.alignment = (2 ^ k : Nat) := by omega
      have hm := Nat.div_add_mod' (n + 2 ^ k - 1) (2 ^ k)
      have hlt := Nat.mod_lt (n + 2 ^ k - 1) (Nat.two_pow_pos k)
      have hpos := Nat.two_pow_pos k
      have hs : heap.AlignedUp n ((n + 2 ^ k - 1) / 2 ^ k * 2 ^ k : Nat) := by
        rw [AlignedUp, he]
        apply isLeast_of_lt _ (Int.natCast_dvd_natCast.mpr (dvd_mul_left _ _)) <;> omega
      rw [checked, if_pos h, ←hs.unique (alignedEnd_spec hx), he, ←land_lnot_two_pow]
      rfl

theorem computeAlignedChunkEnd_of_not_fits (h : ¬heap.EndFits x) : heap.computeAlignedChunkEnd x = none := by
  obtain ⟨hone, h⟩ := Classical.not_imp.mp h
  rw [computeAlignedChunkEnd, if_pos hone]
  split_ifs at h ⊢
  case pos => simp [checked, h]
  case neg => exact if_neg h

end HeapSimulator.GlobalDecreasingSizeBestFitHeap

namespace HeapSimulator

open Fuel IntervalGaps

section Query

open BufferIntervalTree

theorem foldl_chunks {chunks : List Chunk} {nodes : List BufferIntervalTreeNode} :
    nodes.foldl (fun chunks node => chunks ++ [node.chunk]) chunks = chunks ++ nodes.map (·.chunk) := by
  induction nodes generalizing chunks
  case nil                => simp
  case cons node nodes hi => rw [List.foldl_cons, hi, List.map_cons, List.append_assoc, List.singleton_append]

theorem chunksOverlappingInTime_spec {T : BufferIntervalTree} {M : Multiset Interval} {t : Tree} {start end_ : Int}
    (h : Holds T M t) : Computes (T.chunksOverlappingInTime start end_ ·) fun chunks =>
      ∀ c, c ∈ chunks ↔ ∃ x ∈ M, overlapping start end_ x ∧ x.chunk = c := by
  obtain ⟨p, dead, hr⟩ := h.represents
  refine .imp (applyToNodesOverlappingInTime_spec hr.root hr.rep) ?_
  rintro chunks ⟨nodes, rfl, hx⟩ c
  have hp : (nodes.map entryOf).Perm (t.toList.filter (IntervalTree.overlaps Interval.start Interval.end_ start end_)) := by
    rw [hx, ←IntervalTree.visitSorted_eq h.sorted h.bounded]
    exact IntervalTree.visit_perm
  have hm : c ∈ nodes.map (·.chunk) ↔ ∃ x ∈ nodes.map entryOf, x.chunk = c := by
    simp only [List.mem_map, exists_exists_and_eq_and]
    rfl
  rw [foldl_chunks, List.nil_append, hm, ←h.entries]
  simp only [hp.mem_iff, List.mem_filter, Multiset.mem_coe, IntervalTree.overlaps, decide_eq_true_iff, and_assoc,
    overlapping]

end Query

namespace GlobalDecreasingSizeBestFitHeap

variable {β : Type} [DecidableEq β] {heap : GlobalDecreasingSizeBestFitHeap β} {M : Multiset Interval}
  {bufferInterval : BufferInterval β}

-- The intervals of a buffer and of the buffers that are colocated with it.
def Colocated (heap : GlobalDecreasingSizeBestFitHeap β) (bufferInterval i : BufferInterval β) : Prop :=
  i = bufferInterval ∨
    ∃ b, Worklist.Reach BufferInterval.colocations heap.interval bufferInterval b ∧ heap.interval b = some i

-- The addresses that are in use at some time of these intervals.
def occupied (heap : GlobalDecreasingSizeBestFitHeap β) (M : Multiset Interval) (bufferInterval : BufferInterval β) :
    Set Int :=
  {a | ∃ x ∈ M, (∃ i, heap.Colocated bufferInterval i ∧ BufferIntervalTree.overlapping i.start i.end_ x) ∧ a ∈ x.chunk}

structure WellFormed (heap : GlobalDecreasingSizeBestFitHeap β) (M : Multiset Interval)
    (bufferInterval : BufferInterval β) : Prop where
  tree        : ∃ t, BufferIntervalTree.Holds heap.intervalTree M t
  chunks      : ∀ x ∈ M, 0 ≤ x.chunk.offset ∧ 0 < x.chunk.size ∧ x.chunk.chunkEnd ≤ int64Max
  closed      : ∀ b i, heap.interval b = some i → ∀ c ∈ i.colocations, (heap.interval c).isSome
  colocations : ∀ c ∈ bufferInterval.colocations, (heap.interval c).isSome
  size_pos    : 0 < bufferInterval.size

theorem isSome_interval_iff {b : β} : (heap.interval b).isSome ↔ b ∈ (heap.bufferIntervals.map (·.1)).toFinset := by
  rw [interval, ←not_iff_not, Bool.not_eq_true, Option.isSome_eq_false_iff, Option.isNone_iff_eq_none,
    List.lookup_eq_none_iff]
  simp
  grind

theorem getTransitiveColocations_spec (h : WellFormed heap M bufferInterval) :
    Computes (heap.getTransitiveColocations · bufferInterval) fun colocations =>
      (∀ b ∈ colocations, (heap.interval b).isSome) ∧
        ∀ b, b ∈ colocations ↔ Worklist.Reach BufferInterval.colocations heap.interval bufferInterval b := by
  have hU : ∀ b ∈ (heap.bufferIntervals.map (·.1)).toFinset, ∃ i, heap.interval b = some i ∧
      ∀ c ∈ i.colocations, c ∈ (heap.bufferIntervals.map (·.1)).toFinset := by
    intro b hb
    obtain ⟨i, hi⟩ := Option.isSome_iff_exists.mp (isSome_interval_iff.mpr hb)
    exact ⟨i, hi, fun c hc => isSome_interval_iff.mp (h.closed b i hi c hc)⟩
  apply (Worklist.loop_spec hU fun c hc => isSome_interval_iff.mp (h.colocations c hc)).imp
  exact fun colocations ⟨_, hs, hm⟩ => ⟨fun b hb => isSome_interval_iff.mpr (hs b hb), hm⟩

section Used

-- The chunks that overlap with the interval of a buffer or of one of the buffers `bs`.
def UsedBy (heap : GlobalDecreasingSizeBestFitHeap β) (M : Multiset Interval) (bufferInterval : BufferInterval β)
    (bs : List β) (c : Chunk) : Prop :=
  ∃ x ∈ M, (∃ i, (i = bufferInterval ∨ ∃ b ∈ bs, heap.interval b = some i) ∧
    BufferIntervalTree.overlapping i.start i.end_ x) ∧ x.chunk = c

theorem usedBy_concat {bs : List β} {b : β} {i : BufferInterval β} {c : Chunk} (hi : heap.interval b = some i) :
    UsedBy heap M bufferInterval (bs ++ [b]) c ↔ UsedBy heap M bufferInterval bs c ∨
      ∃ x ∈ M, BufferIntervalTree.overlapping i.start i.end_ x ∧ x.chunk = c := by
  simp only [UsedBy, List.mem_append, List.mem_singleton]
  constructor
  case mp =>
    rintro ⟨x, hx, ⟨j, rfl | ⟨b', hb | rfl, hj⟩, ho⟩, hc⟩
    case inl         => exact .inl ⟨x, hx, ⟨j, .inl rfl, ho⟩, hc⟩
    case inr.inl     => exact .inl ⟨x, hx, ⟨j, .inr ⟨b', hb, hj⟩, ho⟩, hc⟩
    case inr.inr     =>
      obtain rfl := Option.some.inj (hi.symm.trans hj)
      exact .inr ⟨x, hx, ho, hc⟩
  case mpr =>
    rintro (⟨x, hx, ⟨j, hj, ho⟩, hc⟩ | ⟨x, hx, ho, hc⟩)
    case inl => exact ⟨x, hx, ⟨j, hj.imp_right fun ⟨b', hb, hj⟩ => ⟨b', .inl hb, hj⟩, ho⟩, hc⟩
    case inr => exact ⟨x, hx, ⟨i, .inr ⟨b, .inr rfl, hi⟩, ho⟩, hc⟩

theorem usedChunks_spec (h : WellFormed heap M bufferInterval) :
    Computes (heap.usedChunks · bufferInterval) fun chunks => ∀ c, c ∈ chunks ↔ ∃ x ∈ M,
      (∃ i, heap.Colocated bufferInterval i ∧ BufferIntervalTree.overlapping i.start i.end_ x) ∧ x.chunk = c := by
  obtain ⟨t, ht⟩ := h.tree
  apply (chunksOverlappingInTime_spec ht).bind
  intro chunks hchunks
  apply (getTransitiveColocations_spec h).bind
  intro colocations ⟨hsome, hreach⟩
  have hfold := @Computes.foldlM _ _ colocations chunks
    (fun fuel usedChunks colocation => do
      let interval ← heap.interval colocation
      return usedChunks ++ (← heap.intervalTree.chunksOverlappingInTime interval.start interval.end_ fuel))
    (fun left chunks => ∃ done, done ++ left = colocations ∧ ∀ c, c ∈ chunks ↔ UsedBy heap M bufferInterval done c)
    ⟨[], rfl, fun c => by simp [hchunks, UsedBy]⟩
    (by
      rintro b left chunks ⟨done, rfl, hc⟩
      obtain ⟨i, hi⟩ := Option.isSome_iff_exists.mp (hsome b (by simp))
      simp only [hi, Option.bind_eq_bind, Option.bind_some]
      apply (chunksOverlappingInTime_spec ht).bind
      intro chunks' hc'
      refine .pure ⟨done ++ [b], by simp, fun c => ?_⟩
      rw [List.mem_append, hc, hc', usedBy_concat hi])
  apply hfold.imp
  rintro chunks ⟨done, hd, hc⟩ c
  rw [List.append_nil] at hd
  subst hd
  simp only [hc, UsedBy, Colocated, hreach]

end Used

section Merge

variable {size co ce start : Int} {chunks : List Chunk} {list : List (Int × Int)}

def toPair (c : Chunk) : Int × Int :=
  (c.offset, c.chunkEnd)

def alignGap (heap : GlobalDecreasingSizeBestFitHeap β) (g : Int × Int) : Int × Int :=
  (heap.alignedEnd g.1, g.2)

omit [DecidableEq β]

-- The merge computes the gaps, aligns them and drops the small ones.
theorem mergeUsedChunks_of_fits (hs : 0 ≤ start) (h : Ordered start co ce (chunks.map toPair)) (hf : heap.EndFits ce)
    (hfs : ∀ c ∈ chunks, heap.EndFits c.chunkEnd) :
    heap.mergeUsedChunks size (heap.alignedEnd start) co ce chunks list =
      some (list ++ ((gaps start co ce (chunks.map toPair)).1.map heap.alignGap).filter (fun g => size ≤ g.2 - g.1),
        heap.alignedEnd (gaps start co ce (chunks.map toPair)).2) := by
  induction chunks generalizing start co ce list
  case nil =>
    have hle := h.start_le.trans h.lt.le
    have hmax := max_eq_right (@alignedEnd_mono _ heap _ _ hs hle)
    rw [mergeUsedChunks, computeAlignedChunkEnd_of_fits (hs.trans hle) hf]
    simp only [Option.bind_eq_bind, Option.bind_some, hmax, List.map_nil, gaps, List.map_cons, alignGap]
    split_ifs with hsize <;> simp [hsize]
  case cons c chunks hi =>
    have hle := h.start_le.trans h.lt.le
    have hmax := max_eq_right (@alignedEnd_mono _ heap _ _ hs hle)
    obtain ⟨hfc, hfs⟩ := List.forall_mem_cons.mp hfs
    rw [List.map_cons] at h ⊢
    rw [mergeUsedChunks, gaps]
    by_cases hlt : c.offset < ce
    case pos =>
      rw [if_pos hlt, if_pos (show (toPair c).1 < ce from hlt)]
      refine hi hs h.merge ?_ hfs
      obtain he | he := max_choice ce c.chunkEnd <;> rwa [he]
    case neg =>
      rw [if_neg hlt, if_neg (show ¬(toPair c).1 < ce from hlt), computeAlignedChunkEnd_of_fits (hs.trans hle) hf]
      have hce : 0 ≤ ce := hs.trans (h.start_le.trans h.lt.le)
      have hn : Ordered ce c.offset c.chunkEnd (chunks.map toPair) := h.next (not_lt.mp hlt)
      simp only [Option.bind_eq_bind, Option.bind_some, hmax]
      split_ifs with hsize
      case pos =>
        rw [hi hce hn hfc hfs, List.map_cons, List.filter_cons_of_pos (by exact decide_eq_true hsize), List.append_assoc]
        rfl
      case neg =>
        rw [hi hce hn hfc hfs, List.map_cons, List.filter_cons_of_neg (by exact mt of_decide_eq_true hsize)]
        rfl

-- Every end, or a larger one, is rounded up at last.
theorem mergeUsedChunks_of_not_fits (hce : 0 ≤ ce) (hcs : ∀ c ∈ chunks, 0 ≤ c.chunkEnd)
    (hf : ¬heap.EndFits ce ∨ ∃ c ∈ chunks, ¬heap.EndFits c.chunkEnd) :
    heap.mergeUsedChunks size start co ce chunks list = none := by
  induction chunks generalizing start co ce list
  case nil =>
    have hf := hf.resolve_right (by simp)
    rw [mergeUsedChunks, computeAlignedChunkEnd_of_not_fits hf]
    rfl
  case cons c chunks hi =>
    obtain ⟨hc, hcs⟩ := List.forall_mem_cons.mp hcs
    simp only [List.mem_cons, exists_eq_or_imp] at hf
    rw [mergeUsedChunks]
    by_cases hlt : c.offset < ce
    case pos =>
      rw [if_pos hlt]
      refine hi (hce.trans (le_max_left ..)) hcs ?_
      rw [← or_assoc] at hf
      refine hf.imp_left fun hf hmax => ?_
      exact hf.elim (· (hmax.of_le hce (le_max_left ..))) (· (hmax.of_le hc (le_max_right ..)))
    case neg =>
      rw [if_neg hlt]
      by_cases hfc : heap.EndFits ce
      case neg =>
        rw [computeAlignedChunkEnd_of_not_fits hfc]
        rfl
      case pos =>
        rw [computeAlignedChunkEnd_of_fits hce hfc]
        exact hi hc hcs (hf.resolve_left (not_not.mpr hfc))

variable {U : Set Int} {first : Chunk} {limit s e : Int}

-- The free chunks for a limit on their sizes.
def Usable (heap : GlobalDecreasingSizeBestFitHeap β) (U : Set Int) (limit s e : Int) : Prop :=
  (∃ s₀, IsGap U 0 s₀ e ∧ heap.AlignedUp s₀ s ∧ limit ≤ e - s) ∨
    ∃ s₀, IsTail U 0 s₀ ∧ heap.AlignedUp s₀ s ∧ e = int64Max

def freeList (heap : GlobalDecreasingSizeBestFitHeap β) (size : Int) (gs : List (Int × Int) × Int) : List (Int × Int) :=
  (gs.1.map heap.alignGap).filter (fun g => size ≤ g.2 - g.1) ++ [(heap.alignedEnd gs.2, int64Max)]

theorem mem_freeList (h : Ordered 0 co ce (chunks.map toPair)) (hsize : 0 < size) :
    (s, e) ∈ heap.freeList size (gaps 0 co ce (chunks.map toPair)) ↔
      Usable heap (covered ((co, ce) :: chunks.map toPair)) size s e := by
  obtain ⟨hg, ht⟩ := gaps_spec h
  obtain ⟨-, hb⟩ := gaps_ordered h
  generalize gaps 0 co ce (chunks.map toPair) = gs at *
  rw [freeList, List.mem_append, List.mem_singleton, Usable]
  apply or_congr
  case h₁ =>
    simp only [List.mem_filter, List.mem_map, alignGap, Prod.mk.injEq, decide_eq_true_iff]
    constructor
    case mp =>
      rintro ⟨⟨g, hgs, rfl, rfl⟩, hle⟩
      have ha := @alignedEnd_spec _ heap _ (hb g hgs).1
      have hlt : g.1 < g.2 := by
        have := ha.1.1
        omega
      exact ⟨g.1, (hg g.1 g.2).mp ⟨hgs, hlt⟩, ha, hle⟩
    case mpr =>
      rintro ⟨s₀, hgap, ha, hle⟩
      have hgs := ((hg s₀ e).mpr hgap).1
      exact ⟨⟨(s₀, e), hgs, (alignedEnd_spec hgap.le).unique ha, rfl⟩, hle⟩
  case h₂ =>
    simp only [Prod.mk.injEq]
    constructor
    case mp =>
      rintro ⟨rfl, rfl⟩
      have htail := (ht gs.2).mp rfl
      exact ⟨gs.2, htail, alignedEnd_spec htail.le, rfl⟩
    case mpr =>
      rintro ⟨s₀, htail, ha, rfl⟩
      obtain rfl := (ht s₀).mpr htail
      exact ⟨ha.unique (alignedEnd_spec htail.le), rfl⟩

theorem freeList_ascending (h : Ordered 0 co ce (chunks.map toPair)) (hsize : 0 < size) :
    (heap.freeList size (gaps 0 co ce (chunks.map toPair))).Pairwise fun p q => p.1 < p.2 ∧ p.2 < q.1 := by
  obtain ⟨hp, hb⟩ := gaps_ordered h
  have hlast := (gaps_spec h).2 _ |>.mp rfl |>.le
  generalize gaps 0 co ce (chunks.map toPair) = gs at *
  rw [freeList, List.pairwise_append]
  refine ⟨?pairwise, List.pairwise_singleton _ _, ?separated⟩
  case pairwise =>
    have hm : (gs.1.map heap.alignGap).Pairwise fun p q => p.2 < q.1 := by
      rw [List.pairwise_map]
      apply hp.imp_of_mem
      intro p q _ hq hlt
      exact hlt.trans_le (alignedEnd_spec (hb q hq).1).1.1
    apply (hm.filter _).imp_of_mem
    intro p q hp _ hlt
    have hle := of_decide_eq_true (List.mem_filter.mp hp).2
    omega
  case separated =>
    intro p hp q hq
    obtain rfl := List.mem_singleton.mp hq
    obtain ⟨hp, hle⟩ := List.mem_filter.mp hp
    obtain ⟨g, hg, rfl⟩ := List.mem_map.mp hp
    have hle := of_decide_eq_true hle
    refine ⟨by omega, (hb g hg).2.2.trans_le (alignedEnd_spec hlast).1.1⟩

end Merge

section Sorted

variable {chunks : List Chunk}

theorem covered_chunks (h : ∀ c, c ∈ chunks ↔ ∃ x ∈ M,
      (∃ i, heap.Colocated bufferInterval i ∧ BufferIntervalTree.overlapping i.start i.end_ x) ∧ x.chunk = c) :
    covered (chunks.map toPair) = heap.occupied M bufferInterval := by
  ext a
  constructor
  case mp =>
    rintro ⟨p, hp, ha⟩
    obtain ⟨c, hc, rfl⟩ := List.mem_map.mp hp
    obtain ⟨x, hx, hi, rfl⟩ := (h c).mp hc
    exact ⟨x, hx, hi, ha⟩
  case mpr =>
    rintro ⟨x, hx, hi, ha⟩
    exact ⟨_, List.mem_map_of_mem ((h _).mpr ⟨x, hx, hi, rfl⟩), ha⟩

theorem ordered_of_sorted {first : Chunk} (hs : (first :: chunks).Pairwise (·.offset ≤ ·.offset))
    (hc : ∀ c ∈ first :: chunks, 0 ≤ c.offset ∧ 0 < c.size) :
    Ordered 0 first.offset first.chunkEnd (chunks.map toPair) := by
  have hlt : ∀ c ∈ first :: chunks, c.offset < c.chunkEnd := fun c h => Chunk.size_pos_iff.mp (hc c h).2
  obtain ⟨hle, hs⟩ := List.pairwise_cons.mp hs
  constructor
  case start_le => exact (hc first (.head _)).1
  case lt       => exact hlt first (.head _)
  case sorted   => exact List.pairwise_map.mpr hs
  case le       => simpa [toPair] using hle
  case nonempty =>
    intro p hp
    obtain ⟨c, hc, rfl⟩ := List.mem_map.mp hp
    exact hlt c (.tail _ hc)

omit [DecidableEq β] in
theorem usable_empty {limit s e : Int} : Usable heap ∅ limit s e ↔ s = 0 ∧ e = int64Max := by
  have hz : heap.AlignedUp 0 0 := ⟨⟨le_rfl, dvd_zero _⟩, fun _ hy => hy.1⟩
  constructor
  case mp =>
    rintro (⟨s₀, hg, -⟩ | ⟨s₀, ht, ha, he⟩)
    case inl => exact absurd hg.upper (Set.notMem_empty e)
    case inr =>
      obtain rfl := ht.lower.resolve_right (Set.notMem_empty _)
      exact ⟨ha.unique hz, he⟩
  case mpr =>
    rintro ⟨rfl, rfl⟩
    exact .inr ⟨0, ⟨le_rfl, fun x _ => Set.notMem_empty x, .inl rfl⟩, hz, rfl⟩

end Sorted

-- The ends of the chunks that are in use at some time of these intervals can be rounded up.
def EndsFit (heap : GlobalDecreasingSizeBestFitHeap β) (M : Multiset Interval) (bufferInterval : BufferInterval β) : Prop :=
  ∀ x ∈ M, (∃ i, heap.Colocated bufferInterval i ∧ BufferIntervalTree.overlapping i.start i.end_ x) →
    heap.EndFits x.chunk.chunkEnd

section Order

variable {used : List Chunk}

theorem sorted_used : (used.mergeSort (·.offset ≤ ·.offset)).Pairwise (·.offset ≤ ·.offset) := by
  simpa using @List.pairwise_mergeSort _ (fun c d : Chunk => decide (c.offset ≤ d.offset)) (by simp; omega) (by simp; omega) used

theorem mem_sorted_used {c : Chunk} : c ∈ used.mergeSort (·.offset ≤ ·.offset) ↔ c ∈ used :=
  (List.mergeSort_perm used (·.offset ≤ ·.offset)).mem_iff

end Order

theorem makeFreeChunks_spec (h : WellFormed heap M bufferInterval) (hf : EndsFit heap M bufferInterval)
    (maxColocationSize : Int) :
    Computes (heap.makeFreeChunks · bufferInterval maxColocationSize) fun chunks =>
      (∀ s e, (s, e) ∈ chunks ↔ Usable heap (heap.occupied M bufferInterval) bufferInterval.size s e) ∧
        chunks.Pairwise fun p q => q.1 < q.2 ∧ q.2 < p.1 := by
  apply (usedChunks_spec h).bind
  intro used hused
  have hperm := List.mergeSort_perm used (·.offset ≤ ·.offset)
  have hsorted := @sorted_used used
  generalize used.mergeSort (·.offset ≤ ·.offset) = sorted at *
  have hcov : covered (sorted.map toPair) = heap.occupied M bufferInterval := by
    rw [covered_perm (hperm.map toPair), covered_chunks hused]
  have hpos : ∀ c ∈ sorted, 0 ≤ c.offset ∧ 0 < c.size := by
    intro c hc
    obtain ⟨x, hx, -, rfl⟩ := (hused c).mp (hperm.mem_iff.mp hc)
    exact ⟨(h.chunks x hx).1, (h.chunks x hx).2.1⟩
  have hfit : ∀ c ∈ sorted, heap.EndFits c.chunkEnd := by
    intro c hc
    obtain ⟨x, hx, hi, rfl⟩ := (hused c).mp (hperm.mem_iff.mp hc)
    exact hf x hx hi
  cases sorted
  case nil =>
    have ho : heap.occupied M bufferInterval = ∅ := hcov ▸ by simp [covered]
    apply Computes.pure
    rw [ho]
    exact ⟨fun s e => by rw [usable_empty]; simp, List.pairwise_singleton _ _⟩
  case cons first rest =>
    have hord := ordered_of_sorted hsorted hpos
    obtain ⟨hfirst, hrest⟩ := List.forall_mem_cons.mp hfit
    have hmerge := @mergeUsedChunks_of_fits _ heap bufferInterval.size _ _ _ _ [] le_rfl hord hfirst hrest
    rw [alignedEnd_zero, List.nil_append] at hmerge
    have hasc := @freeList_ascending _ heap _ _ _ _ hord h.size_pos
    have hlist : DescendingMap.insertAll Prod.fst []
        (heap.freeList bufferInterval.size (gaps 0 first.offset first.chunkEnd (rest.map toPair))).reverse =
          (heap.freeList bufferInterval.size (gaps 0 first.offset first.chunkEnd (rest.map toPair))).reverse := by
      apply DescendingMap.insertAll_of_descending
      rw [List.nil_append, DescendingMap.Descending, List.pairwise_reverse]
      exact hasc.imp fun hlt => hlt.1.trans hlt.2
    have hmem := fun s e => @mem_freeList _ heap _ _ _ _ s e hord h.size_pos
    have hcov : covered ((first.offset, first.chunkEnd) :: rest.map toPair) = heap.occupied M bufferInterval := hcov
    rw [hcov] at hmem
    simp only [hmerge, Option.bind_eq_bind, Option.bind_some]
    apply Computes.pure
    rw [←freeList, hlist]
    exact ⟨fun s e => List.mem_reverse.trans (hmem s e), List.pairwise_reverse.mpr hasc⟩

theorem not_computes_makeFreeChunks {P : List (Int × Int) → Prop} (h : WellFormed heap M bufferInterval)
    (hf : ¬EndsFit heap M bufferInterval) (maxColocationSize : Int) :
    ¬Computes (heap.makeFreeChunks · bufferInterval maxColocationSize) P := by
  rintro ⟨chunks, hr, -⟩
  obtain ⟨used, hu, hused⟩ := usedChunks_spec h
  obtain ⟨fuel, hr, hu⟩ := (hr.and hu).exists
  simp only [makeFreeChunks, hu, Option.bind_eq_bind, Option.bind_some] at hr
  simp only [EndsFit, not_forall] at hf
  obtain ⟨x, hx, hi, hfx⟩ := hf
  have hc : x.chunk ∈ used.mergeSort (·.offset ≤ ·.offset) := mem_sorted_used.mpr ((hused _).mpr ⟨x, hx, hi, rfl⟩)
  have hpos : ∀ c ∈ used.mergeSort (·.offset ≤ ·.offset), 0 ≤ c.chunkEnd := by
    intro c hc
    obtain ⟨y, hy, -, rfl⟩ := (hused c).mp (mem_sorted_used.mp hc)
    obtain ⟨ho, hs, -⟩ := h.chunks y hy
    exact Int.add_nonneg ho hs.le
  generalize used.mergeSort (·.offset ≤ ·.offset) = sorted at *
  cases sorted
  case nil => cases hc
  case cons first rest =>
    obtain ⟨hfirst, hrest⟩ := List.forall_mem_cons.mp hpos
    have hn : ¬heap.EndFits first.chunkEnd ∨ ∃ c ∈ rest, ¬heap.EndFits c.chunkEnd := by
      obtain rfl | hc := List.mem_cons.mp hc
      case inl => exact .inl hfx
      case inr => exact .inr ⟨_, hc, hfx⟩
    simp [mergeUsedChunks_of_not_fits hfirst hrest hn] at hr

-- The gaps that hold the buffer, but not the largest colocated buffer, are kept. The ends are rounded up with the sums
-- and products of the machine.
theorem makeFreeChunks_usable_iff (h : WellFormed heap M bufferInterval) (maxColocationSize : Int) :
    (Computes (heap.makeFreeChunks · bufferInterval maxColocationSize) fun chunks =>
      ∀ s e, (s, e) ∈ chunks ↔ Usable heap (heap.occupied M bufferInterval) maxColocationSize s e) ↔
    EndsFit heap M bufferInterval ∧
      ∀ s₀ s e, IsGap (heap.occupied M bufferInterval) 0 s₀ e → heap.AlignedUp s₀ s →
        (bufferInterval.size ≤ e - s ↔ maxColocationSize ≤ e - s) := by
  by_cases hf : EndsFit heap M bufferInterval
  case neg => exact iff_of_false (not_computes_makeFreeChunks h hf _) fun hc => hf hc.1
  rw [and_iff_right hf]
  obtain ⟨chunks, hr, hm, -⟩ := makeFreeChunks_spec h hf maxColocationSize
  -- No gap ends where the tail does.
  have hmax : int64Max ∉ heap.occupied M bufferInterval := by
    rintro ⟨x, hx, -, ha⟩
    exact absurd ha.2 (not_lt_of_ge (h.chunks x hx).2.2)
  have hgap {limit s₀ s e : Int} (hg : IsGap (heap.occupied M bufferInterval) 0 s₀ e) (ha : heap.AlignedUp s₀ s) :
      Usable heap (heap.occupied M bufferInterval) limit s e ↔ limit ≤ e - s := by
    constructor
    case mp =>
      rintro (⟨_, _, _, hle⟩ | ⟨_, _, _, rfl⟩)
      case inl => exact hle
      case inr => exact absurd hg.upper hmax
    case mpr => exact fun hle => .inl ⟨s₀, hg, ha, hle⟩
  constructor
  case mp =>
    rintro ⟨chunks', hr', hu⟩ s₀ s e hg ha
    obtain rfl := hr.unique hr'
    exact (hgap hg ha).symm.trans <| (hm s e).symm.trans <| (hu s e).trans (hgap hg ha)
  case mpr =>
    intro hu
    refine ⟨chunks, hr, fun s e => (hm s e).trans ?_⟩
    apply or_congr_left
    apply exists_congr
    intro s₀
    apply and_congr_right
    intro hg
    apply and_congr_right
    exact fun ha => hu s₀ s e hg ha

-- A buffer of size 4 that is colocated with a buffer of size 10, where [4,8) is in use.
def smallBuffer : BufferInterval Nat where
  buffer         := 0
  size           := 4
  start          := 0
  end_           := 10
  colocations    := [1]
  needAllocation := true

def largeBuffer : BufferInterval Nat where
  buffer         := 1
  size           := 10
  start          := 11
  end_           := 20
  colocations    := []
  needAllocation := false

def usedHeap : GlobalDecreasingSizeBestFitHeap Nat where
  alignment       := 1
  alignment_pos   := le_rfl
  bufferIntervals := [(0, smallBuffer), (1, largeBuffer)]
  intervalTree    := ⟨some 0, [⟨0, 10, 10, ⟨4, 4⟩, none, none, none⟩]⟩

theorem usedHeap_wellFormed : WellFormed usedHeap {⟨0, 10, ⟨4, 4⟩⟩} smallBuffer where
  tree := by
    obtain ⟨T, hr, t, ht⟩ := @BufferIntervalTree.Holds.add _ _ 0 10 ⟨4, 4⟩ _ BufferIntervalTree.empty_holds
    obtain rfl : T = usedHeap.intervalTree := hr.unique (.of_forall fun _ => rfl)
    exact ⟨t, ht⟩
  chunks := by
    intro x hx
    rw [Multiset.mem_singleton.mp hx]
    decide
  closed := by
    intro b i hi c hc
    simp only [interval, usedHeap, List.lookup_cons] at hi
    split at hi
    case h_1 =>
      obtain rfl := Option.some.inj hi
      obtain rfl := List.mem_singleton.mp hc
      rfl
    case h_2 =>
      split at hi
      case h_1 =>
        obtain rfl := Option.some.inj hi
        exact absurd hc List.not_mem_nil
      case h_2 => cases hi
  colocations := by decide
  size_pos := by decide

theorem usedHeap_occupied : usedHeap.occupied {⟨0, 10, ⟨4, 4⟩⟩} smallBuffer = Set.Ico 4 8 := by
  ext a
  constructor
  case mp =>
    rintro ⟨x, hx, -, ha⟩
    rw [Multiset.mem_singleton.mp hx] at ha
    exact ha
  case mpr =>
    intro ha
    exact ⟨_, Multiset.mem_singleton_self _, ⟨smallBuffer, .inl rfl, by decide⟩, ha⟩

theorem usedHeap_isGap : IsGap (Set.Ico 4 8) 0 0 4 :=
  ⟨le_rfl, by decide, fun x _ hx h => absurd h.1 (not_le_of_gt hx), .inl rfl, by simp⟩

theorem usedHeap_endsFit : EndsFit usedHeap {⟨0, 10, ⟨4, 4⟩⟩} smallBuffer :=
  fun _ _ _ hone => absurd rfl hone

theorem not_makeFreeChunks_usable :
    usedHeap.getMaxColocationSize 4 smallBuffer = some 10 ∧
    ¬Computes (usedHeap.makeFreeChunks · smallBuffer 10) fun chunks =>
      ∀ s e, (s, e) ∈ chunks ↔ Usable usedHeap (usedHeap.occupied {⟨0, 10, ⟨4, 4⟩⟩} smallBuffer) 10 s e := by
  apply And.intro rfl
  rintro ⟨chunks, hr, hu⟩
  obtain ⟨chunks', hr', hm, -⟩ := makeFreeChunks_spec usedHeap_wellFormed usedHeap_endsFit 10
  obtain rfl := hr.unique hr'
  have ha : usedHeap.AlignedUp 0 0 := ⟨⟨le_rfl, dvd_zero _⟩, fun _ hy => hy.1⟩
  rw [usedHeap_occupied] at hu hm
  obtain ⟨_, _, _, hle⟩ | ⟨_, _, _, he⟩ := (hu 0 4).mp <| (hm 0 4).mpr <| .inl ⟨0, usedHeap_isGap, ha, by decide⟩
  case inl => exact absurd hle (by decide)
  case inr => exact absurd he (by decide)

theorem makeFreeChunks_usable_iff_usedHeap :
    Computes (usedHeap.makeFreeChunks · smallBuffer 4) fun chunks =>
      ∀ s e, (s, e) ∈ chunks ↔ Usable usedHeap (usedHeap.occupied {⟨0, 10, ⟨4, 4⟩⟩} smallBuffer) 4 s e :=
  (makeFreeChunks_usable_iff usedHeap_wellFormed 4).mpr ⟨usedHeap_endsFit, fun _ _ _ _ _ => Iff.rfl⟩

end GlobalDecreasingSizeBestFitHeap
end HeapSimulator
