import XlaModel.HeapSimulator.SlicedAllocationFinder

namespace HeapSimulator

open DescendingMap

variable {fc : Chunk} {t s : Nat} {x : Int} {p q n m : FreeChunkPiece} {ps ns it : List FreeChunkPiece}

namespace FreeChunkPiece

def Affected (fc : Chunk) (t : Nat) (p : FreeChunkPiece) : Prop :=
  (fc.offset < p.dimensions.chunkEnd ∧ p.dimensions.offset < fc.chunkEnd) ∧ t + 1 = p.earliestFreeSliceTime

instance : DecidablePred (Affected fc t) := fun _ =>
  inferInstanceAs (Decidable (_ ∧ _))

-- The pieces that replace a piece in an update.
def parts (fc : Chunk) (t : Nat) (p : FreeChunkPiece) : List FreeChunkPiece :=
  if p.Affected fc t then p.split fc t else [p]

theorem mem_split : n ∈ p.split fc t ↔
    (fc.offset > p.dimensions.offset ∧ n =
      ⟨p.earliestFreeSliceTime, .fromOffsetEnd p.dimensions.offset (min fc.offset p.dimensions.chunkEnd)⟩) ∨
    n = ⟨t, .fromOffsetEnd (max fc.offset p.dimensions.offset) (min fc.chunkEnd p.dimensions.chunkEnd)⟩ ∨
    (fc.chunkEnd < p.dimensions.chunkEnd ∧ n =
      ⟨p.earliestFreeSliceTime, .fromOffsetEnd fc.chunkEnd p.dimensions.chunkEnd⟩) := by
  simp only [split, List.mem_append, List.mem_ite_nil_right, List.mem_singleton, or_assoc]

theorem parts_size_pos (hc : 0 < fc.size) (hp : 0 < p.dimensions.size) (hn : n ∈ p.parts fc t) :
    0 < n.dimensions.size := by
  rw [parts] at hn
  split at hn
  case isFalse => rwa [List.mem_singleton.mp hn]
  case isTrue h =>
    obtain ⟨⟨hl, hr⟩, -⟩ := h
    rw [Chunk.size_pos_iff] at hc hp ⊢
    obtain ⟨hlt, rfl⟩ | rfl | ⟨hlt, rfl⟩ := mem_split.mp hn
    all_goals simp; omega

theorem parts_subset (hn : n ∈ p.parts fc t) (hx : x ∈ n.dimensions) : x ∈ p.dimensions := by
  rw [parts] at hn
  split at hn
  case isFalse => rwa [←List.mem_singleton.mp hn]
  case isTrue h =>
    obtain ⟨⟨hl, hr⟩, -⟩ := h
    rw [Chunk.mem_def] at hx ⊢
    obtain ⟨hlt, rfl⟩ | rfl | ⟨hlt, rfl⟩ := mem_split.mp hn
    all_goals simp at hx; omega

theorem parts_unique (hc : 0 < fc.size) (hn : n ∈ p.parts fc t) (hm : m ∈ p.parts fc t)
    (hx : x ∈ n.dimensions) (hx' : x ∈ m.dimensions) : n = m := by
  rw [parts] at hn hm
  split at hn
  case isFalse h =>
    rw [if_neg h] at hm
    exact (List.mem_singleton.mp hn).trans (List.mem_singleton.mp hm).symm
  case isTrue h =>
    rw [if_pos h] at hm
    rw [Chunk.mem_def] at hx hx'
    rw [Chunk.size_pos_iff] at hc
    obtain ⟨_, rfl⟩ | rfl | ⟨_, rfl⟩ := mem_split.mp hn <;>
    obtain ⟨_, rfl⟩ | rfl | ⟨_, rfl⟩ := mem_split.mp hm
    all_goals simp at hx hx' ⊢; try omega

theorem split_offsets (hc : 0 < fc.size) (h : p.Affected fc t) :
    (p.split fc t).Pairwise fun n m => n.offset ≠ m.offset := by
  rw [Chunk.size_pos_iff] at hc
  obtain ⟨⟨hl, hr⟩, -⟩ := h
  rw [split]
  split_ifs <;> simp [offset] <;> omega

theorem exists_mem_parts (hx : x ∈ p.dimensions) :
    ∃ n ∈ p.parts fc t, x ∈ n.dimensions ∧ n.earliestFreeSliceTime =
      if x ∈ fc ∧ t + 1 = p.earliestFreeSliceTime then t else p.earliestFreeSliceTime := by
  rw [parts]
  split
  case isFalse h =>
    have hn : ¬(x ∈ fc ∧ t + 1 = p.earliestFreeSliceTime) := by
      intro ⟨hxc, ht⟩
      rw [Chunk.mem_def] at hx hxc
      exact h ⟨by omega, ht⟩
    exact ⟨p, List.mem_singleton_self p, hx, (if_neg hn).symm⟩
  case isTrue h =>
    simp only [Chunk.mem_def, mem_split] at hx ⊢
    by_cases hlt : x < fc.offset
    case pos => exact ⟨_, .inl ⟨by omega, rfl⟩, by simp; omega, by simp; omega⟩
    case neg =>
      by_cases hgt : x < fc.chunkEnd
      case pos => exact ⟨_, .inr <| .inl rfl, by simp; omega, by simp [h.2]; omega⟩
      case neg => exact ⟨_, .inr <| .inr ⟨by omega, rfl⟩, by simp; omega, by simp; omega⟩

end FreeChunkPiece

namespace FreeChunkRoot

open FreeChunkPiece

variable {root : FreeChunkRoot}

theorem updateLoop_spec (hc : 0 < fc.size) (hp : ∀ p ∈ it, 0 < p.dimensions.size)
    (hi : it.Pairwise fun p q => q.dimensions.chunkEnd ≤ p.offset) :
    updateLoop fc t it ps ns = some
      (ps.filter fun p => ∀ q ∈ it, q.Affected fc t → p.offset ≠ q.offset,
        ns ++ (it.filter (Affected fc t ·)).flatMap (split · fc t)) := by
  induction it generalizing ps ns
  case nil => simp [updateLoop]
  case cons p it hj =>
    have ⟨hpp, hpi⟩ := List.forall_mem_cons.mp hp
    have ⟨hle, hit⟩ := List.pairwise_cons.mp hi
    rw [updateLoop]
    split_ifs with he
    case neg =>
      -- The pieces that follow end before the free chunk as well.
      have hn : ∀ q ∈ p :: it, ¬q.Affected fc t := by
        intro q hq ha
        have hlt := Chunk.size_pos_iff.mp hpp
        obtain rfl | hq := List.mem_cons.mp hq
        case inl => exact absurd ha.1.1 (by omega)
        case inr =>
          have hqp := hle q hq
          rw [FreeChunkPiece.offset] at hqp
          exact absurd ha.1.1 (by omega)
      have hf : (p :: it).filter (Affected fc t ·) = [] := List.filter_eq_nil_iff.mpr (by simpa using hn)
      have hk : (ps.filter fun p' => ∀ q ∈ p :: it, q.Affected fc t → p'.offset ≠ q.offset) = ps :=
        List.filter_eq_self.mpr fun p' _ => decide_eq_true fun q hq ha => absurd ha (hn q hq)
      rw [hf, hk, List.flatMap_nil, List.append_nil]
    case pos =>
      rw [Chunk.overlapsWith_eq hc hpp, Option.bind_eq_bind, Option.bind_some]
      by_cases ha : p.Affected fc t
      case pos =>
        have hb : ¬(!decide (fc.offset < p.dimensions.chunkEnd ∧ p.dimensions.offset < fc.chunkEnd) ||
            decide (t + 1 ≠ p.earliestFreeSliceTime)) = true := by
          simp [ha.1, ha.2]
        rw [if_neg hb, hj hpi hit, erase, List.filter_filter, List.filter_cons_of_pos (by simpa), List.flatMap_cons,
          List.append_assoc]
        congr 3
        ext p'
        simp [ha, Bool.and_comm]
      case neg =>
        have hb : (!decide (fc.offset < p.dimensions.chunkEnd ∧ p.dimensions.offset < fc.chunkEnd) ||
            decide (t + 1 ≠ p.earliestFreeSliceTime)) = true := by
          simpa [Affected, imp_iff_not_or] using ha
        rw [if_pos hb, hj hpi hit, List.filter_cons_of_neg (by simpa)]
        congr 3
        ext p'
        simp [ha]

structure Partitioned (root : FreeChunkRoot) : Prop where
  chunk_pos  : 0 < root.chunk.size
  descending : Descending FreeChunkPiece.offset root.pieces
  size_pos   : ∀ p ∈ root.pieces, 0 < p.dimensions.size
  covers     : ∀ x, x ∈ root.chunk ↔ ∃ p ∈ root.pieces, x ∈ p.dimensions
  unique     : ∀ p ∈ root.pieces, ∀ q ∈ root.pieces, ∀ x ∈ p.dimensions, x ∈ q.dimensions → p = q

-- The piece that contains `x` is free from slice time `t` on.
def FreeSince (root : FreeChunkRoot) (x : Int) (t : Nat) : Prop :=
  ∃ p ∈ root.pieces, x ∈ p.dimensions ∧ p.earliestFreeSliceTime = t

theorem Partitioned.new (hc : 0 < fc.size) : (FreeChunkRoot.new fc t).Partitioned where
  chunk_pos  := hc
  descending := List.pairwise_singleton _ _
  size_pos   := by simpa [FreeChunkRoot.new]
  covers     := by simp [FreeChunkRoot.new]
  unique     := by simp [FreeChunkRoot.new]

theorem Partitioned.pairwise (h : root.Partitioned) :
    root.pieces.Pairwise fun p q => q.dimensions.chunkEnd ≤ p.offset := by
  apply h.descending.imp_of_mem
  intro p q hp hq hlt
  by_contra hgt
  have hpp := Chunk.size_pos_iff.mp (h.size_pos p hp)
  have he : p = q := h.unique p hp q hq p.offset ⟨le_rfl, hpp⟩ ⟨hlt.le, not_le.mp hgt⟩
  exact lt_irrefl _ (he ▸ hlt)

-- Pieces that are parts of different pieces have different offsets.
theorem Partitioned.offset_ne (h : root.Partitioned) (hc : 0 < fc.size) (hp : p ∈ root.pieces) (hq : q ∈ root.pieces)
    (hne : p ≠ q) (hn : n ∈ p.parts fc t) (hm : m ∈ q.parts fc t) : n.offset ≠ m.offset := by
  intro he
  have hnp := Chunk.size_pos_iff.mp (parts_size_pos hc (h.size_pos p hp) hn)
  have hmp := Chunk.size_pos_iff.mp (parts_size_pos hc (h.size_pos q hq) hm)
  have hxn : n.offset ∈ n.dimensions := ⟨le_rfl, hnp⟩
  have hxm : n.offset ∈ m.dimensions := he ▸ ⟨le_rfl, hmp⟩
  exact hne <| h.unique p hp q hq _ (parts_subset hn hxn) (parts_subset hm hxm)

-- The affected pieces are replaced.
theorem update_eq (h : root.Partitioned) (hc : 0 < fc.size) :
    root.update fc t = some
      { root with
        pieces := insertAll FreeChunkPiece.offset (root.pieces.filter (¬Affected fc t ·))
          ((root.pieces.filter (Affected fc t ·)).flatMap (split · fc t)) } := by
  generalize hit : lowerBound FreeChunkPiece.offset root.pieces (fc.chunkEnd - 1) = it
  have hs : it.Sublist root.pieces := hit ▸ lowerBound_sublist
  have hn : it.filter (Affected fc t ·) = root.pieces.filter (Affected fc t ·) := by
    rw [←hit]
    apply filter_lowerBound
    intro p _ ha
    have hlt := ha.1.2
    rw [FreeChunkPiece.offset]
    omega
  have hk : (root.pieces.filter fun p => ∀ q ∈ it, q.Affected fc t → p.offset ≠ q.offset) =
      root.pieces.filter (¬Affected fc t ·) := by
    apply List.filter_congr
    intro p hp
    rw [decide_eq_decide]
    constructor
    case mp =>
      intro hq ha
      have hpi : p ∈ it.filter (Affected fc t ·) := by simpa [hn] using ⟨hp, ha⟩
      exact hq p (List.mem_filter.mp hpi).1 ha rfl
    case mpr => exact fun hnp q hq haq he => hnp <| h.descending.key_injective hp (hs.subset hq) he ▸ haq
  have hl := @updateLoop_spec fc t root.pieces [] _ hc
    (fun p hp => h.size_pos p (hs.subset hp)) (h.pairwise.sublist hs)
  rw [hk, hn] at hl
  simp [update, hit, hl]

theorem update_keys (h : root.Partitioned) (hc : 0 < fc.size) :
    ((root.pieces.filter (¬Affected fc t ·) ++
      (root.pieces.filter (Affected fc t ·)).flatMap (split · fc t)).map FreeChunkPiece.offset).Nodup := by
  have hm {p n : FreeChunkPiece} (ha : p.Affected fc t) (hn : n ∈ p.split fc t) : n ∈ p.parts fc t := by
    rwa [parts, if_pos ha]
  rw [List.Nodup, List.pairwise_map, List.pairwise_append, List.pairwise_flatMap]
  simp only [List.mem_filter, decide_eq_true_iff, List.mem_flatMap]
  refine ⟨?distinct, ⟨fun p hp => split_offsets hc hp.2, ?disjoint⟩, ?notStart⟩
  case distinct => exact (h.descending.sublist List.filter_sublist).imp fun hlt => hlt.ne'
  case disjoint =>
    apply (h.descending.sublist List.filter_sublist).imp_of_mem
    intro p q hp hq hlt n hn m hm'
    simp only [List.mem_filter, decide_eq_true_iff] at hp hq
    exact h.offset_ne hc hp.1 hq.1 (fun he => lt_irrefl _ (he ▸ hlt)) (hm hp.2 hn) (hm hq.2 hm')
  case notStart =>
    rintro p ⟨hp, hna⟩ n ⟨q, ⟨hq, ha⟩, hn⟩
    have hpp : p ∈ p.parts fc t := by simp [parts, hna]
    exact h.offset_ne hc hp hq (fun he => hna <| he ▸ ha) hpp (hm ha hn)

theorem update_spec (h : root.Partitioned) (hc : 0 < fc.size) :
    ∃ root', root.update fc t = some root' ∧ root'.chunk = root.chunk ∧
      Descending FreeChunkPiece.offset root'.pieces ∧
        ∀ n, n ∈ root'.pieces ↔ ∃ p ∈ root.pieces, n ∈ p.parts fc t := by
  refine ⟨_, update_eq h hc, rfl, (h.descending.sublist List.filter_sublist).insertAll, fun n => ?_⟩
  rw [(insertAll_perm (update_keys h hc)).mem_iff]
  simp only [List.mem_append, List.mem_filter, List.mem_flatMap, decide_eq_true_iff]
  constructor
  case mp =>
    rintro (⟨hn, hna⟩ | ⟨p, ⟨hp, hpa⟩, hn⟩)
    case inl => exact ⟨n, hn, by simp [parts, hna]⟩
    case inr => exact ⟨p, hp, by rwa [parts, if_pos hpa]⟩
  case mpr =>
    rintro ⟨p, hp, hn⟩
    rw [parts] at hn
    split at hn
    case isTrue hpa  => exact .inr ⟨p, ⟨hp, hpa⟩, hn⟩
    case isFalse hna =>
      obtain rfl := List.mem_singleton.mp hn
      exact .inl ⟨hp, hna⟩

-- The effect of the addresses that are free at slice time `t`.
structure Step (free : Set Int) (t : Nat) (root root' : FreeChunkRoot) : Prop where
  chunk_eq    : root'.chunk = root.chunk
  partitioned : root'.Partitioned
  moved       : ∀ x ∈ free, root.FreeSince x (t + 1) → root'.FreeSince x t
  kept        : ∀ x s, ¬(x ∈ free ∧ t + 1 = s) → root.FreeSince x s → root'.FreeSince x s

theorem update_step (h : root.Partitioned) (hc : 0 < fc.size) :
    ∃ root', root.update fc t = some root' ∧ Step {x | x ∈ fc} t root root' := by
  obtain ⟨root', hu, hr, hd, hm⟩ := update_spec (t := t) h hc
  have hf : ∀ x s, root.FreeSince x s → root'.FreeSince x (if x ∈ fc ∧ t + 1 = s then t else s) := by
    rintro x s ⟨p, hp, hx, rfl⟩
    obtain ⟨n, hn, hxn, hs⟩ := @exists_mem_parts fc t _ _ hx
    exact ⟨n, (hm n).mpr ⟨p, hp, hn⟩, hxn, hs⟩
  refine ⟨root', hu, hr, ⟨hr ▸ h.chunk_pos, hd, ?size_pos, ?covers, ?unique⟩, ?free, ?keeps⟩
  case size_pos =>
    intro n hn
    obtain ⟨p, hp, hn⟩ := (hm n).mp hn
    exact parts_size_pos hc (h.size_pos p hp) hn
  case covers =>
    intro x
    rw [hr, h.covers]
    constructor
    case mp =>
      rintro ⟨p, hp, hx⟩
      obtain ⟨n, hn, hxn, -⟩ := hf x _ ⟨p, hp, hx, rfl⟩
      exact ⟨n, hn, hxn⟩
    case mpr =>
      rintro ⟨n, hn, hx⟩
      obtain ⟨p, hp, hn⟩ := (hm n).mp hn
      exact ⟨p, hp, parts_subset hn hx⟩
  case unique =>
    intro n hn m hm' x hx hx'
    obtain ⟨p, hp, hn⟩ := (hm n).mp hn
    obtain ⟨q, hq, hm'⟩ := (hm m).mp hm'
    obtain rfl := h.unique p hp q hq x (parts_subset hn hx) (parts_subset hm' hx')
    exact parts_unique hc hn hm' hx hx'
  case free => exact fun x hx hs => by simpa [show x ∈ fc from hx] using hf x _ hs
  case keeps =>
    intro x s hn hs
    have hn : ¬(x ∈ fc ∧ t + 1 = s) := hn
    simpa only [if_neg hn] using hf x s hs

namespace Step

variable {free free' : Set Int} {root' root'' : FreeChunkRoot}

theorem refl (h : root.Partitioned) (hf : ∀ x ∈ root.chunk, x ∉ free) : Step free t root root where
  chunk_eq    := rfl
  partitioned := h
  moved       := fun x hx ⟨p, hp, hxp, _⟩ => absurd hx <| hf x <| (h.covers x).mpr ⟨p, hp, hxp⟩
  kept        := fun _ _ _ hs => hs

theorem trans (h : Step free t root root') (h' : Step free' t root' root'') :
    Step (free ∪ free') t root root'' where
  chunk_eq    := h'.chunk_eq.trans h.chunk_eq
  partitioned := h'.partitioned
  moved x hx hs := by
    by_cases hxf : x ∈ free
    case pos => exact h'.kept x t (by omega) (h.moved x hxf hs)
    case neg => exact h'.moved x (hx.resolve_left hxf) (h.kept x _ (fun hn => hxf hn.1) hs)
  kept x s hn hs := by
    apply h'.kept x s (fun hx => hn ⟨.inr hx.1, hx.2⟩)
    exact h.kept x s (fun hx => hn ⟨.inl hx.1, hx.2⟩) hs

end Step
end FreeChunkRoot
end HeapSimulator
