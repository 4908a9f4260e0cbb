import XlaModel.HeapSimulator.Theorems.SlicedAllocationFinder.Update

namespace HeapSimulator

open DescendingMap

namespace FreeChunks

-- The addresses in a list of free chunks.
def addresses (chunks : List (Int × Int)) : Set Int :=
  {x | ∃ p ∈ chunks, p.1 ≤ x ∧ x < p.2}

def FreeAt (chunks : List FreeChunks) (t : Nat) (x : Int) : Prop :=
  ∃ c, chunks[t]? = some c ∧ x ∈ addresses c.toList

-- The address is free from slice time `t` to the latest one.
def FreeFrom (chunks : List FreeChunks) (t : Nat) (x : Int) : Prop :=
  ∀ s, t ≤ s → s < chunks.length → FreeAt chunks s x

theorem addresses_cons {p : Int × Int} {chunks : List (Int × Int)} :
    addresses (p :: chunks) = {x | x ∈ Chunk.fromOffsetEnd p.1 p.2} ∪ addresses chunks := by
  ext x
  simp [addresses, Chunk.mem_def]

def single (offset : Int) (end_ : Int) (h : 0 ≤ offset ∧ offset ≤ end_) : FreeChunks where
  toList     := [(offset, end_)]
  descending := List.pairwise_singleton _ _
  nonneg     := by simpa
  disjoint   := List.pairwise_singleton _ _

end FreeChunks

namespace SlicedAllocationFinder

open FreeChunks FreeChunkRoot

variable {fc : Chunk} {t : Nat} {roots roots' it : List FreeChunkRoot} {chunks : List (Int × Int)}

-- The roots are disjoint and sorted by descending offsets.
def Separated (roots : List FreeChunkRoot) : Prop :=
  roots.Pairwise fun r s => s.chunk.chunkEnd ≤ r.chunk.offset

section Slice

abbrev Steps (free : Set Int) (t : Nat) (roots roots' : List FreeChunkRoot) : Prop :=
  List.Forall₂ (Step free t) roots roots'

theorem Steps.refl {free : Set Int} (h : ∀ r ∈ roots, r.Partitioned) (hf : ∀ r ∈ roots, ∀ x ∈ r.chunk, x ∉ free) :
    Steps free t roots roots :=
  List.forall₂_same.mpr fun r hr => .refl (h r hr) (hf r hr)

theorem Steps.trans {free free' : Set Int} {roots'' : List FreeChunkRoot} (h : Steps free t roots roots')
    (h' : Steps free' t roots' roots'') : Steps (free ∪ free') t roots roots'' := by
  induction h generalizing roots''
  case nil => cases h'; exact .nil
  case cons hr _ hi => cases h' with | cons hr' h' => exact .cons (hr.trans hr') (hi h')

theorem Steps.map_chunk {free : Set Int} (h : Steps free t roots roots') : roots'.map (·.chunk) = roots.map (·.chunk) := by
  induction h
  case nil => rfl
  case cons hr _ hi => rw [List.map_cons, List.map_cons, hi, hr.chunk_eq]

theorem Steps.partitioned {free : Set Int} (h : Steps free t roots roots') : ∀ r ∈ roots', r.Partitioned := by
  induction h
  case nil => simp
  case cons hr _ hi => exact List.forall_mem_cons.mpr ⟨hr.partitioned, hi⟩

theorem Steps.exists_of_mem {free : Set Int} (h : Steps free t roots roots') :
    ∀ r' ∈ roots', ∃ r ∈ roots, Step free t r r' := by
  induction h
  case nil => simp
  case cons hr _ hi =>
    intro s hs
    obtain rfl | hs := List.mem_cons.mp hs
    case inl => exact ⟨_, .head _, hr⟩
    case inr =>
      obtain ⟨r, hr, hst⟩ := hi s hs
      exact ⟨r, .tail _ hr, hst⟩

theorem separated_congr (h : roots'.map (·.chunk) = roots.map (·.chunk)) (hs : Separated roots) : Separated roots' := by
  have hm : (roots.map (·.chunk)).Pairwise fun c d => d.chunkEnd ≤ c.offset := List.pairwise_map.mpr hs
  exact List.pairwise_map.mp (h ▸ hm)

-- All roots before the last one that is updated lie after the free chunk.
theorem updateRoots_spec (hc : 0 < fc.size) (hp : ∀ r ∈ it, r.Partitioned) (hs : Separated it)
    (hb : ∀ r ∈ it, r.chunk.offset < fc.chunkEnd) :
    ∃ it' count, updateRoots t fc it = some (it', count) ∧ Steps {x | x ∈ fc} t it it' ∧ count ≤ it.length ∧
      (0 < count → ∃ r ∈ it, fc.offset < r.chunk.chunkEnd) ∧
        ∀ r ∈ it'.take (count - 1), fc.offset < r.chunk.offset := by
  induction it
  case nil => exact ⟨[], 0, rfl, .nil, le_rfl, by simp, by simp⟩
  case cons r it hi =>
    have ⟨hr, hpi⟩ := List.forall_mem_cons.mp hp
    have ⟨hrs, hsi⟩ := List.pairwise_cons.mp hs
    have ⟨hrb, hbi⟩ := List.forall_mem_cons.mp hb
    rw [updateRoots, Chunk.overlapsWith_eq hr.chunk_pos hc]
    by_cases ho : fc.offset < r.chunk.chunkEnd
    case pos =>
      obtain ⟨r', hu, hst⟩ := update_step (t := t) hr hc
      obtain ⟨it', count, he, hsts, hle, hex, hlt⟩ := hi hpi hsi hbi
      refine ⟨r' :: it', count + 1, ?iterate, .cons hst hsts, by simpa, fun _ => ⟨r, .head _, ho⟩, ?skipped⟩
      case iterate => simp [hrb, ho, hu, he]
      case skipped =>
        rw [Nat.add_sub_cancel]
        cases count
        case zero       => simp
        case succ count =>
          rw [List.take_succ_cons]
          apply List.forall_mem_cons.mpr ⟨?_, hlt⟩
          obtain ⟨s, hs, hlt⟩ := hex (Nat.succ_pos count)
          exact hlt.trans_le (hst.chunk_eq ▸ hrs s hs)
    case neg =>
      refine ⟨r :: it, 0, by simp [ho], .refl hp ?_, by simp, by simp, by simp⟩
      rintro s hs x hx ⟨hxl, -⟩
      rw [Chunk.mem_def] at hx
      obtain rfl | hs := List.mem_cons.mp hs
      case inl => omega
      case inr =>
        have hle := hrs s hs
        have hlt := Chunk.size_pos_iff.mp hr.chunk_pos
        omega

def skipped (fc : Chunk) (roots : List FreeChunkRoot) (n : Nat) : Nat :=
  n + ((roots.drop n).takeWhile (fc.chunkEnd - 1 < ·.chunk.offset)).length

section Skipped

variable {n : Nat}

theorem take_skipped : roots.take (skipped fc roots n) =
    roots.take n ++ (roots.drop n).takeWhile (fc.chunkEnd - 1 < ·.chunk.offset) := by
  rw [skipped, List.take_add, ←List.prefix_iff_eq_take.mp (List.takeWhile_prefix _)]

theorem skipped_le (hl : n ≤ roots.length) : skipped fc roots n ≤ roots.length := by
  have hle := (List.takeWhile_prefix (p := (fc.chunkEnd - 1 < ·.chunk.offset)) (l := roots.drop n)).length_le
  rw [List.length_drop] at hle
  rw [skipped]
  omega

theorem le_of_mem_take_skipped (hb : ∀ r ∈ roots.take n, fc.chunkEnd ≤ r.chunk.offset) :
    ∀ r ∈ roots.take (skipped fc roots n), fc.chunkEnd ≤ r.chunk.offset := by
  intro r hr
  rw [take_skipped] at hr
  obtain hr | hr := List.mem_append.mp hr
  case inl => exact hb r hr
  case inr => exact Int.le_of_sub_one_lt (by simpa using List.mem_takeWhile_imp hr)

theorem drop_skipped : roots.drop (skipped fc roots n) =
    (roots.drop n).dropWhile (fc.chunkEnd - 1 < ·.chunk.offset) := by
  rw [skipped, ←List.drop_drop]
  have h := List.takeWhile_append_dropWhile (p := (fc.chunkEnd - 1 < ·.chunk.offset)) (l := roots.drop n)
  exact (congrArg (List.drop _) h.symm).trans List.drop_left

theorem lt_of_mem_drop_skipped (hp : ∀ r ∈ roots, r.Partitioned) (hs : Separated roots) :
    ∀ r ∈ roots.drop (skipped fc roots n), r.chunk.offset < fc.chunkEnd := by
  have hsep : Separated (roots.drop (skipped fc roots n)) := hs.sublist (List.drop_sublist _ _)
  have hsub : roots.drop (skipped fc roots n) ⊆ roots := (List.drop_sublist _ _).subset
  rw [drop_skipped] at *
  cases hd : (roots.drop n).dropWhile (fc.chunkEnd - 1 < ·.chunk.offset)
  case nil => simp
  case cons r it =>
    rw [hd] at hsep hsub
    have hne : (roots.drop n).dropWhile (fc.chunkEnd - 1 < ·.chunk.offset) ≠ [] := hd ▸ List.cons_ne_nil r it
    have hr : r.chunk.offset < fc.chunkEnd := by
      have hh := List.head_dropWhile_not _ hne
      simp only [hd, List.head_cons, decide_eq_false_iff_not] at hh
      omega
    intro s hs
    obtain rfl | hs := List.mem_cons.mp hs
    case inl => exact hr
    have hle := (List.pairwise_cons.mp hsep).1 s hs
    have hpos := Chunk.size_pos_iff.mp (hp s <| hsub <| .tail _ hs).chunk_pos
    omega

end Skipped

-- The chunks that follow lie before the roots that have been left behind.
theorem sliceRoots_spec {n : Nat} (hp : ∀ r ∈ roots, r.Partitioned) (hs : Separated roots)
    (hn : ∀ c ∈ chunks, c.1 ≤ c.2) (hd : chunks.Pairwise fun c d => d.2 ≤ c.1) (hl : n ≤ roots.length)
    (hb : ∀ r ∈ roots.take n, ∀ c ∈ chunks, c.2 ≤ r.chunk.offset) :
    ∃ roots', sliceRoots t chunks n roots = some roots' ∧ Steps (addresses chunks) t roots roots' := by
  induction chunks generalizing n roots
  case nil => exact ⟨roots, rfl, .refl hp (by simp [addresses])⟩
  case cons c chunks hi =>
    have ⟨hc, hni⟩ := List.forall_mem_cons.mp hn
    have ⟨hcd, hdi⟩ := List.pairwise_cons.mp hd
    have hsz : (Chunk.fromOffsetEnd c.1 c.2).size = c.2 - c.1 := rfl
    have hend : (Chunk.fromOffsetEnd c.1 c.2).chunkEnd = c.2 := Chunk.chunkEnd_fromOffsetEnd
    rw [sliceRoots]
    dsimp only
    rw [addresses_cons]
    have hoff : (Chunk.fromOffsetEnd c.1 c.2).offset = c.1 := rfl
    generalize hfc : Chunk.fromOffsetEnd c.1 c.2 = fc at *
    rw [←skipped]
    have hlt := @le_of_mem_take_skipped fc roots n fun r hr => hend ▸ hb r hr c (.head _)
    have hgt := @lt_of_mem_drop_skipped fc roots n hp hs
    have hle := @skipped_le fc roots n hl
    generalize skipped fc roots n = m at *
    have hall : ∀ r ∈ roots.take m, ∀ d ∈ chunks, d.2 ≤ r.chunk.offset := by
      intro r hr d hd
      have h₁ := hlt r hr
      have h₂ := hcd d hd
      omega
    split_ifs with h₀ hpos hm
    case pos =>
      have he : {x | x ∈ fc} ∪ addresses chunks = addresses chunks := by
        apply Set.union_eq_self_of_subset_left
        intro x hx
        have hx := Chunk.mem_def.mp hx
        rw [Chunk.chunkEnd] at hx
        omega
      rw [he]
      exact hi hp hs hni hdi hl fun r hr d hd => hb r hr d (.tail _ hd)
    case pos =>
      refine ⟨roots, rfl, .refl hp ?_⟩
      intro r hr x hx hxf
      have hr : r ∈ roots.take m := by rwa [hm, List.take_length]
      rw [Chunk.mem_def] at hx
      obtain hxf | ⟨d, hd, hxd⟩ := hxf
      case inl => exact absurd (hlt r hr) (by have := Chunk.mem_def.mp hxf; omega)
      case inr => exact absurd (hall r hr d hd) (by omega)
    case neg =>
      have hsub : roots.drop m ⊆ roots := (List.drop_sublist _ _).subset
      have hsub' : roots.take m ⊆ roots := (List.take_sublist _ _).subset
      obtain ⟨it', count, hu, hst, hcl, -, hcb⟩ := updateRoots_spec (t := t) hpos (fun r hr => hp r (hsub hr))
        (hs.sublist (List.drop_sublist _ _)) hgt
      have hst' : Steps {x | x ∈ fc} t roots (roots.take m ++ it') := by
        have ht : Steps {x | x ∈ fc} t (roots.take m) (roots.take m) := by
          apply Steps.refl fun r hr => hp r (hsub' hr)
          intro r hr x hx hxf
          exact absurd (hlt r hr) (by have := Chunk.mem_def.mp hxf; have := Chunk.mem_def.mp hx; omega)
        simpa [Steps] using List.rel_append ht hst
      have hlen : (roots.take m).length = m := List.length_take_of_le hle
      have hlen' := hst.length_eq
      obtain ⟨roots', hr, hst''⟩ := hi (n := m + (count - 1)) hst'.partitioned (separated_congr hst'.map_chunk hs)
        hni hdi
        (by rw [List.length_append]; omega)
        (by
          intro r hr d hd
          rw [List.take_append, hlen, Nat.add_sub_cancel_left, List.take_of_length_le (by omega)] at hr
          obtain hr | hr := List.mem_append.mp hr
          case inl => exact hall r hr d hd
          case inr => exact (hcd d hd).trans (hoff ▸ (hcb r hr).le))
      exact ⟨roots', by simp [hu, hr], hst'.trans hst''⟩
    case neg => omega

end Slice

theorem initialRoots_eq (hd : Descending Prod.fst chunks) (hn : ∀ c ∈ chunks, c.1 ≤ c.2)
    (hb : ∀ r ∈ roots, ∀ c ∈ chunks, c.1 < r.offset) :
    initialRoots t chunks roots =
      some (roots ++ (chunks.filter fun c => c.1 < c.2).map fun c => .new (.fromOffsetEnd c.1 c.2) t) := by
  induction chunks generalizing roots
  case nil => simp [initialRoots]
  case cons c chunks hi =>
    have ⟨hc, hni⟩ := List.forall_mem_cons.mp hn
    have ⟨hcd, hdi⟩ := List.pairwise_cons.mp hd
    have hsz : (Chunk.fromOffsetEnd c.1 c.2).size = c.2 - c.1 := rfl
    rw [initialRoots]
    split_ifs with h₀ hpos
    case pos =>
      rw [hi hdi hni fun r hr d hd => hb r hr d (.tail _ hd), List.filter_cons_of_neg (by simp; omega)]
    case pos =>
      have hlt : ∀ r ∈ roots, (FreeChunkRoot.new (.fromOffsetEnd c.1 c.2) t).offset < r.offset :=
        fun r hr => hb r hr c (.head _)
      rw [insert_eq_concat hlt, hi hdi hni, List.filter_cons_of_pos (by simp; omega), List.map_cons,
        List.append_assoc, List.singleton_append]
      intro r hr d hd
      obtain hr | hr := List.mem_append.mp hr
      case inl => exact hb r hr d (.tail _ hd)
      case inr => exact List.mem_singleton.mp hr ▸ hcd d hd
    case neg => omega

section Times

variable {maps : List FreeChunks} {root root' : FreeChunkRoot} {x : Int} {s s' : Nat}

-- The state after the slice times from `t` on.
structure Sliced (maps : List FreeChunks) (t : Nat) (root : FreeChunkRoot) : Prop where
  partitioned : root.Partitioned
  least       : ∀ x s, root.FreeSince x s → IsLeast {u | t ≤ u ∧ FreeFrom maps u x} s

theorem FreeSince.eq (h : root.Partitioned) (hs : root.FreeSince x s) (hs' : root.FreeSince x s') : s = s' := by
  obtain ⟨p, hp, hx, rfl⟩ := hs
  obtain ⟨q, hq, hx', rfl⟩ := hs'
  rw [h.unique p hp q hq x hx hx']

theorem freeFrom_iff (ht : t < maps.length) : FreeFrom maps t x ↔ FreeAt maps t x ∧ FreeFrom maps (t + 1) x := by
  constructor
  case mp  => exact fun h => ⟨h t le_rfl ht, fun s hs => h s (by omega)⟩
  case mpr =>
    intro ⟨ha, h⟩ s hs hl
    obtain rfl | hs := hs.eq_or_lt
    case inl => exact ha
    case inr => exact h s hs hl

theorem Sliced.step {c : FreeChunks} (h : Sliced maps (t + 1) root) (hc : maps[t]? = some c)
    (hs : Step (addresses c.toList) t root root') : Sliced maps t root' where
  partitioned := hs.partitioned
  least x s' hs' := by
    have ht : t < maps.length := (List.getElem?_eq_some_iff.mp hc).1
    have ha : x ∈ addresses c.toList ↔ FreeAt maps t x := by simp [FreeAt, hc]
    have ⟨q, hq, hxq, _⟩ := hs'
    obtain ⟨p, hp, hxp⟩ := (h.partitioned.covers x).mp (hs.chunk_eq ▸ (hs.partitioned.covers x).mpr ⟨q, hq, hxq⟩)
    have ⟨⟨hle, hf⟩, hl⟩ := h.least x _ ⟨p, hp, hxp, rfl⟩
    by_cases hm : x ∈ addresses c.toList ∧ t + 1 = p.earliestFreeSliceTime
    case pos =>
      obtain rfl := FreeSince.eq hs.partitioned hs' (hs.moved x hm.1 ⟨p, hp, hxp, hm.2.symm⟩)
      exact ⟨⟨le_rfl, (freeFrom_iff ht).mpr ⟨ha.mp hm.1, hm.2 ▸ hf⟩⟩, fun u hu => hu.1⟩
    case neg =>
      obtain rfl := FreeSince.eq hs.partitioned hs' (hs.kept x _ hm ⟨p, hp, hxp, rfl⟩)
      refine ⟨⟨by omega, hf⟩, fun u ⟨hu, hfu⟩ => ?_⟩
      obtain rfl | hu := hu.eq_or_lt
      case inl =>
        -- Otherwise the piece would be free at slice time `t`, too.
        obtain ⟨hat, hft⟩ := (freeFrom_iff ht).mp hfu
        have hle' := hl ⟨le_rfl, hft⟩
        exact absurd ⟨ha.mpr hat, by omega⟩ hm
      case inr => exact hl ⟨hu, hfu⟩

theorem sliceTimes_spec (ht : t < maps.length) (h : ∀ r ∈ roots, Sliced maps t r) (hs : Separated roots) :
    ∃ roots', sliceTimes maps t roots = some roots' ∧ roots'.map (·.chunk) = roots.map (·.chunk) ∧
      ∀ r ∈ roots', Sliced maps 0 r := by
  induction t generalizing roots
  case zero => exact ⟨roots, rfl, rfl, h⟩
  case succ t hi =>
    obtain ⟨c, hc⟩ : ∃ c, maps[t]? = some c := ⟨_, List.getElem?_eq_getElem (by omega)⟩
    obtain ⟨roots', hr, hst⟩ := sliceRoots_spec (t := t) (n := 0) (fun r hr => (h r hr).partitioned) hs
      (fun p hp => (c.nonneg p hp).2) c.disjoint (Nat.zero_le _) (by simp)
    have hsl : ∀ r ∈ roots', Sliced maps t r := by
      intro r' hr'
      obtain ⟨r, hr, hstr⟩ := hst.exists_of_mem r' hr'
      exact (h r hr).step hc hstr
    obtain ⟨roots'', hr', hm, hz⟩ := hi (by omega) hsl (separated_congr hst.map_chunk hs)
    exact ⟨roots'', by simp [sliceTimes, hc, hr, hr'], hm.trans hst.map_chunk, hz⟩

theorem Sliced.new {p : Int × Int} (hne : maps ≠ []) (hp : p ∈ (maps.getLast hne).toList) (hlt : p.1 < p.2) :
    Sliced maps (maps.length - 1) (.new (.fromOffsetEnd p.1 p.2) (maps.length - 1)) where
  partitioned := .new (by simpa [Chunk.size_pos_iff])
  least x s hs := by
    obtain ⟨q, hq, hx, rfl⟩ := hs
    obtain rfl := List.mem_singleton.mp hq
    refine ⟨⟨le_rfl, fun u hu hul => ?_⟩, fun u hu => hu.1⟩
    obtain rfl : u = maps.length - 1 := le_antisymm (Nat.le_sub_one_of_lt hul) hu
    refine ⟨maps.getLast hne, ?_, p, hp, by simpa [Chunk.mem_def] using hx⟩
    rw [←List.getLast?_eq_getElem?, List.getLast?_eq_some_getLast hne]

theorem new_spec {request : SliceRequest} (hl : request.sortedSliceSizes.length = maps.length) (hne : maps ≠ []) :
    ∃ roots, SlicedAllocationFinder.new maps request =
        some { request with maxColocationSize := effectiveMaxColocationSize request, freeChunks := roots } ∧
      roots.map (·.chunk) =
        ((maps.getLast hne).toList.filter fun c => c.1 < c.2).map (fun c => .fromOffsetEnd c.1 c.2) ∧
      Separated roots ∧ ∀ root ∈ roots, Sliced maps 0 root := by
  let last := maps.getLast hne
  have hlen : 0 < maps.length := List.length_pos_of_ne_nil hne
  have hlast : latestSliceTime request = maps.length - 1 := by rw [latestSliceTime, hl]
  have hi := @initialRoots_eq (maps.length - 1) [] last.toList last.descending
    (fun c hc => (last.nonneg c hc).2) (by simp)
  rw [List.nil_append] at hi
  generalize hinit : (last.toList.filter fun c => c.1 < c.2).map
    (fun c => FreeChunkRoot.new (.fromOffsetEnd c.1 c.2) (maps.length - 1)) = init at hi
  have hsl : ∀ r ∈ init, Sliced maps (maps.length - 1) r := by
    intro r hr
    obtain ⟨c, hc, rfl⟩ := List.mem_map.mp (hinit ▸ hr)
    obtain ⟨hc, hlt⟩ := List.mem_filter.mp hc
    exact .new hne hc (of_decide_eq_true hlt)
  have hsep : Separated init := by
    rw [←hinit, Separated, List.pairwise_map]
    apply (last.disjoint.sublist List.filter_sublist).imp
    intro c d hd
    simpa [FreeChunkRoot.new] using hd
  obtain ⟨roots, hr, hm, hs⟩ := sliceTimes_spec (by omega) hsl hsep
  refine ⟨roots, ?new, ?chunks, separated_congr hm hsep, hs⟩
  case new => simp [SlicedAllocationFinder.new, guard, hl, List.getLast?_eq_some_getLast hne, hlast, last, hi, hr]
  case chunks =>
    rw [hm, ←hinit, List.map_map]
    rfl

theorem new_pieces {maps : List FreeChunks} {request : SliceRequest}
    (hl : request.sortedSliceSizes.length = maps.length) (hne : maps ≠ []) :
    ∃ finder, SlicedAllocationFinder.new maps request = some finder ∧
      finder.freeChunks.map (·.chunk) =
        ((maps.getLast hne).toList.filter fun c => c.1 < c.2).map (fun c => .fromOffsetEnd c.1 c.2) ∧
      ∀ root ∈ finder.freeChunks, root.Partitioned ∧ ∀ piece ∈ root.pieces, ∀ x ∈ piece.dimensions,
        IsLeast {t | FreeFrom maps t x} piece.earliestFreeSliceTime := by
  obtain ⟨roots, hr, hm, -, hs⟩ := new_spec hl hne
  refine ⟨_, hr, hm, fun root hroot => ?_⟩
  apply And.intro (hs root hroot).partitioned
  intro p hp x hx
  have hle := (hs root hroot).least x _ ⟨p, hp, hx, rfl⟩
  simpa using hle

-- Two slices of size 2, where [6,8) is free before [5,15).
def twoSlices : SliceRequest :=
  ⟨[2, 2], -1, -1, 1, [[0, 1]], fun _ => true, by decide, by decide, by decide⟩

def twoTimes : List FreeChunks :=
  [single 6 8 (by decide), single 5 15 (by decide)]

theorem new_pieces_twoTimes :
    ∃ finder, SlicedAllocationFinder.new twoTimes twoSlices = some finder ∧
      finder.freeChunks.map (·.chunk) = [.fromOffsetEnd 5 15] ∧
      ∀ root ∈ finder.freeChunks, root.Partitioned ∧ ∀ piece ∈ root.pieces, ∀ x ∈ piece.dimensions,
        IsLeast {t | FreeFrom twoTimes t x} piece.earliestFreeSliceTime :=
  new_pieces rfl (List.cons_ne_nil _ _)

end Times
end SlicedAllocationFinder
end HeapSimulator
