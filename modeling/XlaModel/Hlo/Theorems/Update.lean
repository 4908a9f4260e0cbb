import XlaModel.Hlo.Theorems.Build
import XlaModel.Hlo.Theorems.ReachabilityMap

namespace Hlo.HloReachabilityMap

open Relation HloComputation BitSet Fallible

variable {c : HloComputation} {m : HloReachabilityMap} {nodes ds : List Nat} {index : Nat → Nat} {x p : Nat}

namespace UpdateMultiple

variable {s s' : State} {toUpdate : List (Nat × List Nat)} {words : Nat}

theorem foldlM_orUpdate (h : Indexes m nodes index) (hx : x ∈ nodes) (hd : ∀ d ∈ ds, d ∈ nodes) (hn : x ∉ ds)
    (changed : Bool) : Yields (ds.foldlM (orUpdate (index x)) (m, changed)) fun r =>
      ds.foldlM (orBitSet (index x)) m = some r.1 ∧
      (r.2 = true ↔ changed = true ∨ ∃ a, r.1.bit a (index x) = true ∧ m.bit a (index x) = false) := by
  induction ds generalizing m changed
  case nil => exact .pure ⟨rfl, by simp⟩
  case cons d ds hi =>
    have hdn := hd d (.head _)
    have hds : ∀ d ∈ ds, d ∈ nodes := fun d hd' => hd d (.tail _ hd')
    have hns : x ∉ ds := fun hx => hn (.tail _ hx)
    have hl : (m.bitSetFromIndex (index x)).words.length = (m.bitSetFromIndex (index d)).words.length :=
      h.length_bitSet.trans h.length_bitSet.symm
    have ho : orBitSet (index x) m d =
        some (m.setBitSet (index x) ((m.bitSetFromIndex (index x)).or (m.bitSetFromIndex (index d)))) := by
      rw [orBitSet, h.getIndex d hdn]
      rfl
    have hdn' : ∀ e ∈ [d], e ∈ nodes := by simpa using hdn
    obtain ⟨m₁, hm₁, hi₁, _, _, hb₁⟩ := foldlM_orBitSet h hx hdn' fun hx => hn (List.mem_singleton.mp hx ▸ .head _)
    rw [List.foldlM_cons, ho] at hm₁
    obtain rfl := Option.some.inj hm₁
    obtain ⟨m₂, hm₂, _, _, _, hb₂⟩ := foldlM_orBitSet hi₁ hx hds hns
    have hs : orUpdate (index x) (m, changed) d = some
        (m.setBitSet (index x) ((m.bitSetFromIndex (index x)).or (m.bitSetFromIndex (index d))),
          changed || ((m.bitSetFromIndex (index x)).orUpdate (m.bitSetFromIndex (index d))).2) := by
      rw [orUpdate, h.getIndex d hdn]
      rfl
    rw [List.foldlM_cons, hs, List.foldlM_cons, ho]
    refine .imp (hi hi₁ hds hns _) ?_
    rintro ⟨m', changed'⟩ ⟨hm', hc⟩
    refine ⟨hm', ?_⟩
    obtain rfl : m₂ = m' := Option.some.inj (hm₂.symm.trans hm')
    rw [hc, Bool.or_eq_true, orUpdate_changed hl, or_assoc]
    refine or_congr_right ?_
    constructor
    · rintro (⟨a, ha, hf⟩ | ⟨a, ha, hf⟩)
      case inl =>
        refine ⟨a, (hb₂ a).mpr (.inl ((hb₁ a).mpr (.inr ⟨d, .head _, ha⟩))), hf⟩
      case inr =>
        refine ⟨a, ha, ?_⟩
        by_contra ht
        have := (hb₁ a).mpr (.inl (by simpa using ht))
        simp [hf] at this
    · rintro ⟨a, ha, hf⟩
      by_cases had : (m.bitSetFromIndex (index d)).get a = true
      case pos => exact .inl ⟨a, had, hf⟩
      case neg =>
        refine .inr ⟨a, ha, ?_⟩
        by_contra ht
        obtain h | ⟨e, he, h⟩ := (hb₁ a).mp (by simpa using ht)
        case inl => simp [hf] at h
        case inr => exact had (List.mem_singleton.mp he ▸ h)

-- The row of `p` has yet to be added to the row of `x`.
def Pending (toUpdate : List (Nat × List Nat)) (x p : Nat) : Prop :=
  ∃ entry ∈ toUpdate, entry.1 = x ∧ p ∈ entry.2

section Insert

variable {user instruction : Nat} {users : List Nat}

theorem pending_cons {entry : Nat × List Nat} :
    Pending (entry :: toUpdate) x p ↔ (entry.1 = x ∧ p ∈ entry.2) ∨ Pending toUpdate x p := by
  simp [Pending]

theorem pending_insert :
    Pending (insert toUpdate user instruction) x p ↔ Pending toUpdate x p ∨ (x = user ∧ p = instruction) := by
  induction toUpdate
  case nil => simp [insert, Pending, eq_comm]
  case cons entry toUpdate hi =>
    obtain ⟨y, ops⟩ := entry
    rw [insert]
    split
    case isTrue hy =>
      subst hy
      rw [pending_cons, pending_cons]
      by_cases hm : instruction ∈ ops
      case pos =>
        simp only [hm, if_true]
        constructor
        · exact .inl
        · rintro (h | ⟨rfl, rfl⟩)
          case inl => exact h
          case inr => exact .inl ⟨rfl, hm⟩
      case neg =>
        simp only [hm, if_false, List.mem_cons]
        constructor
        · rintro (⟨rfl, rfl | h⟩ | h)
          case inl.inl => exact .inr ⟨rfl, rfl⟩
          case inl.inr => exact .inl (.inl ⟨rfl, h⟩)
          case inr     => exact .inl (.inr h)
        · rintro ((⟨rfl, h⟩ | h) | ⟨rfl, rfl⟩)
          case inl.inl => exact .inl ⟨rfl, .inr h⟩
          case inl.inr => exact .inr h
          case inr     => exact .inl ⟨rfl, .inl rfl⟩
    case isFalse => rw [pending_cons, pending_cons, hi, or_assoc]

theorem mem_insert {entry : Nat × List Nat} (h : entry ∈ insert toUpdate user instruction) :
    entry.1 = user ∨ ∃ entry' ∈ toUpdate, entry'.1 = entry.1 := by
  induction toUpdate
  case nil =>
    rw [insert, List.mem_singleton] at h
    exact .inl (h ▸ rfl)
  case cons first toUpdate hi =>
    obtain ⟨y, ops⟩ := first
    rw [insert] at h
    split at h
    case isTrue hy =>
      obtain rfl | h := List.mem_cons.mp h
      case inl => exact .inl hy
      case inr => exact .inr ⟨entry, .tail _ h, rfl⟩
    case isFalse hy =>
      obtain rfl | h := List.mem_cons.mp h
      case inl => exact .inr ⟨_, .head _, rfl⟩
      case inr =>
        refine (hi h).imp_right ?_
        rintro ⟨entry', he, heq⟩
        exact ⟨entry', .tail _ he, heq⟩

theorem pending_foldl_insert : Pending (users.foldl (insert · · instruction) toUpdate) x p ↔
    Pending toUpdate x p ∨ (x ∈ users ∧ p = instruction) := by
  induction users generalizing toUpdate
  case nil => simp
  case cons user users hi =>
    rw [List.foldl_cons, hi, pending_insert, List.mem_cons, or_and_right, or_assoc]

theorem mem_foldl_insert {entry : Nat × List Nat} (h : entry ∈ users.foldl (insert · · instruction) toUpdate) :
    entry.1 ∈ users ∨ ∃ entry' ∈ toUpdate, entry'.1 = entry.1 := by
  induction users generalizing toUpdate
  case nil => exact .inr ⟨entry, h, rfl⟩
  case cons user users hi =>
    obtain h | ⟨entry', h, he⟩ := hi h
    case inl => exact .inl (.tail _ h)
    case inr =>
      obtain h | ⟨entry'', h, he'⟩ := mem_insert h
      case inl => exact .inl (by rw [← he, h]; exact .head _)
      case inr => exact .inr ⟨entry'', h, he'.trans he⟩

end Insert

-- A row never has too many bits, and it lacks bits of a predecessor only if the predecessor is pending.
structure Inv (c : HloComputation) (index : Nat → Nat) (words : Nat) (s : State) : Prop where
  indexes : Indexes s.map c.instructions index
  words   : s.map.wordsPerBitset = words
  sound   : ∀ x ∈ c.instructions, ∀ a ∈ c.instructions,
    s.map.bit (index a) (index x) = true → ReflTransGen c.Edge a x
  self    : ∀ x ∈ c.instructions, s.map.bit (index x) (index x) = true
  edge    : ∀ {p x}, c.Edge p x → (∀ a ∈ c.instructions, s.map.bit (index a) (index p) = true →
    s.map.bit (index a) (index x) = true) ∨ Pending s.toUpdate x p
  mem     : ∀ entry ∈ s.toUpdate, entry.1 ∈ c.instructions
  pending : ∀ {x p}, Pending s.toUpdate x p → c.Edge p x

def unset (c : HloComputation) (index : Nat → Nat) (words : Nat) (m : HloReachabilityMap) : Finset (Nat × Nat) :=
  (Finset.range (64 * words) ×ˢ (c.instructions.map index).toFinset).filter fun (a, i) => m.bit a i = false

def rank (c : HloComputation) (index : Nat → Nat) (words : Nat) (s : State) : Nat ×ₗ Nat :=
  toLex ((unset c index words s.map).card, s.toUpdate.length)

theorem mem_unset {a i : Nat} : (a, i) ∈ unset c index words m ↔
    a < 64 * words ∧ (∃ x ∈ c.instructions, index x = i) ∧ m.bit a i = false := by
  simp [unset, and_assoc]

section Process

variable {before after : List (Nat × List Nat)} {operands operands' : List Nat} {m' : HloReachabilityMap} {a y : Nat}

theorem pending_middle (hp : operands'.Perm operands) : Pending (before ++ (x, operands) :: after) y p ↔
    (y = x ∧ p ∈ operands') ∨ Pending (before ++ after) y p := by
  simp only [Pending, List.mem_append, List.mem_cons, hp.mem_iff]
  constructor
  · rintro ⟨e, he | rfl | he, hy⟩
    case inl     => exact .inr ⟨e, .inl he, hy⟩
    case inr.inl => exact .inl ⟨hy.1.symm, hy.2⟩
    case inr.inr => exact .inr ⟨e, .inr he, hy⟩
  · rintro (⟨rfl, hm⟩ | ⟨e, he, hy⟩)
    case inl => exact ⟨_, .inr (.inl rfl), rfl, hm⟩
    case inr => exact ⟨e, he.imp_right .inr, hy⟩

theorem pending_successors (hc : c.Valid) (hx : x ∈ c.instructions) :
    Pending ((c.controlSuccessors x).foldl (insert · · x) ((c.users x).foldl (insert · · x) toUpdate)) y p ↔
      Pending toUpdate y p ∨ (c.Edge x y ∧ p = x) := by
  rw [pending_foldl_insert, pending_foldl_insert, ← hc.mem_successors hx, List.mem_append, or_and_right, or_assoc]

-- The rows of the operands have been added to the row of `x`.
structure Merged (c : HloComputation) (index : Nat → Nat) (x : Nat) (operands : List Nat)
    (m m' : HloReachabilityMap) : Prop where
  indexes : Indexes m' c.instructions index
  words   : m'.wordsPerBitset = m.wordsPerBitset
  other   : ∀ y ∈ c.instructions, y ≠ x → ∀ a, m'.bit a (index y) = m.bit a (index y)
  row     : ∀ a, m'.bit a (index x) = true ↔
    m.bit a (index x) = true ∨ ∃ d ∈ operands, m.bit a (index d) = true

namespace Merged

variable (hm : Merged c index x operands m m')
include hm

theorem mono (hy : y ∈ c.instructions) (ha : m.bit a (index y) = true) : m'.bit a (index y) = true := by
  by_cases hyx : y = x
  case pos => exact hyx ▸ (hm.row a).mpr (.inl (hyx ▸ ha))
  case neg => rwa [hm.other y hy hyx]

theorem unset_subset : unset c index words m' ⊆ unset c index words m := by
  rintro ⟨a, i⟩ ha
  obtain ⟨hl, ⟨y, hy, rfl⟩, hf⟩ := mem_unset.mp ha
  refine mem_unset.mpr ⟨hl, ⟨y, hy, rfl⟩, ?_⟩
  by_contra ht
  simp [hm.mono hy (by simpa using ht)] at hf

theorem unset_ssubset (hx : x ∈ c.instructions) (ha : m'.bit a (index x) = true) (hf : m.bit a (index x) = false) :
    unset c index m.wordsPerBitset m' ⊂ unset c index m.wordsPerBitset m := by
  have hl : a < 64 * m.wordsPerBitset := by
    have hlt := get_lt ha
    rwa [hm.indexes.length_bitSet, hm.words] at hlt
  refine (Finset.ssubset_iff_of_subset hm.unset_subset).mpr ⟨(a, index x), mem_unset.mpr ⟨hl, ⟨x, hx, rfl⟩, hf⟩, ?_⟩
  intro hmem
  have hf := (mem_unset.mp hmem).2.2
  simp [ha] at hf

end Merged

section Step

variable (hc : c.Valid) (h : Inv c index words ⟨m, before ++ (x, operands) :: after⟩) (hp : operands'.Perm operands)
  (hm : Merged c index x operands' m m')

include h

theorem Inv.mem_first : x ∈ c.instructions :=
  h.mem (x, operands) (by simp)

theorem Inv.mem_rest : ∀ entry ∈ before ++ after, entry.1 ∈ c.instructions := by
  intro e he
  refine h.mem e ?_
  simp only [List.mem_append, List.mem_cons] at he ⊢
  exact he.imp_right .inr

include hp

theorem Inv.edge_operand {d : Nat} (hd : d ∈ operands') : c.Edge d x :=
  h.pending ((pending_middle hp).mpr (.inl ⟨rfl, hd⟩))

include hc

-- The row of `x` is computed if `x` is not one of its operands.
theorem Inv.process_spec : Yields (process c m x operands' (before ++ after)) fun s' =>
    Merged c index x operands' m s'.map ∧
      ((∀ a, s'.map.bit a (index x) = m.bit a (index x)) ∧ s'.toUpdate = before ++ after ∨
        (∃ a, s'.map.bit a (index x) = true ∧ m.bit a (index x) = false) ∧
          s'.toUpdate = (c.controlSuccessors x).foldl (insert · · x)
            ((c.users x).foldl (insert · · x) (before ++ after))) := by
  have hx := h.mem_first
  have hop : ∀ d ∈ operands', d ∈ c.instructions := fun d hd => hc.mem (h.edge_operand hp hd)
  have hnx : x ∉ operands' := fun hm => hc.acyclic x (.single (h.edge_operand hp hm))
  obtain ⟨⟨m', changed⟩, hf, hm', hch⟩ := foldlM_orUpdate h.indexes hx hop hnx false
  obtain ⟨m'', hm'', hi, hw, hj, hb⟩ := foldlM_orBitSet h.indexes hx hop hnx
  obtain rfl : m'' = m' := Option.some.inj (hm''.symm.trans hm')
  have hmerged : Merged c index x operands' m m'' := by
    refine ⟨hi, hw, fun y hy hne a => ?_, hb⟩
    rw [bit, bit, hj _ fun he => hne (h.indexes.inj y hy x hx he)]
  have hproc : process c m x operands' (before ++ after) =
      if changed then some ⟨m'', (c.controlSuccessors x).foldl (insert · · x)
        ((c.users x).foldl (insert · · x) (before ++ after))⟩
      else some ⟨m'', before ++ after⟩ := by
    rw [process, h.indexes.getIndex x hx, Option.bind_eq_bind, Option.bind_some, hf]
    rfl
  rw [hproc]
  cases changed
  case false =>
    refine .pure ⟨hmerged, .inl ⟨fun a => ?_, rfl⟩⟩
    have hn := hch.not.mp (by simp)
    simp only [not_or, not_exists, not_and, Bool.not_eq_false] at hn
    exact Bool.eq_iff_iff.mpr ⟨hn.2 a, fun ht => (hb a).mpr (.inl ht)⟩
  case true =>
    have hset := (hch.mp rfl).resolve_left Bool.false_ne_true
    exact .pure ⟨hmerged, .inr ⟨hset, rfl⟩⟩

include hm

theorem Inv.sound_merged : ∀ y ∈ c.instructions, ∀ a ∈ c.instructions, m'.bit (index a) (index y) = true →
    ReflTransGen c.Edge a y := by
  intro y hy a ha hbt
  by_cases hyx : y = x
  case neg => exact h.sound y hy a ha (by rwa [hm.other y hy hyx] at hbt)
  case pos =>
    subst hyx
    obtain hbt | ⟨d, hd, hbt⟩ := (hm.row _).mp hbt
    case inl => exact h.sound y hy a ha hbt
    case inr =>
      have he := h.edge_operand hp hd
      exact (h.sound d (hc.mem he) a ha hbt).tail he

-- The edges that leave the instruction are looked at separately.
theorem Inv.edge_merged (he : c.Edge p y) (hpx : p = x → ∀ a, m'.bit a (index x) = m.bit a (index x)) :
    (∀ a ∈ c.instructions, m'.bit (index a) (index p) = true → m'.bit (index a) (index y) = true) ∨
      Pending (before ++ after) y p := by
  have hpb : ∀ a, m'.bit a (index p) = m.bit a (index p) := by
    intro a
    by_cases hpx' : p = x
    case pos => exact hpx' ▸ hpx hpx' a
    case neg => exact hm.other p (hc.mem he) hpx' a
  obtain hs | hpd := h.edge he
  case inl => exact .inl fun a ha hbt => hm.mono he.1 (hs a ha (by rwa [hpb] at hbt))
  case inr =>
    obtain ⟨rfl, hmem⟩ | hpd := (pending_middle hp).mp hpd
    case inl => exact .inl fun a ha hbt => (hm.row _).mpr (.inr ⟨p, hmem, by rwa [hpb] at hbt⟩)
    case inr => exact .inr hpd

theorem Inv.unchanged (hs : ∀ a, m'.bit a (index x) = m.bit a (index x)) :
    Inv c index words ⟨m', before ++ after⟩ where
  indexes     := hm.indexes
  words       := hm.words.trans h.words
  sound       := h.sound_merged hc hp hm
  self y hy   := hm.mono hy (h.self y hy)
  edge he     := h.edge_merged hc hp hm he fun _ => hs
  mem         := h.mem_rest
  pending hpd := h.pending ((pending_middle hp).mpr (.inr hpd))

-- The successors of the instruction have to be updated, too.
theorem Inv.changed : Inv c index words ⟨m', (c.controlSuccessors x).foldl (insert · · x)
    ((c.users x).foldl (insert · · x) (before ++ after))⟩ where
  indexes   := hm.indexes
  words     := hm.words.trans h.words
  sound     := h.sound_merged hc hp hm
  self y hy := hm.mono hy (h.self y hy)
  edge := by
    intro p y he
    simp only [pending_successors hc h.mem_first]
    by_cases hpx : p = x
    case pos => exact .inr (.inr ⟨hpx ▸ he, hpx⟩)
    case neg => exact (h.edge_merged hc hp hm he fun h => absurd h hpx).imp_right .inl
  mem := by
    intro e he
    have hsucc : ∀ y, y ∈ c.users x ∨ y ∈ c.controlSuccessors x → y ∈ c.instructions :=
      fun y hy => ((hc.mem_successors h.mem_first).mp (List.mem_append.mpr hy)).1
    obtain he | ⟨e', he', heq⟩ := mem_foldl_insert he
    case inl => exact hsucc _ (.inr he)
    case inr =>
      obtain he' | ⟨e'', he'', heq'⟩ := mem_foldl_insert he'
      case inl => exact heq ▸ hsucc _ (.inl he')
      case inr => exact heq ▸ heq' ▸ h.mem_rest e'' he''
  pending := by
    intro y p hpd
    obtain hpd | ⟨he, rfl⟩ := (pending_successors hc h.mem_first).mp hpd
    case inl => exact h.pending ((pending_middle hp).mpr (.inr hpd))
    case inr => exact he

end Step

-- The bits that are set are never reset. If none is set, then the work map gets smaller.
theorem Inv.process (hc : c.Valid) (h : Inv c index words ⟨m, before ++ (x, operands) :: after⟩)
    (hp : operands'.Perm operands) : Yields (process c m x operands' (before ++ after)) fun s' =>
      Inv c index words s' ∧ rank c index words s' < rank c index words ⟨m, before ++ (x, operands) :: after⟩ := by
  refine (h.process_spec hc hp).imp ?_
  rintro ⟨m', toUpdate⟩ ⟨hm, ⟨hs, rfl⟩ | ⟨⟨a, ha, hf⟩, rfl⟩⟩
  case inl =>
    refine ⟨h.unchanged hc hp hm hs, ?_⟩
    rw [rank, rank, Prod.Lex.toLex_lt_toLex']
    exact ⟨Finset.card_le_card hm.unset_subset, fun _ => by simp⟩
  case inr =>
    refine ⟨h.changed hc hp hm, ?_⟩
    rw [rank, rank, Prod.Lex.toLex_lt_toLex]
    exact .inl (Finset.card_lt_card (h.words ▸ hm.unset_ssubset h.mem_first ha hf))

end Process

theorem Inv.exact (hc : c.Valid) (h : Inv c index words s) (hw : s.toUpdate = []) : Exact c s.map index := by
  refine ⟨h.indexes, fun x hx a ha => ⟨h.sound x hx a ha, fun hr => ?_⟩⟩
  induction hr
  case refl => exact h.self a ha
  case tail p x hap he hi =>
    obtain hs | ⟨entry, hm, _⟩ := h.edge he
    case inl => exact hs a ha (hi (hc.mem he))
    case inr => simp [hw] at hm

-- The steps that are not stuck.
def Next (c : HloComputation) (s s' : State) : Prop :=
  Step c s (some s')

theorem Inv.step {r : Option State} (hc : c.Valid) (h : Inv c index words s) (hs : Step c s r) :
    ∃ s', r = some s' ∧ Inv c index words s' ∧ rank c index words s' < rank c index words s := by
  obtain ⟨hp⟩ := hs
  exact h.process hc hp

theorem Inv.run (hc : c.Valid) (h : Inv c index words s) (hs : ReflTransGen (Next c) s s') :
    Inv c index words s' := by
  induction hs
  case refl => exact h
  case tail s₁ s₂ _ hs hi =>
    obtain ⟨_, heq, hi, _⟩ := hi.step hc hs
    exact Option.some.inj heq ▸ hi

theorem Inv.terminates (hc : c.Valid) (h : Inv c index words s) : Acc (fun s' s => Next c s s') s := by
  generalize hr : rank c index words s = r
  induction r using WellFoundedLT.induction generalizing s
  case ind r hi =>
    subst hr
    refine ⟨s, fun s' hs => ?_⟩
    obtain ⟨_, heq, h', hlt⟩ := h.step hc hs
    obtain rfl := Option.some.inj heq
    exact hi _ hlt h' rfl

theorem exists_step (h : s.toUpdate ≠ []) : ∃ r, Step c s r := by
  obtain ⟨map, toUpdate⟩ := s
  cases toUpdate
  case nil => exact absurd rfl h
  case cons entry rest =>
    have hs : Step c ⟨map, [] ++ entry :: rest⟩ (process c map entry.1 entry.2 ([] ++ rest)) := .intro (.refl _)
    exact ⟨_, hs⟩

end UpdateMultiple
end Hlo.HloReachabilityMap

namespace Hlo
namespace HloReachabilityMap

open Relation HloComputation

variable {c : HloComputation} {m : HloReachabilityMap} {index : Nat → Nat} {instruction : Nat}

namespace UpdateThroughInstruction

variable {s s' : State} {item x : Nat} {w : Nat → Nat}

-- Only the rows of instructions in the worklist may be out of date.
structure Inv (c : HloComputation) (index : Nat → Nat) (instruction : Nat) (s : State) : Prop where
  indexes  : Indexes s.map c.instructions index
  equation : ∀ x ∈ c.instructions, Equation c s.map index x ∨ x ∈ s.worklist
  mem      : ∀ x ∈ s.worklist, x ∈ c.instructions ∧ TransGen c.Edge instruction x
  count    : ∀ x, x ≠ instruction → s.inWorklist x = s.worklist.count x

theorem foldl_push (xs : List Nat) (s : State) :
    (xs.foldl push s).map = s.map ∧ (xs.foldl push s).worklist = s.worklist ++ xs ∧
      ∀ x, (xs.foldl push s).inWorklist x = s.inWorklist x + xs.count x := by
  induction xs generalizing s
  case nil => simp
  case cons y xs hi =>
    obtain ⟨hm, hw, hc⟩ := hi (push s y)
    refine ⟨hm, by rw [List.foldl_cons, hw, push, List.append_assoc]; rfl, fun x => ?_⟩
    rw [List.foldl_cons, hc, push, List.count_cons]
    by_cases hxy : y = x
    case pos =>
      subst hxy
      simp
      ring
    case neg =>
      have hyx : x ≠ y := Ne.symm hxy
      simp [hxy, hyx]

-- The predecessors of an instruction are read after the rows have been updated.
theorem process_spec (hc : c.Valid) (hi : Indexes s.map c.instructions index) (hx : item ∈ c.instructions) :
    ∃ s', process c s item = some s' ∧ Indexes s'.map c.instructions index ∧ Equation c s'.map index item ∧
      ((s'.map.bitSetFromIndex (index item) = s.map.bitSetFromIndex (index item) ∧
          s'.worklist = s.worklist ∧ s'.inWorklist = s.inWorklist) ∨
        (s'.worklist = s.worklist ++ (c.users item ++ c.controlSuccessors item) ∧
          ∀ x, s'.inWorklist x = s.inWorklist x + (c.users item ++ c.controlSuccessors item).count x)) ∧
      ∀ j, j ≠ index item → s'.map.bitSetFromIndex j = s.map.bitSetFromIndex j := by
  have hp : ∀ p ∈ c.operands item ++ c.controlPredecessors item, p ∈ c.instructions :=
    fun p hp => hc.mem ((HloComputation.mem_predecessors hx).mp hp)
  have hn : item ∉ c.operands item ++ c.controlPredecessors item :=
    fun hm => hc.acyclic item (.single ((HloComputation.mem_predecessors hx).mp hm))
  obtain ⟨m', changed, hu, hi', hj, hb, hch⟩ := setReachabilityToUnion_spec hi hx hp hn
  have heq : Equation c m' index item := by
    intro a ha
    rw [hb]
    refine or_congr ⟨fun h => hi.inj a ha item hx h, fun h => h ▸ rfl⟩ (exists_congr fun p => ?_)
    rw [HloComputation.mem_predecessors hx]
    refine and_congr_right fun he => ?_
    have hne : index p ≠ index item := by
      intro h
      obtain rfl := hi.inj p (hc.mem he) item hx h
      exact hc.acyclic p (.single he)
    rw [bit, bit, hj _ hne]
  rw [process, hu]
  cases changed
  case false => exact ⟨{ s with map := m' }, rfl, hi', heq, .inl ⟨hch rfl, rfl, rfl⟩, hj⟩
  case true =>
    obtain ⟨hm₁, hw₁, hc₁⟩ := foldl_push (c.users item) { s with map := m' }
    obtain ⟨hm₂, hw₂, hc₂⟩ := foldl_push (c.controlSuccessors item) ((c.users item).foldl push { s with map := m' })
    refine ⟨_, rfl, ?_, ?_, .inr ⟨?_, fun x => ?_⟩, ?_⟩
    · rwa [hm₂, hm₁]
    · rwa [hm₂, hm₁]
    · rw [hw₂, hw₁, List.append_assoc]
    · rw [hc₂, hc₁, List.count_append]
      push_cast
      ring
    · rwa [hm₂, hm₁]

theorem Inv.of_process (hc : c.Valid) (hi : Indexes s.map c.instructions index)
    (he : ∀ x ∈ c.instructions, Equation c s.map index x ∨ x ∈ s.worklist ∨ x = item)
    (hm : ∀ x ∈ s.worklist, x ∈ c.instructions ∧ TransGen c.Edge instruction x)
    (hcount : ∀ x, x ≠ instruction → s.inWorklist x = s.worklist.count x)
    (hx : item ∈ c.instructions) (hr : ReflTransGen c.Edge instruction item)
    (hw : ∀ x ∈ c.instructions, w x = 1 + ((c.users x ++ c.controlSuccessors x).map w).sum) :
    ∃ s', process c s item = some s' ∧ Inv c index instruction s' ∧
      (s'.worklist.map w).sum < (s.worklist.map w).sum + w item := by
  obtain ⟨s', hp, hi', heq, hcase, hj⟩ := process_spec hc hi hx
  have hkeep : ∀ x ∈ c.instructions, x ≠ item → Equation c s.map index x → (¬c.Edge item x ∨
      s'.map.bitSetFromIndex (index item) = s.map.bitSetFromIndex (index item)) → Equation c s'.map index x := by
    intro x hx' hne hs hcond a ha
    have hbit (p : Nat) (hp : p ∈ c.instructions) (hpe : c.Edge p x ∨ p = x) :
        s'.map.bit (index a) (index p) = s.map.bit (index a) (index p) := by
      by_cases hpi : p = item
      case neg => rw [bit, bit, hj _ fun h => hpi (hi.inj p hp item hx h)]
      case pos =>
        subst hpi
        obtain hpe | rfl := hpe
        case inl => rw [bit, bit, hcond.resolve_left (not_not.mpr hpe)]
        case inr => exact absurd rfl hne
    rw [hbit x hx' (.inr rfl), hs a ha]
    refine or_congr_right (exists_congr fun p => and_congr_right fun he => ?_)
    rw [hbit p (hc.mem he) (.inl he)]
  obtain ⟨hsame, hwl, hcn⟩ | ⟨hwl, hcn⟩ := hcase
  case inl =>
    refine ⟨s', hp, ⟨hi', fun x hx' => ?_, by rwa [hwl], by rwa [hcn, hwl]⟩, ?_⟩
    · obtain h | h | rfl := he x hx'
      case inl =>
        by_cases hne : x = item
        case pos => exact .inl (hne ▸ heq)
        case neg => exact .inl (hkeep x hx' hne h (.inr hsame))
      case inr.inl => exact .inr (hwl ▸ h)
      case inr.inr => exact .inl heq
    · rw [hwl, hw item hx]
      omega
  case inr =>
    refine ⟨s', hp, ⟨hi', fun x hx' => ?_, fun x hx' => ?_, fun x hne => ?_⟩, ?_⟩
    · obtain h | h | rfl := he x hx'
      case inl =>
        by_cases hne : x = item
        case pos => exact .inl (hne ▸ heq)
        case neg =>
          by_cases hedge : c.Edge item x
          case pos => exact .inr (hwl ▸ List.mem_append_right _ ((hc.mem_successors hx).mpr hedge))
          case neg => exact .inl (hkeep x hx' hne h (.inl hedge))
      case inr.inl => exact .inr (hwl ▸ List.mem_append_left _ h)
      case inr.inr => exact .inl heq
    · rw [hwl, List.mem_append] at hx'
      obtain hx' | hx' := hx'
      case inl => exact hm x hx'
      case inr =>
        have hedge := (hc.mem_successors hx).mp hx'
        exact ⟨hedge.1, TransGen.tail' hr hedge⟩
    · rw [hcn, hcount x hne, hwl]
      push_cast [List.count_append]
      rfl
    · rw [hwl, List.map_append, List.sum_append, hw item hx]
      omega

-- The weights of the instructions in the worklist are the fuel that is needed.
theorem Inv.loop (hc : c.Valid) (h : Inv c index instruction s)
    (hw : ∀ x ∈ c.instructions, w x = 1 + ((c.users x ++ c.controlSuccessors x).map w).sum) :
    ∃ m', (∀ fuel > (s.worklist.map w).sum, loop c fuel s = some m') ∧ Exact c m' index := by
  generalize hn : (s.worklist.map w).sum = n
  induction n using Nat.strong_induction_on generalizing s
  case h n hi =>
    cases hwl : s.worklist
    case nil =>
      refine ⟨s.map, fun fuel hf => ?_, exact_of_equation h.indexes hc fun x hx => ?_⟩
      · obtain ⟨fuel, rfl⟩ := Nat.exists_eq_add_of_lt hf
        rw [UpdateThroughInstruction.loop, hwl]
      · exact (h.equation x hx).resolve_right (by simp [hwl])
    case cons item worklist =>
      rw [hwl, List.map_cons, List.sum_cons] at hn
      obtain ⟨hx, ht⟩ := h.mem item (by simp [hwl])
      have hpos := hw item hx
      have hne : item ≠ instruction := by
        rintro rfl
        exact hc.acyclic item ht
      have hm : ∀ x ∈ worklist, x ∈ c.instructions ∧ TransGen c.Edge instruction x :=
        fun x hx => h.mem x (by simp [hwl, hx])
      have hcount : ∀ x, x ≠ instruction →
          Function.update s.inWorklist item (s.inWorklist item - 1) x = worklist.count x := by
        intro x hx'
        by_cases hxi : x = item
        case pos =>
          subst hxi
          rw [Function.update_self, h.count x hx', hwl, List.count_cons_self]
          push_cast
          ring
        case neg => rw [Function.update_of_ne hxi, h.count x hx', hwl, List.count_cons_of_ne (Ne.symm hxi)]
      have hl (fuel : Nat) : UpdateThroughInstruction.loop c (fuel + 1) s =
          if Function.update s.inWorklist item (s.inWorklist item - 1) item > 0 then
            UpdateThroughInstruction.loop c fuel
              { s with worklist, inWorklist := Function.update s.inWorklist item (s.inWorklist item - 1) }
          else
            (process c { s with worklist, inWorklist := Function.update s.inWorklist item (s.inWorklist item - 1) }
              item).bind (UpdateThroughInstruction.loop c fuel) := by
        rw [UpdateThroughInstruction.loop, hwl]
        rfl
      by_cases hgt : Function.update s.inWorklist item (s.inWorklist item - 1) item > 0
      case pos =>
        have hmem : item ∈ worklist := by
          rw [hcount item hne] at hgt
          exact List.count_pos_iff.mp (by exact_mod_cast hgt)
        have hinv : Inv c index instruction
            { s with worklist, inWorklist := Function.update s.inWorklist item (s.inWorklist item - 1) } := by
          refine ⟨h.indexes, fun x hx => (h.equation x hx).imp_right fun hm => ?_, hm, hcount⟩
          rw [hwl] at hm
          obtain rfl | hm := List.mem_cons.mp hm
          case inl => exact hmem
          case inr => exact hm
        obtain ⟨m', hr, he⟩ := hi _ (by simp only; omega) hinv rfl
        refine ⟨m', fun fuel hf => ?_, he⟩
        obtain ⟨fuel, rfl⟩ := Nat.exists_eq_add_of_lt hf
        rw [hl, if_pos hgt]
        exact hr _ (by simp only; omega)
      case neg =>
        obtain ⟨s', hp, hinv, hlt⟩ := Inv.of_process (s := { s with
            worklist, inWorklist := Function.update s.inWorklist item (s.inWorklist item - 1) })
          hc h.indexes (fun x hx => (h.equation x hx).imp_right fun hm => by
            rw [hwl] at hm
            exact (List.mem_cons.mp hm).symm) hm hcount hx ht.to_reflTransGen hw
        obtain ⟨m', hr, he⟩ := hi _ (by simp only at hlt; omega) hinv rfl
        refine ⟨m', fun fuel hf => ?_, he⟩
        obtain ⟨fuel, rfl⟩ := Nat.exists_eq_add_of_lt hf
        rw [hl, if_neg hgt, hp, Option.bind_some]
        exact hr _ (by simp only at hlt; omega)

end UpdateThroughInstruction

open UpdateThroughInstruction

-- All other rows may only be out of date because of the row of the instruction.
theorem updateReachabilityThroughInstruction_exact (hc : c.Valid) (hi : Indexes m c.instructions index)
    (hx : instruction ∈ c.instructions) (he : ∀ x ∈ c.instructions, x ≠ instruction → Equation c m index x) :
    ∃ m', Fuel.Returns (updateReachabilityThroughInstruction c m · instruction) m' ∧ Exact c m' index := by
  obtain ⟨w, hw⟩ := hc.exists_weight
  let inWorklist := Function.update (fun _ => 0 : Nat → Int) instruction (0 - 1)
  have hcount : ∀ x, x ≠ instruction → inWorklist x = ([] : List Nat).count x :=
    fun x hx => Function.update_of_ne hx _ _
  obtain ⟨s', hp, hinv, _⟩ := Inv.of_process (s := ⟨m, [], inWorklist⟩) hc hi
    (fun x hx => (em (x = instruction)).elim (.inr ∘ .inr) (.inl ∘ he x hx)) (by simp) hcount hx .refl hw
  obtain ⟨m', hr, hm'⟩ := hinv.loop hc hw
  refine ⟨m', Fuel.Returns.iff_exists.mpr ⟨(s'.worklist.map w).sum + 2, fun fuel hf => ?_⟩, hm'⟩
  obtain ⟨fuel, rfl⟩ := Nat.exists_eq_add_of_lt hf
  have hlt : ¬inWorklist instruction > 0 := by
    rw [show inWorklist instruction = 0 - 1 from Function.update_self ..]
    decide
  rw [updateReachabilityThroughInstruction, UpdateThroughInstruction.loop]
  simp only
  rw [if_neg hlt, hp]
  exact hr _ (by omega)

end HloReachabilityMap
end Hlo

namespace Hlo.HloReachabilityMap

open Relation HloComputation UpdateMultiple Fallible

variable {c c' : HloComputation} {m m' b : HloReachabilityMap} {index index' : Nat → Nat} {order : List Nat}

-- Both maps know all instructions, and they give the same answers.
def Agree (c : HloComputation) (m b : HloReachabilityMap) : Prop :=
  ∀ x ∈ c.instructions, ∀ y ∈ c.instructions, (m.isReachable x y).isSome ∧ m.isReachable x y = b.isReachable x y

theorem Exact.agree (h : Exact c m index) (h' : Exact c b index') : Agree c m b := by
  intro x hx y hy
  obtain ⟨r, hr, hb⟩ := h.isReachable hx hy
  obtain ⟨r', hr', hb'⟩ := h'.isReachable hx hy
  rw [hr, hr', Bool.eq_iff_iff.mpr (hb.trans hb'.symm)]
  exact ⟨rfl, rfl⟩

section Through

variable {instruction : Nat}

-- Only the predecessors of the instruction are different.
structure ChangedAt (c c' : HloComputation) (instruction : Nat) : Prop where
  mem  : instruction ∈ c'.instructions
  edge : ∀ x, x ≠ instruction → ∀ p, c'.Edge p x ↔ c.Edge p x

theorem Exact.update_through (hc : c.Valid) (hc' : c'.Valid) (h : Exact c m index)
    (hi : ∀ x, x ∈ c'.instructions ↔ x ∈ c.instructions) (hch : ChangedAt c c' instruction) :
    ∃ m', Fuel.Returns (updateReachabilityThroughInstruction c' m · instruction) m' ∧ Exact c' m' index := by
  refine updateReachabilityThroughInstruction_exact hc' (h.toIndexes.mono fun x hx => (hi x).mp hx) hch.mem ?_
  intro x hx hne a ha
  rw [h.equation hc ((hi x).mp hx) a ((hi a).mp ha)]
  simp only [hch.edge x hne]

end Through

section Multiple

variable {toUpdate : List (Nat × List Nat)} {s : State}

-- The new predecessors of the instructions are those in the work map.
structure Extended (c c' : HloComputation) (toUpdate : List (Nat × List Nat)) : Prop where
  mem  : ∀ entry ∈ toUpdate, entry.1 ∈ c'.instructions
  edge : ∀ x p, c'.Edge p x ↔ c.Edge p x ∨ Pending toUpdate x p

theorem Exact.inv (h : Exact c m index) (hc : c.Valid) (hi : ∀ x, x ∈ c'.instructions ↔ x ∈ c.instructions)
    (he : Extended c c' toUpdate) : Inv c' index m.wordsPerBitset ⟨m, toUpdate⟩ where
  indexes := h.toIndexes.mono fun x hx => (hi x).mp hx
  words   := rfl
  sound x hx a ha hb :=
    ((h.bit x ((hi x).mp hx) a ((hi a).mp ha)).mp hb).imp fun p x hp => (he.edge x p).mpr (.inl hp)
  self x hx := (h.bit x ((hi x).mp hx) x ((hi x).mp hx)).mpr .refl
  edge {p x} hp := by
    obtain hp | hp := (he.edge x p).mp hp
    case inr => exact .inr hp
    case inl =>
      refine .inl fun a ha hb => ?_
      have ha := (hi a).mp ha
      exact (h.bit x hp.1 a ha).mpr (((h.bit p (hc.mem hp) a ha).mp hb).tail hp)
  mem := he.mem
  pending hp := (he.edge _ _).mpr (.inr hp)

-- All runs are finite and none of them fails.
structure Terminates (c : HloComputation) (s : State) (P : HloReachabilityMap → Prop) : Prop where
  finite   : Acc (fun s' s => Next c s s') s
  progress : ∀ s', ReflTransGen (Next c) s s' → s'.toUpdate ≠ [] → ∃ s'', Next c s' s''
  safe     : ∀ s', ReflTransGen (Next c) s s' → ¬Step c s' none
  result   : ∀ s', ReflTransGen (Next c) s s' → s'.toUpdate = [] → P s'.map

theorem Exact.update_multiple (hc : c.Valid) (hc' : c'.Valid) (h : Exact c m index)
    (hi : ∀ x, x ∈ c'.instructions ↔ x ∈ c.instructions) (he : Extended c c' toUpdate) :
    Terminates c' ⟨m, toUpdate⟩ (Exact c' · index) where
  finite := (h.inv hc hi he).terminates hc'
  progress s' hs hne := by
    obtain ⟨r, hr⟩ := exists_step (c := c') hne
    obtain ⟨s'', rfl, _⟩ := ((h.inv hc hi he).run hc' hs).step hc' hr
    exact ⟨s'', hr⟩
  safe s' hs hn := by
    obtain ⟨_, hs'', _⟩ := ((h.inv hc hi he).run hc' hs).step hc' hn
    cases hs''
  result s' hs hw := ((h.inv hc hi he).run hc' hs).exact hc' hw

end Multiple

theorem update_eq_build (hc : c.Valid) (hc' : c'.Valid) (h : Exact c m index)
    (hi : ∀ x, x ∈ c'.instructions ↔ x ∈ c.instructions) (ho : c'.IsPostOrder order) :
    ∃ b, build c' order = some b ∧
      (∀ instruction, ChangedAt c c' instruction →
        ∃ m', Fuel.Returns (updateReachabilityThroughInstruction c' m · instruction) m' ∧ Agree c' m' b) ∧
      (∀ toUpdate, Extended c c' toUpdate → Terminates c' ⟨m, toUpdate⟩ (Agree c' · b)) := by
  obtain ⟨b, hb, he⟩ := build_exact hc' ho
  refine ⟨b, hb, fun instruction hch => ?_, fun toUpdate hex => ?_⟩
  · obtain ⟨m', hr, hm'⟩ := h.update_through hc hc' hi hch
    exact ⟨m', hr, hm'.agree he⟩
  · have ht := h.update_multiple hc hc' hi hex
    exact ⟨ht.finite, ht.progress, ht.safe, fun s' hs hw => (ht.result s' hs hw).agree he⟩

theorem update_eq_build_line : ∃ m b, build (line 1) (List.range 3) = some m ∧
    build (line 2) (List.range 3) = some b ∧
    (∃ m', Fuel.Returns (updateReachabilityThroughInstruction (line 2) m · 2) m' ∧ Agree (line 2) m' b) ∧
    Terminates (line 2) ⟨m, [(2, [1])]⟩ (Agree (line 2) · b) := by
  obtain ⟨m, hm, he⟩ := build_exact (line_valid 1).1 (line_valid 1).2
  obtain ⟨b, hb, hu, ht⟩ := update_eq_build (line_valid 1).1 (line_valid 2).1 he (fun _ => .rfl) (line_valid 2).2
  refine ⟨m, b, hm, hb, hu 2 ⟨by decide, fun x hx p => ?_⟩, ht _ ⟨by decide, fun x p => ?_⟩⟩
  · rw [line_edge, line_edge]
    omega
  · rw [line_edge, line_edge]
    simp [Pending]
    omega

end Hlo.HloReachabilityMap
