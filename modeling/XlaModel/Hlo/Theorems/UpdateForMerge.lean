import XlaModel.Hlo.Theorems.Build

namespace Hlo.HloReachabilityMap

open Relation HloComputation BitSet

variable {c : HloComputation} {m : HloReachabilityMap} {index : Nat → Nat} {left right x : Nat} {fromLeft : Bool}

namespace UpdateForMerge

variable {s : State} {done xs : List Nat}

section Traversal

def side (left right : Nat) (fromLeft : Bool) : Nat :=
  if fromLeft then left else right

-- The row of an instruction changes if it is reachable from exactly one of the sides.
def Affected (c : HloComputation) (left right x : Nat) : Prop :=
  Xor (ReflTransGen c.Edge left x) (ReflTransGen c.Edge right x)

theorem affected_of_side (h : ReflTransGen c.Edge (side left right fromLeft) x)
    (hn : ¬ReflTransGen c.Edge (side left right !fromLeft) x) : Affected c left right x := by
  cases fromLeft
  case false => exact .inr ⟨h, hn⟩
  case true  => exact .inl ⟨h, hn⟩

theorem skip_iff (h : Exact c m index) (hl : left ∈ c.instructions) (hr : right ∈ c.instructions)
    (hx : x ∈ c.instructions) : skip m (index left) (index right) x fromLeft = true ↔
      ReflTransGen c.Edge (side left right !fromLeft) x := by
  rw [skip, h.getIndex x hx]
  cases fromLeft
  case false => simpa [side, bit] using h.bit x hx left hl
  case true  => simpa [side, bit] using h.bit x hx right hr

structure Inv (c : HloComputation) (index : Nat → Nat) (left right : Nat) (done : List Nat) (s : State) : Prop where
  visited  : ∀ x ∈ s.visited, x ∈ c.instructions
  worklist : ∀ x fromLeft, (x, fromLeft) ∈ s.worklist → x ∈ c.instructions ∧
    ReflTransGen c.Edge (side left right fromLeft) x ∧ ¬ReflTransGen c.Edge (side left right !fromLeft) x
  affected : ∀ x ∈ done, x ∈ c.instructions ∧ Affected c left right x
  found    : ∀ x ∈ s.visited, Affected c left right x → x ∈ done ∨ ∃ fromLeft, (x, fromLeft) ∈ s.worklist
  indices  : s.indicesToUpdate = done.map index

def measure (c : HloComputation) (s : State) : Nat :=
  2 * (c.instructions.toFinset \ s.visited.toFinset).card + s.worklist.length

-- What a sequence of additions to the worklist preserves and achieves.
structure Adds (c : HloComputation) (index : Nat → Nat) (left right : Nat) (done xs : List Nat) (s s' : State) :
    Prop where
  inv     : Inv c index left right done s'
  mono    : ∀ x ∈ s.visited, x ∈ s'.visited
  added   : ∀ x ∈ xs, x ∈ s'.visited
  le      : measure c s' ≤ measure c s

theorem measure_visit (hx : x ∈ c.instructions) (hn : x ∉ s.visited) {worklist : List (Nat × Bool)}
    (hw : worklist.length ≤ s.worklist.length + 1) :
    measure c { s with visited := x :: s.visited, worklist } ≤ measure c s := by
  have hlt : (c.instructions.toFinset \ (x :: s.visited).toFinset).card <
      (c.instructions.toFinset \ s.visited.toFinset).card := by
    refine Finset.card_lt_card ((Finset.ssubset_iff_of_subset fun y hy => ?_).mpr ⟨x, ?_, ?_⟩)
    · simp_all
    · simp [hx, hn]
    · simp
  simp only [measure]
  omega

theorem addToWorklist_adds (h : Exact c m index) (hl : left ∈ c.instructions) (hr : right ∈ c.instructions)
    (hi : Inv c index left right done s) (hx : x ∈ c.instructions)
    (hs : ReflTransGen c.Edge (side left right fromLeft) x) :
    Adds c index left right done [x] s (addToWorklist m (index left) (index right) fromLeft s x) := by
  rw [addToWorklist]
  split
  case isTrue hv => exact ⟨hi, fun _ h => h, by simpa using hv, le_rfl⟩
  case isFalse hv =>
    have hvisited : ∀ y ∈ x :: s.visited, y ∈ c.instructions := by
      intro y hy
      obtain rfl | hy := List.mem_cons.mp hy
      case inl => exact hx
      case inr => exact hi.visited y hy
    split
    case isTrue hsk =>
      have hother := (skip_iff h hl hr hx).mp hsk
      refine ⟨⟨hvisited, hi.worklist, hi.affected, fun y hy ha => ?_, hi.indices⟩, fun y hy => .tail _ hy, by simp,
        measure_visit hx hv (Nat.le_succ _)⟩
      obtain rfl | hy := List.mem_cons.mp hy
      case inr => exact hi.found y hy ha
      case inl =>
        cases fromLeft
        case false => exact absurd ha fun ha => ha.elim (fun ha => ha.2 hs) fun ha => ha.2 hother
        case true  => exact absurd ha fun ha => ha.elim (fun ha => ha.2 hother) fun ha => ha.2 hs
    case isFalse hsk =>
      refine ⟨⟨hvisited, fun y f hy => ?_, hi.affected, fun y hy ha => ?_, hi.indices⟩, fun y hy => .tail _ hy, by simp,
        measure_visit hx hv (by simp)⟩
      · obtain hy | hy := List.mem_cons.mp hy
        case inl =>
          obtain ⟨rfl, rfl⟩ := Prod.mk.inj hy
          exact ⟨hx, hs, fun ho => hsk ((skip_iff h hl hr hx).mpr ho)⟩
        case inr => exact hi.worklist y f hy
      · obtain rfl | hy := List.mem_cons.mp hy
        case inl => exact .inr ⟨fromLeft, .head _⟩
        case inr =>
          refine (hi.found y hy ha).imp_right ?_
          rintro ⟨f, hf⟩
          exact ⟨f, .tail _ hf⟩

theorem foldl_addToWorklist_adds (h : Exact c m index) (hl : left ∈ c.instructions) (hr : right ∈ c.instructions)
    (hi : Inv c index left right done s) (hx : ∀ x ∈ xs, x ∈ c.instructions)
    (hs : ∀ x ∈ xs, ReflTransGen c.Edge (side left right fromLeft) x) :
    Adds c index left right done xs s (xs.foldl (addToWorklist m (index left) (index right) fromLeft) s) := by
  induction xs generalizing s
  case nil => exact ⟨hi, fun _ h => h, by simp, le_rfl⟩
  case cons x xs hind =>
    have h₁ := addToWorklist_adds h hl hr hi (hx x (.head _)) (hs x (.head _))
    have h₂ := hind h₁.inv (fun y hy => hx y (.tail _ hy)) fun y hy => hs y (.tail _ hy)
    refine ⟨h₂.inv, fun y hy => h₂.mono y (h₁.mono y hy), fun y hy => ?_, h₂.le.trans h₁.le⟩
    obtain rfl | hy := List.mem_cons.mp hy
    case inl => exact h₂.mono y (h₁.added y (.head _))
    case inr => exact h₂.added y hy

theorem process_adds (hc : c.Valid) (h : Exact c m index) (hl : left ∈ c.instructions) (hr : right ∈ c.instructions)
    {worklist : List (Nat × Bool)} (hw : s.worklist = (x, fromLeft) :: worklist)
    (hi : Inv c index left right done s) :
    Adds c index left right (done ++ [x]) (c.users x ++ c.controlSuccessors x)
      { s with worklist, indicesToUpdate := s.indicesToUpdate ++ [index x] }
      (process c m (index left) (index right) { s with worklist } x fromLeft) := by
  obtain ⟨hx, hs, hn⟩ := hi.worklist x fromLeft (by simp [hw])
  have hproc : process c m (index left) (index right) { s with worklist } x fromLeft =
      (c.users x ++ c.controlSuccessors x).foldl (addToWorklist m (index left) (index right) fromLeft)
        { s with worklist, indicesToUpdate := s.indicesToUpdate ++ [index x] } := by
    rw [process, h.getIndex x hx, List.foldl_append]
    rfl
  rw [hproc]
  refine foldl_addToWorklist_adds h hl hr ⟨hi.visited, fun y f hy => ?_, fun y hy => ?_, fun y hy ha => ?_, ?_⟩ ?_ ?_
  · exact hi.worklist y f (by simp [hw, hy])
  · obtain hy | hy := List.mem_append.mp hy
    case inl => exact hi.affected y hy
    case inr =>
      obtain rfl := List.mem_singleton.mp hy
      exact ⟨hx, affected_of_side hs hn⟩
  · obtain hd | ⟨f, hf⟩ := hi.found y hy ha
    case inl => exact .inl (List.mem_append_left _ hd)
    case inr =>
      rw [hw] at hf
      obtain hf | hf := List.mem_cons.mp hf
      case inl =>
        obtain ⟨rfl, rfl⟩ := Prod.mk.inj hf
        exact .inl (List.mem_append_right _ (.head _))
      case inr => exact .inr ⟨f, hf⟩
  · simp [hi.indices]
  · exact fun y hy => ((hc.mem_successors hx).mp hy).1
  · exact fun y hy => hs.tail ((hc.mem_successors hx).mp hy)

theorem affected_mem (hd : ∀ x ∈ done, ∀ y, c.Edge x y → Affected c left right y → y ∈ done)
    (hl : Affected c left right left → left ∈ done) (hr : Affected c left right right → right ∈ done)
    (h : Affected c left right x) : x ∈ done := by
  obtain ⟨hp, hn⟩ | ⟨hp, hn⟩ := h
  case inl =>
    induction hp
    case refl => exact hl (.inl ⟨.refl, hn⟩)
    case tail y z hy he hi => exact hd y (hi fun hr => hn (hr.tail he)) z he (.inl ⟨hy.tail he, hn⟩)
  case inr =>
    induction hp
    case refl => exact hr (.inr ⟨.refl, hn⟩)
    case tail y z hy he hi => exact hd y (hi fun hr => hn (hr.tail he)) z he (.inr ⟨hy.tail he, hn⟩)

theorem loop_spec (hc : c.Valid) (h : Exact c m index) (hl : left ∈ c.instructions) (hr : right ∈ c.instructions)
    (hi : Inv c index left right done s) (hvl : left ∈ s.visited) (hvr : right ∈ s.visited)
    (hd : ∀ x ∈ done, ∀ y, c.Edge x y → y ∈ s.visited) :
    ∃ done' : List Nat, (∀ fuel > measure c s, loop c m (index left) (index right) fuel s = some (done'.map index)) ∧
      ∀ x, x ∈ done' ↔ x ∈ c.instructions ∧ Affected c left right x := by
  generalize hn : measure c s = n
  induction n using Nat.strong_induction_on generalizing s done
  case h n hind =>
    cases hw : s.worklist
    case nil =>
      refine ⟨done, fun fuel hf => ?_, fun x => ⟨hi.affected x, fun hx => ?_⟩⟩
      · obtain ⟨fuel, rfl⟩ := Nat.exists_eq_add_of_lt hf
        rw [loop, hw, hi.indices]
      · have hv : ∀ x ∈ s.visited, Affected c left right x → x ∈ done :=
          fun x hx ha => (hi.found x hx ha).resolve_right (by simp [hw])
        exact affected_mem (fun x hx y he => hv y (hd x hx y he)) (hv left hvl) (hv right hvr) hx.2
    case cons item worklist =>
      obtain ⟨x, fromLeft⟩ := item
      have ha := process_adds hc h hl hr hw hi
      have hx := (hi.worklist x fromLeft (by simp [hw])).1
      have hlt : measure c (process c m (index left) (index right) { s with worklist } x fromLeft) < n := by
        have := ha.le
        simp only [measure, hw, List.length_cons] at this hn ⊢
        omega
      obtain ⟨done', hr', hd'⟩ := hind _ hlt ha.inv (ha.mono _ hvl) (ha.mono _ hvr) (by
        intro y hy z he
        obtain hy | hy := List.mem_append.mp hy
        case inl => exact ha.mono z (hd y hy z he)
        case inr =>
          obtain rfl := List.mem_singleton.mp hy
          exact ha.added z ((hc.mem_successors hx).mpr he)) rfl
      refine ⟨done', fun fuel hf => ?_, hd'⟩
      obtain ⟨fuel, rfl⟩ := Nat.exists_eq_add_of_lt hf
      rw [loop, hw]
      exact hr' _ (by omega)

end Traversal

section Rows

variable {b other : BitSet}

-- The rows of the instructions in the list are united with both of the bit sets.
structure United (m : HloReachabilityMap) (b other : BitSet) (nodes : List Nat) (index : Nat → Nat) (xs : List Nat)
    (m' : HloReachabilityMap) : Prop where
  indexes : Indexes m' nodes index
  bit     : ∀ x ∈ nodes, ∀ a ∈ nodes, m'.bit (index a) (index x) = true ↔
    m.bit (index a) (index x) = true ∨ (x ∈ xs ∧ (b.get (index a) = true ∨ other.get (index a) = true))

-- The row of the instruction contains one of the bit sets.
def Covers (m : HloReachabilityMap) (b other : BitSet) (nodes : List Nat) (index : Nat → Nat) (x : Nat) : Prop :=
  (∀ a ∈ nodes, b.get (index a) = true → m.bit (index a) (index x) = true) ∨
    ∀ a ∈ nodes, other.get (index a) = true → m.bit (index a) (index x) = true

theorem get_orUpdatePartial_either {r : BitSet} {a : Nat} (hl : b.words.length = other.words.length)
    (hr : r.words.length = b.words.length)
    (hs : (b.get a = true → r.get a = true) ∨ (other.get a = true → r.get a = true)) :
    (r.orUpdatePartial (b.getDifferingWordUnions other)).get a = true ↔
      r.get a = true ∨ b.get a = true ∨ other.get a = true := by
  obtain hs | hs := hs
  case inl =>
    rw [get_orUpdatePartial_unions hl hr hs]
    exact ⟨.imp_right .inr, fun h => h.elim .inl fun h => h.elim (.inl ∘ hs) .inr⟩
  case inr =>
    have hd : ∀ d ∈ b.getDifferingWordUnions other, d.1 < r.words.length :=
      fun d hd => hr ▸ ((mem_getDifferingWordUnions hl).mp hd).1
    have hd' : ∀ d ∈ other.getDifferingWordUnions b, d.1 < r.words.length :=
      fun d h => hd d ((getDifferingWordUnions_comm hl).mpr h)
    have hu := get_orUpdatePartial_unions (i := a) hl.symm (hr.trans hl) hs
    rw [get_orUpdatePartial hd'] at hu
    simp only [← getDifferingWordUnions_comm hl] at hu
    rw [get_orUpdatePartial hd, hu]
    exact ⟨.imp_right .inl, fun h => h.elim .inl fun h => h.elim .inr (.inl ∘ hs)⟩

variable {nodes : List Nat}

theorem United.covers {m' : HloReachabilityMap} (h : United m b other nodes index xs m') (hx : x ∈ nodes)
    (hc : Covers m b other nodes index x) : Covers m' b other nodes index x :=
  hc.imp (fun hs a ha hb => (h.bit x hx a ha).mpr (.inl (hs a ha hb)))
    fun hs a ha hb => (h.bit x hx a ha).mpr (.inl (hs a ha hb))

-- The rows are changed one after the other.
theorem United.cons {m₁ m₂ : HloReachabilityMap} (h₁ : United m b other nodes index [x] m₁)
    (h₂ : United m₁ b other nodes index xs m₂) : United m b other nodes index (x :: xs) m₂ := by
  refine ⟨h₂.indexes, fun y hy a ha => ?_⟩
  rw [h₂.bit y hy a ha, h₁.bit y hy a ha, List.mem_singleton, List.mem_cons]
  tauto

theorem setBitSet_united (h : Indexes m nodes index) (hx : x ∈ nodes) {r : BitSet}
    (hl : r.words.length = m.wordsPerBitset) (hr : ∀ a ∈ nodes, r.get (index a) = true ↔
      m.bit (index a) (index x) = true ∨ b.get (index a) = true ∨ other.get (index a) = true) :
    United m b other nodes index [x] (m.setBitSet (index x) r) := by
  refine ⟨h.setBitSet hl, fun y hy a ha => ?_⟩
  rw [bit, bitSetFromIndex_setBitSet (h.lt x hx), List.mem_singleton]
  split
  case isTrue hi =>
    obtain rfl := h.inj x hx y hy hi
    rw [hr a ha]
    simp
  case isFalse hi =>
    have hne : y ≠ x := fun hyx => hi (hyx ▸ rfl)
    simp [hne, bit]

theorem orRowsPartial_united (h : Indexes m nodes index) (hb : b.words.length = m.wordsPerBitset)
    (ho : other.words.length = m.wordsPerBitset) (hx : x ∈ nodes) (hs : Covers m b other nodes index x) :
    United m b other nodes index [x] (orRowsPartial (b.getDifferingWordUnions other) m (index x)) := by
  refine setBitSet_united h hx (length_orUpdatePartial.trans h.length_bitSet) fun a ha => ?_
  exact get_orUpdatePartial_either (hb.trans ho.symm) (h.length_bitSet.trans hb.symm)
    (hs.imp (fun hs => hs a ha) fun hs => hs a ha)

theorem foldl_orRowsPartial_united (h : Indexes m nodes index) (hb : b.words.length = m.wordsPerBitset)
    (ho : other.words.length = m.wordsPerBitset) (hx : ∀ x ∈ xs, x ∈ nodes)
    (hs : ∀ x ∈ xs, Covers m b other nodes index x) :
    United m b other nodes index xs ((xs.map index).foldl (orRowsPartial (b.getDifferingWordUnions other)) m) := by
  induction xs generalizing m
  case nil => exact ⟨h, by simp⟩
  case cons x xs hi =>
    have h₁ := orRowsPartial_united h hb ho (hx x (.head _)) (hs x (.head _))
    have hx' : ∀ y ∈ xs, y ∈ nodes := fun y hy => hx y (.tail _ hy)
    exact h₁.cons (hi h₁.indexes hb ho hx' fun y hy => h₁.covers (hx' y hy) (hs y (.tail _ hy)))

theorem foldl_orRows_united (h : Indexes m nodes index) {info : Nat} (hn : info ∈ nodes)
    (hi : ∀ a ∈ nodes, m.bit (index a) (index info) = true ↔ b.get (index a) = true ∨ other.get (index a) = true)
    (hx : ∀ x ∈ xs, x ∈ nodes) :
    United m b other nodes index xs ((xs.map index).foldl (orRows (index info)) m) := by
  induction xs generalizing m
  case nil => exact ⟨h, by simp⟩
  case cons x xs hind =>
    have hl : ((m.bitSetFromIndex (index x)).or (m.bitSetFromIndex (index info))).words.length = m.wordsPerBitset := by
      simp [BitSet.or, h.length_bitSet]
    have h₁ : United m b other nodes index [x] (orRows (index info) m (index x)) := by
      refine setBitSet_united h (hx x (.head _)) hl fun a ha => ?_
      rw [get_or (h.length_bitSet.trans h.length_bitSet.symm), Bool.or_eq_true, ← hi a ha]
      rfl
    refine h₁.cons (hind h₁.indexes (fun a ha => ?_) fun y hy => hx y (.tail _ hy))
    rw [h₁.bit info hn a ha, hi a ha]
    tauto

theorem apply_united (h : Indexes m nodes index) {info : Nat} (hn : info ∈ xs)
    (hb : b = m.bitSetFromIndex (index info)) (ho : other.words.length = m.wordsPerBitset) (hx : ∀ x ∈ xs, x ∈ nodes)
    (hs : ∀ x ∈ xs, Covers m b other nodes index x) :
    United m b other nodes index xs (apply m (index info) (b.getDifferingWordUnions other) (xs.map index)) := by
  have hbl : b.words.length = m.wordsPerBitset := hb ▸ h.length_bitSet
  rw [apply]
  split
  case isFalse => exact foldl_orRowsPartial_united h hbl ho hx hs
  case isTrue =>
    have hni := hx info hn
    have h₁ := orRowsPartial_united h hbl ho hni (hs info hn)
    have hinfo : ∀ a ∈ nodes, (orRowsPartial (b.getDifferingWordUnions other) m (index info)).bit (index a)
        (index info) = true ↔ b.get (index a) = true ∨ other.get (index a) = true := by
      intro a ha
      rw [h₁.bit info hni a ha, bit, ← hb]
      simp
    have h₂ := foldl_orRows_united h₁.indexes hni hinfo hx
    refine ⟨h₂.indexes, fun y hy a ha => ?_⟩
    rw [h₂.bit y hy a ha, h₁.bit y hy a ha, List.mem_singleton]
    constructor
    · rintro ((hm | ⟨rfl, h⟩) | h)
      case inl.inl => exact .inl hm
      case inl.inr => exact .inr ⟨hn, h⟩
      case inr     => exact .inr h
    · exact .imp_left .inl

end Rows
end UpdateForMerge

open UpdateForMerge

theorem updateReachabilityForMerge_spec (hc : c.Valid) (h : Exact c m index) (hl : left ∈ c.instructions)
    (hr : right ∈ c.instructions) (hlr : ¬TransGen c.Edge left right) (hrl : ¬TransGen c.Edge right left) :
    ∃ m', Fuel.Returns (updateReachabilityForMerge c m · left right) m' ∧ Indexes m' c.instructions index ∧
      ∀ x ∈ c.instructions, ∀ a ∈ c.instructions, m'.bit (index a) (index x) = true ↔
        ReflTransGen (Identified c.Edge left right) (identify left right a) (identify left right x) := by
  simp only [reflTransGen_identified_iff]
  by_cases heq : left = right
  case pos =>
    refine ⟨m, .of_forall fun fuel => by simp [updateReachabilityForMerge, heq], h.toIndexes, ?_⟩
    intro x hx a ha
    subst heq
    rw [h.bit x hx a ha, or_self, or_self]
    exact ⟨.inl, fun h => h.elim id fun h => h.1.trans h.2⟩
  case neg =>
    have hlr' : ¬ReflTransGen c.Edge left right := fun h => (reflTransGen_iff_eq_or_transGen.mp h).elim
      (fun h => heq h.symm) hlr
    have hrl' : ¬ReflTransGen c.Edge right left := fun h => (reflTransGen_iff_eq_or_transGen.mp h).elim heq hrl
    have hal : Affected c left right left := .inl ⟨.refl, hrl'⟩
    have har : Affected c left right right := .inr ⟨.refl, hlr'⟩
    let s₀ : State := ⟨[], [], []⟩
    have hinv₀ : Inv c index left right [] s₀ := ⟨by simp [s₀], by simp [s₀], by simp, by simp [s₀], rfl⟩
    let s₁ := addToWorklist m (index left) (index right) true s₀ left
    have h₁ : Adds c index left right [] [left] s₀ s₁ := addToWorklist_adds h hl hr hinv₀ hl .refl
    let s₂ := addToWorklist m (index left) (index right) false s₁ right
    have h₂ : Adds c index left right [] [right] s₁ s₂ := addToWorklist_adds h hl hr h₁.inv hr .refl
    have hvl := h₁.added left (.head _)
    have hvr := h₂.added right (.head _)
    obtain ⟨f₁, hw₁⟩ := (h₁.inv.found left hvl hal).resolve_left (List.not_mem_nil)
    obtain ⟨f₂, hw₂⟩ := (h₂.inv.found right hvr har).resolve_left (List.not_mem_nil)
    have he₁ : s₁.worklist.isEmpty = false := List.isEmpty_eq_false_iff_exists_mem.mpr ⟨_, hw₁⟩
    have he₂ : s₂.worklist.isEmpty = false := List.isEmpty_eq_false_iff_exists_mem.mpr ⟨_, hw₂⟩
    have hlen : (m.bitSetFromIndex (index left)).words.length = (m.bitSetFromIndex (index right)).words.length :=
      h.length_bitSet.trans h.length_bitSet.symm
    have hchanged : ((m.bitSetFromIndex (index left)).getDifferingWordUnions
        (m.bitSetFromIndex (index right))).isEmpty = false := by
      by_contra hempty
      have hnil := List.isEmpty_iff.mp (by simpa using hempty)
      have hu := get_orUpdatePartial_unions (i := index right) hlen rfl id
      rw [hnil] at hu
      exact hrl' ((h.bit left hl right hr).mp (hu.mpr (.inr ((h.bit right hr right hr).mpr .refl))))
    obtain ⟨done, hloop, hdone⟩ := loop_spec hc h hl hr h₂.inv (h₂.mono left hvl) hvr (by simp)
    have hs : ∀ x ∈ done, Covers m (m.bitSetFromIndex (index left)) (m.bitSetFromIndex (index right))
        c.instructions index x := by
      intro x hx
      obtain ⟨hxn, hax⟩ := (hdone x).mp hx
      obtain ⟨hp, _⟩ | ⟨hp, _⟩ := hax
      case inl => exact .inl fun a ha hb => (h.bit x hxn a ha).mpr (((h.bit left hl a ha).mp hb).trans hp)
      case inr => exact .inr fun a ha hb => (h.bit x hxn a ha).mpr (((h.bit right hr a ha).mp hb).trans hp)
    have hu := apply_united h.toIndexes ((hdone left).mpr ⟨hl, hal⟩) rfl h.length_bitSet
      (fun x hx => ((hdone x).mp hx).1) hs
    refine ⟨_, Fuel.Returns.iff_exists.mpr ⟨measure c s₂ + 1, fun fuel hf => ?_⟩, hu.indexes, fun x hx a ha => ?_⟩
    · rw [updateReachabilityForMerge, if_neg heq, h.getIndex left hl, h.getIndex right hr]
      have hrun : loop c m (index left) (index right) fuel s₂ = some (done.map index) := hloop fuel hf
      simp only [Option.bind_eq_bind, Option.bind_some]
      rw [show addToWorklist m (index left) (index right) true ⟨[], [], []⟩ left = s₁ from rfl,
        show addToWorklist m (index left) (index right) false s₁ right = s₂ from rfl, he₁, he₂, hchanged, hrun]
      rfl
    · have hbl := h.bit left hl a ha
      have hbr := h.bit right hr a ha
      rw [bit] at hbl hbr
      rw [hu.bit x hx a ha, h.bit x hx a ha, hdone, hbl, hbr, and_iff_right hx]
      constructor
      · rintro (hp | ⟨hax, hp⟩)
        case inl => exact .inl hp
        case inr => exact .inr ⟨hp, hax.imp And.left And.left⟩
      · rintro (hp | ⟨hp, hpx⟩)
        case inl => exact .inl hp
        case inr =>
          by_cases hax : Affected c left right x
          case pos => exact .inr ⟨hax, hp⟩
          case neg =>
            -- The instruction is reachable from both sides already.
            have hboth : ReflTransGen c.Edge left x ∧ ReflTransGen c.Edge right x := by
              obtain hpx | hpx := hpx
              case inl => exact ⟨hpx, by_contra fun hn => hax (.inl ⟨hpx, hn⟩)⟩
              case inr => exact ⟨by_contra fun hn => hax (.inr ⟨hpx, hn⟩), hpx⟩
            exact .inl (hp.elim (·.trans hboth.1) (·.trans hboth.2))

theorem updateReachabilityForMerge_line : ∃ m m', build (line 1) (List.range 3) = some m ∧
    Fuel.Returns (updateReachabilityForMerge (line 1) m · 1 2) m' ∧
    ∀ x ∈ [0, 1, 2], ∀ a ∈ [0, 1, 2], m'.bit ((List.range 3).idxOf a) ((List.range 3).idxOf x) = true ↔
      ReflTransGen (Identified (line 1).Edge 1 2) (identify 1 2 a) (identify 1 2 x) := by
  obtain ⟨m, hm, he⟩ := build_exact (line_valid 1).1 (line_valid 1).2
  have hn (a b : Nat) (hb : b ≠ 1) : ¬TransGen (line 1).Edge a b := by
    intro ht
    obtain ⟨_, _, h⟩ := TransGen.tail'_iff.mp ht
    have := line_edge.mp h
    omega
  have hrl : ¬TransGen (line 1).Edge 2 1 := by
    intro ht
    have hlt : ∀ a b, (line 1).Edge a b → id a < id b := fun a b h => by simp [(line_edge.mp h).2.2]
    exact absurd (ht.rank_lt hlt) (by decide)
  obtain ⟨m', hr, _, hb⟩ := updateReachabilityForMerge_spec (line_valid 1).1 he (by decide) (by decide)
    (hn 1 2 (by decide)) hrl
  exact ⟨m, m', hm, hr, hb⟩

end Hlo.HloReachabilityMap
