import Mathlib.Data.List.Basic
import Mathlib.Tactic

namespace Runtime

-- The byte range of a slice in the allocation with the given index.
structure Slice where
  index  : Nat
  offset : Int
  size   : Int
deriving DecidableEq

def Slice.overlapsWith (s other : Slice) : Bool :=
  s.index = other.index ∧ s.offset < other.offset + other.size ∧ s.offset + s.size > other.offset

inductive Access
  | read
  | write
deriving DecidableEq

structure BufferUse where
  slice  : Slice
  access : Access
deriving DecidableEq

namespace BufferUse

-- Two uses can not be executed concurrently.
def Conflict (u v : BufferUse) : Prop :=
  (u.slice.overlapsWith v.slice ∨ u.slice = v.slice) ∧ (u.access = .write ∨ v.access = .write)

structure ReadWriteSet where
  read  : List BufferUse
  write : List BufferUse

namespace ReadWriteSet

def empty : ReadWriteSet where
  read  := []
  write := []

def add (s : ReadWriteSet) (use : BufferUse) : ReadWriteSet :=
  match use.access with
  | .read  => { s with read := s.read ++ [use] }
  | .write => { s with write := s.write ++ [use] }

def addAll (s : ReadWriteSet) (uses : List BufferUse) : ReadWriteSet :=
  uses.foldl add s

def overlaps (set : List BufferUse) (use : BufferUse) : Bool :=
  set.any fun other => other.slice.overlapsWith use.slice ∨ other.slice = use.slice

def hasConflict (s : ReadWriteSet) (use : BufferUse) : Bool :=
  match use.access with
  | .write => overlaps s.write use ∨ overlaps s.read use
  | .read  => overlaps s.write use

def hasConflicts (s other : ReadWriteSet) : Bool :=
  other.read.any s.hasConflict ∨ other.write.any s.hasConflict

theorem addAll_eq (s : ReadWriteSet) (uses : List BufferUse) : s.addAll uses = {
      read  := s.read ++ uses.filter (·.access = .read)
      write := s.write ++ uses.filter (·.access = .write)
    } := by
  induction uses generalizing s
  case nil => simp [addAll]
  case cons u uses hi =>
    rw [addAll, List.foldl_cons, ←addAll, hi]
    cases h : u.access <;> simp [add, h]

theorem hasConflict_iff {us : List BufferUse} {v : BufferUse} :
    (empty.addAll us).hasConflict v = true ↔ ∃ u ∈ us, u.Conflict v := by
  rw [addAll_eq]
  cases h : v.access
  case read  => simp [hasConflict, h, overlaps, Conflict, empty, and_comm]
  case write =>
    simp only [hasConflict, h, overlaps, Conflict, empty]
    constructor
    case mp => simp; grind
    case mpr =>
      intro ⟨u, hm, hc, _⟩
      cases ha : u.access <;> simp <;> grind

theorem hasConflicts_iff {us vs : List BufferUse} :
    (empty.addAll us).hasConflicts (empty.addAll vs) = true ↔
    ∃ u ∈ us, ∃ v ∈ vs, u.Conflict v := by
  simp only [hasConflicts, decide_eq_true_eq, List.any_eq_true, hasConflict_iff]
  rw [addAll_eq]
  simp only [empty, List.nil_append, List.mem_filter, decide_eq_true_eq]
  constructor
  case mp =>
    intro h
    cases h
    case inl h => exact have ⟨v, ⟨hv, _⟩, u, hu, h⟩ := h; ⟨u, hu, v, hv, h⟩
    case inr h => exact have ⟨v, ⟨hv, _⟩, u, hu, h⟩ := h; ⟨u, hu, v, hv, h⟩
  case mpr =>
    intro ⟨u, hu, v, hv, h⟩
    cases ha : v.access
    case read  => exact .inl ⟨v, ⟨hv, ha⟩, u, hu, h⟩
    case write => exact .inr ⟨v, ⟨hv, ha⟩, u, hu, h⟩

end ReadWriteSet
end BufferUse

inductive Resource.Kind
  | token
  | collectiveCommunicator
deriving DecidableEq

-- Resources are shared by reference, so they are identified by their address.
structure Resource where
  address : Nat
  kind    : Resource.Kind
deriving DecidableEq

structure ResourceUse where
  resource : Resource
  access   : Access
deriving DecidableEq

namespace ResourceUse

def Conflict (u v : ResourceUse) : Prop :=
  u.resource = v.resource ∧ (u.access = .write ∨ v.access = .write)

structure ReadWriteSet where
  read  : List Resource
  write : List Resource

namespace ReadWriteSet

def empty : ReadWriteSet where
  read  := []
  write := []

def add (s : ReadWriteSet) (use : ResourceUse) : ReadWriteSet :=
  match use.access with
  | .read  => { s with read := s.read.insert use.resource }
  | .write => { s with write := s.write.insert use.resource }

def addAll (s : ReadWriteSet) (uses : List ResourceUse) : ReadWriteSet :=
  uses.foldl add s

def hasConflict (s : ReadWriteSet) (use : ResourceUse) : Bool :=
  match use.access with
  | .write => use.resource ∈ s.write ∨ use.resource ∈ s.read
  | .read  => use.resource ∈ s.write

def hasConflicts (s other : ReadWriteSet) : Bool :=
  (other.read.any fun r => s.hasConflict ⟨r, .read⟩) ∨
  (other.write.any fun r => s.hasConflict ⟨r, .write⟩)

def conflicts (s other : ReadWriteSet) : List ResourceUse :=
  (other.read.map (ResourceUse.mk · .read)).filter s.hasConflict ++
  (other.write.map (ResourceUse.mk · .write)).filter s.hasConflict

theorem mem_addAll (s : ReadWriteSet) (uses : List ResourceUse) (r : Resource) :
    (r ∈ (s.addAll uses).read ↔ r ∈ s.read ∨ ⟨r, .read⟩ ∈ uses) ∧
    (r ∈ (s.addAll uses).write ↔ r ∈ s.write ∨ ⟨r, .write⟩ ∈ uses) := by
  induction uses generalizing s
  case nil => simp [addAll]
  case cons u uses hi =>
    rw [addAll, List.foldl_cons, ←addAll, (hi _).1, (hi _).2]
    have ⟨resource, access⟩ := u
    cases access <;> simp [add, or_assoc, or_left_comm]

theorem mem_read_addAll {uses : List ResourceUse} {r : Resource} :
    r ∈ (empty.addAll uses).read ↔ ⟨r, .read⟩ ∈ uses := by
  simpa [empty] using (mem_addAll empty uses r).1

theorem mem_write_addAll {uses : List ResourceUse} {r : Resource} :
    r ∈ (empty.addAll uses).write ↔ ⟨r, .write⟩ ∈ uses := by
  simpa [empty] using (mem_addAll empty uses r).2

theorem hasConflict_iff {us : List ResourceUse} {v : ResourceUse} :
    (empty.addAll us).hasConflict v = true ↔ ∃ u ∈ us, u.Conflict v := by
  cases ha : v.access <;>
    simp only [hasConflict, ha, decide_eq_true_eq, mem_read_addAll, mem_write_addAll]
  case read =>
    constructor
    case mp  => exact fun h => ⟨_, h, rfl, .inl rfl⟩
    case mpr =>
      intro ⟨⟨resource, access⟩, hm, hr, h⟩
      simp_all
  case write =>
    constructor
    case mp =>
      intro h
      cases h
      case inl h => exact ⟨_, h, rfl, .inr ha⟩
      case inr h => exact ⟨_, h, rfl, .inr ha⟩
    case mpr =>
      intro ⟨⟨resource, access⟩, hm, hr, _⟩
      cases access <;> simp_all

theorem mem_conflicts {us vs : List ResourceUse} {v : ResourceUse} :
    v ∈ (empty.addAll us).conflicts (empty.addAll vs) ↔ v ∈ vs ∧ ∃ u ∈ us, u.Conflict v := by
  have ⟨resource, access⟩ := v
  cases access <;> simp [conflicts, hasConflict_iff, mem_read_addAll, mem_write_addAll]

theorem hasConflicts_iff {us vs : List ResourceUse} :
    (empty.addAll us).hasConflicts (empty.addAll vs) = true ↔
    ∃ u ∈ us, ∃ v ∈ vs, u.Conflict v := by
  simp only [hasConflicts, decide_eq_true_eq, List.any_eq_true, hasConflict_iff, mem_read_addAll,
    mem_write_addAll]
  constructor
  case mp =>
    intro h
    cases h
    case inl h => exact have ⟨r, hv, u, hu, h⟩ := h; ⟨u, hu, ⟨r, .read⟩, hv, h⟩
    case inr h => exact have ⟨r, hv, u, hu, h⟩ := h; ⟨u, hu, ⟨r, .write⟩, hv, h⟩
  case mpr =>
    intro ⟨u, hu, ⟨resource, access⟩, hv, h⟩
    cases access
    case read  => exact .inl ⟨resource, hv, u, hu, h⟩
    case write => exact .inr ⟨resource, hv, u, hu, h⟩

end ReadWriteSet
end ResourceUse
end Runtime
