import Mathlib.Order.Lattice

inductive MemoryOrder
  | relaxed
  | acquire
  | release
  | acqRel
deriving DecidableEq

namespace MemoryOrder

def acquires (o : MemoryOrder) : Bool :=
  o = acquire ∨ o = acqRel

def releases (o : MemoryOrder) : Bool :=
  o = release ∨ o = acqRel

end MemoryOrder

-- An atomic integer that is only changed by read-modify-write operations. They continue the release sequences before
-- them, so that an acquire operation synchronizes with all release operations before it. The view is what a thread
-- learns from an acquire operation.
structure Atomic (V : Type u) where
  value : Int
  view  : V

namespace Atomic

variable {V : Type u} [SemilatticeSup V]

-- The view of the thread after the operation.
def load (o : MemoryOrder) (a : Atomic V) (v : V) : V :=
  if o.acquires then v ⊔ a.view else v

def fetchAdd (o : MemoryOrder) (d : Int) (a : Atomic V) (v : V) : Atomic V where
  value := a.value + d
  view  := if o.releases then a.view ⊔ v else a.view

def fetchSub (o : MemoryOrder) (d : Int) : Atomic V → V → Atomic V :=
  fetchAdd o (-d)

variable {a : Atomic V} {v : V}

@[simp] theorem load_acquire : a.load .acquire v = v ⊔ a.view :=
  rfl

@[simp] theorem load_acqRel : a.load .acqRel v = v ⊔ a.view :=
  rfl

end Atomic
