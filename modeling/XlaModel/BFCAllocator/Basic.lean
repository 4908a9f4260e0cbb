import Mathlib.Algebra.Ring.Nat
import XlaModel.Lib.Rounding

namespace BFCAllocator

-- Values of type `size_t` and pointers are natural numbers. Their arithmetic is modulo 2^64.
def wrap (n : Nat) : Nat :=
  n % 18446744073709551616

def wrapSub (m n : Nat) : Nat :=
  (m + (18446744073709551616 - n)) % 18446744073709551616

def kMinAllocationSize : Nat :=
  256

def roundedBytes (bytes : Nat) : Nat :=
  kMinAllocationSize * (wrap (bytes + kMinAllocationSize - 1) / kMinAllocationSize)

structure AllocationRegion where
  ptr        : Nat
  memorySize : Nat

-- The sub-allocator is not a part of the allocator. Its response depends on the number of calls that were
-- made before, on the memory it has handed out, on the alignment and on the number of bytes. It is a
-- pointer and the number of bytes received, or `none` for a null pointer.
structure SubAllocator where
  alloc : Nat → List (Nat × Nat) → Nat → Nat → Option (Nat × Nat)

structure Options where
  allowGrowth : Bool := true

structure AllocatorStats where
  poolBytes : Nat := 0

end BFCAllocator

open BFCAllocator

-- The part of the state on which it depends how much memory the pool is extended by.
structure BFCAllocator where
  memoryLimit               : Nat
  currRegionAllocationBytes : Nat
  subAllocatorCalls         : Nat                   := 0
  regions                   : List AllocationRegion := []
  stats                     : AllocatorStats        := {}

namespace BFCAllocator

def new (totalMemory : Nat) (opts : Options) : BFCAllocator where
  memoryLimit               := totalMemory
  currRegionAllocationBytes := roundedBytes (if opts.allowGrowth then min totalMemory 2097152 else totalMemory)

variable (s : BFCAllocator)

-- The product with the factor 0.9 in single precision, which is 15099494 / 2^24.
def backpedal (bytes : Nat) : Nat :=
  roundedBytes (BinaryRounding.round 24 (BinaryRounding.round 24 bytes * 15099494) / 16777216)

def held : List (Nat × Nat) :=
  s.regions.map fun r => (r.ptr, r.memorySize)

def subAllocate (subAllocator : SubAllocator) (alignment bytes : Nat) : Option (Nat × Nat) × BFCAllocator :=
  (subAllocator.alloc s.subAllocatorCalls s.held alignment bytes,
    { s with subAllocatorCalls := s.subAllocatorCalls + 1 })

-- The result is the new size of a region, or `none` if the loop does not end within the given fuel.
def grow (roundedBytes : Nat) : (fuel : Nat) → (bytes : Nat) → Option Nat
  | 0,        _     => none
  | fuel + 1, bytes => if roundedBytes > bytes then grow roundedBytes fuel (wrap (bytes * 2)) else some bytes

-- The inner result is the memory that the sub-allocator returns, if there is any.
def tryLess (subAllocator : SubAllocator) (alignment roundedBytes : Nat) :
    (fuel : Nat) → (bytes : Nat) → BFCAllocator → Option (Option (Nat × Nat) × BFCAllocator)
  | 0,        _,     _ => none
  | fuel + 1, bytes, s =>
    let bytes := backpedal bytes
    if bytes < roundedBytes then
      some (none, s)
    else
      match s.subAllocate subAllocator alignment bytes with
      | (some memory, s) => some (some memory, s)
      | (none, s)        => tryLess subAllocator alignment roundedBytes fuel bytes s

def availableBytes : Nat :=
  wrapSub s.memoryLimit s.stats.poolBytes / kMinAllocationSize * kMinAllocationSize

-- The part of `Extend` that gets memory from the sub-allocator.
def obtainMemory (subAllocator : SubAllocator) (fuel : Nat) (alignment roundedBytes : Nat) :
    Option (Option (Nat × Nat) × BFCAllocator) :=
  if roundedBytes > s.availableBytes then
    some (none, s)
  else do
    let increasedAllocation := roundedBytes > s.currRegionAllocationBytes
    let availableBytes := s.availableBytes
    let s := { s with currRegionAllocationBytes := ← grow roundedBytes fuel s.currRegionAllocationBytes }
    let bytes := min s.currRegionAllocationBytes availableBytes
    let (memory, s) ← match s.subAllocate subAllocator alignment bytes with
      | (some memory, s) => some (some memory, s)
      | (none, s)        => tryLess subAllocator alignment roundedBytes fuel bytes s
    if memory.isSome ∧ ¬increasedAllocation then
      return (memory, { s with currRegionAllocationBytes := wrap (s.currRegionAllocationBytes * 2) })
    else
      return (memory, s)

end BFCAllocator
