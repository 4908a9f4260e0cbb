import Mathlib.Algebra.BigOperators.Group.List.Basic
import Mathlib.Tactic

-- The shape of an array with an untiled layout. The number of elements fits into an `int64_t`.
structure Shape (τ : Type) where
  elementType  : τ
  dimensions   : List Nat
  minorToMajor : List Nat
  perm         : minorToMajor.Perm (List.range dimensions.length)

namespace Shape

variable {τ : Type}

def rank (s : Shape τ) : Nat :=
  s.dimensions.length

def dimension (s : Shape τ) (d : Nat) : Nat :=
  s.dimensions.getD d 1

def elementsIn (s : Shape τ) : Nat :=
  s.dimensions.foldl (· * ·) 1

def makeDescendingLayout (rank : Nat) : List Nat :=
  (List.range rank).reverse

def makeShapeWithDescendingLayout (elementType : τ) (dimensions : List Nat) : Shape τ where
  elementType  := elementType
  dimensions   := dimensions
  minorToMajor := makeDescendingLayout dimensions.length
  perm         := List.reverse_perm _

def LinearIndexToMultidimensionalIndex.step (s : Shape τ) (linearIndex : Nat) :
    List Nat × Nat → Nat → List Nat × Nat
  | (multiIndex, divisor), d =>
    (multiIndex.set d (linearIndex / divisor % s.dimension d), divisor * s.dimension d)

def linearIndexToMultidimensionalIndex (s : Shape τ) (linearIndex : Nat) : List Nat :=
  (s.minorToMajor.foldl (LinearIndexToMultidimensionalIndex.step s linearIndex) (List.replicate s.rank 0, 1)).1

def getDimensionStride (s : Shape τ) (d : Nat) : Nat :=
  (s.minorToMajor.takeWhile (· ≠ d)).foldl (fun stride d => stride * s.dimension d) 1

def MultidimensionalIndexToLinearIndex.step (s : Shape τ) (multiIndex : List Nat) :
    Nat × Nat → Nat × Nat → Nat × Nat
  | (linearIndex, scale), (prev, d) =>
    let scale := scale * s.dimension prev
    (linearIndex + scale * multiIndex.getD d 0, scale)

def multidimensionalIndexToLinearIndex (s : Shape τ) (multiIndex : List Nat) : Nat :=
  match s.minorToMajor with
  | []      => 0
  | d :: ds =>
    (((d :: ds).zip ds).foldl (MultidimensionalIndexToLinearIndex.step s multiIndex) (multiIndex.getD d 0, 1)).1

-- The index with a single one.
def unitIndex (rank d : Nat) : List Nat :=
  (List.replicate rank 0).set d 1

-- Whether the reshape does not move the elements with a unit index of the input.
def checkInputUnitIndices (input output : Shape τ) : Bool :=
  let inputDim0Major  := makeShapeWithDescendingLayout input.elementType input.dimensions
  let outputDim0Major := makeShapeWithDescendingLayout output.elementType output.dimensions
  (List.range input.rank).all fun inputDim =>
    input.dimension inputDim ≤ 1 ||
      let inputUnitIndex := unitIndex input.rank inputDim
      let logicalLinearIndex := inputDim0Major.multidimensionalIndexToLinearIndex inputUnitIndex
      let outputIndex := outputDim0Major.linearIndexToMultidimensionalIndex logicalLinearIndex
      input.multidimensionalIndexToLinearIndex inputUnitIndex == output.multidimensionalIndexToLinearIndex outputIndex

def sameElementType [DecidableEq τ] (a b : Shape τ) : Bool :=
  a.elementType = b.elementType

def reshapeIsBitcast [DecidableEq τ] (input output : Shape τ) (ignoreElementType : Bool) : Bool :=
  if !ignoreElementType && !sameElementType input output then false
  else if input.elementsIn ≠ output.elementsIn then false
  else if input.elementsIn = 0 then true
  else checkInputUnitIndices input output && checkInputUnitIndices output input

end Shape

namespace Shape

inductive Failure where
  -- A failed `CHECK`.
  | check
  -- The value of an `InvalidArgument` status.
  | invalidArgument
  -- A signed product that exceeds an `int64_t` has no defined value.
  | overflow

def int64Max : Nat := 2 ^ 63 - 1

-- The products of the leading sizes do not exceed an `int64_t`.
def FitsInt64 (dims : List Nat) : Prop :=
  ∀ i, (dims.take i).prod ≤ int64Max

instance {dims : List Nat} : Decidable (FitsInt64 dims) :=
  decidable_of_iff ((List.range (dims.length + 1)).all fun i => (dims.take i).prod ≤ int64Max) (by
    simp only [List.all_eq_true, List.mem_range, decide_eq_true_eq]
    refine ⟨fun h i => ?_, fun h i _ => h i⟩
    obtain hi | hi := Nat.lt_or_ge i (dims.length + 1)
    case inl => exact h i hi
    case inr =>
      have := h dims.length (Nat.lt_succ_self _)
      rwa [List.take_length, ←List.take_of_length_le (Nat.le_of_lt hi)] at this)

def check (condition : Bool) : Except Failure Unit :=
  if condition then return else throw .check

def IsPermutation.loop (size : Nat) : List Nat → List Bool → Bool
  | [],               _    => true
  | p :: permutation, seen =>
    if size ≤ p ∨ seen.getD p false then false else loop size permutation (seen.set p true)

def isPermutation (permutation : List Nat) : Bool :=
  IsPermutation.loop permutation.length permutation (List.replicate permutation.length false)

def permute (input permutation : List Nat) : Except Failure (List Nat) := do
  check (permutation.length = input.length)
  check (isPermutation permutation)
  return permutation.map (input.getD · 0)

def inversePermutation (inputPermutation : List Nat) : List Nat :=
  (inputPermutation.zip (List.range inputPermutation.length)).foldl (fun output (p, i) => output.set p i)
    (List.replicate inputPermutation.length 0)

def composePermutations (p₁ p₂ : List Nat) : Except Failure (List Nat) := do
  check (p₁.length = p₂.length)
  return p₂.map (p₁.getD · 0)

end Shape
