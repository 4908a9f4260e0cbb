import Mathlib.Tactic
import XlaModel.Shape.Util

namespace Shape

variable {τ : Type}

-- An access within the bounds.
def required (a? : Option α) : Except Failure α :=
  match a? with
  | some a => return a
  | none   => throw .check

section DeleteDimension

def deleteDimension.shift (dimToDelete d : Nat) : Nat :=
  if dimToDelete < d then d - 1 else d

def deleteDimensionOfLayout (minorToMajor : List Nat) (dimToDelete : Nat) : List Nat :=
  (minorToMajor.filter (· ≠ dimToDelete)).map (deleteDimension.shift dimToDelete)

theorem deleteDimensionOfLayout_of_lt {ds : List Nat} {d : Nat} (h : ∀ e ∈ ds, e < d) : deleteDimensionOfLayout ds d = ds := by
  have hs (e) (he : e ∈ ds) : deleteDimension.shift d e = e := if_neg (Nat.not_lt_of_gt (h e he))
  have hf : ds.filter (· ≠ d) = ds := List.filter_eq_self.mpr fun e he => by simpa using (h e he).ne
  rw [deleteDimensionOfLayout, hf, List.map_congr_left hs, List.map_id']

theorem deleteDimensionOfLayout_range (d k : Nat) :
    deleteDimensionOfLayout (List.range (d + 1 + k)) d = List.range (d + k) := by
  have hd := deleteDimensionOfLayout_of_lt (d := d) fun e => List.mem_range.mp
  have hk : deleteDimensionOfLayout ((List.range k).map (d + 1 + ·)) d = (List.range k).map (d + ·) := by
    have hf : ((List.range k).map (d + 1 + ·)).filter (· ≠ d) = (List.range k).map (d + 1 + ·) := by
      refine List.filter_eq_self.mpr fun e he => ?_
      obtain ⟨i, _, rfl⟩ := List.mem_map.mp he
      simpa using (by omega : d + 1 + i ≠ d)
    rw [deleteDimensionOfLayout, hf, List.map_map]
    refine List.map_congr_left fun i _ => ?_
    have hlt : d < d + 1 + i := by omega
    have hs : d + 1 + i - 1 = d + i := by omega
    rw [Function.comp_apply, deleteDimension.shift, if_pos hlt, hs]
  rw [deleteDimensionOfLayout] at hd hk ⊢
  rw [List.range_add, List.range_succ, List.filter_append, List.filter_append, List.map_append, List.map_append, hd, hk,
    List.range_add]
  simp

theorem deleteDimensionOfLayout_perm {minorToMajor : List Nat} {n d : Nat} (h : minorToMajor.Perm (List.range n)) :
    (deleteDimensionOfLayout minorToMajor d).Perm (List.range (if d < n then n - 1 else n)) := by
  have hp : (deleteDimensionOfLayout minorToMajor d).Perm (deleteDimensionOfLayout (List.range n) d) :=
    (h.filter _).map _
  refine hp.trans (.of_eq ?_)
  split_ifs with hd
  case pos =>
    obtain ⟨k, rfl⟩ := Nat.exists_eq_add_of_le hd
    have hn : d + 1 + k - 1 = d + k := by omega
    rw [hn]
    exact deleteDimensionOfLayout_range d k
  case neg =>
    exact deleteDimensionOfLayout_of_lt fun e he => (List.mem_range.mp he).trans_le (Nat.le_of_not_lt hd)

def deleteDimension (s : Shape τ) (dimToDelete : Nat) : Shape τ where
  elementType  := s.elementType
  dimensions   := s.dimensions.eraseIdx dimToDelete
  minorToMajor := deleteDimensionOfLayout s.minorToMajor dimToDelete
  perm         := by
    rw [List.length_eraseIdx]
    exact deleteDimensionOfLayout_perm s.perm

end DeleteDimension

def hasDegenerateDimensions (s : Shape τ) : Bool :=
  s.dimensions.contains 1

-- The dimensions are deleted from the last one to the first one.
def dropDegenerateDimensions (s : Shape τ) : Shape τ :=
  ((List.range s.rank).filter (s.dimension · = 1)).foldr (fun d s => s.deleteDimension d) s

namespace CommonFactors

def equalPrefix : List Nat → List Nat → Nat
  | x :: a, y :: b => if x = y then equalPrefix a b + 1 else 0
  | _,      _      => 0

structure State where
  i            : Nat
  j            : Nat
  priorI       : Int
  priorJ       : Int
  partialSizeA : Nat
  partialSizeB : Nat
  bounds       : List (Nat × Nat)

def nextA (a b : List Nat) (s : State) : Bool :=
  let inBoundsI := s.i < a.length
  let inBoundsJ := s.j < b.length
  s.partialSizeA < s.partialSizeB || inBoundsI && (!inBoundsJ ||
    s.partialSizeA == s.partialSizeB && a.getD s.i 0 ≤ b.getD s.j 0)

def nextB (a b : List Nat) (s : State) : Bool :=
  let inBoundsI := s.i < a.length
  let inBoundsJ := s.j < b.length
  s.partialSizeB < s.partialSizeA || inBoundsJ && (!inBoundsI ||
    s.partialSizeB == s.partialSizeA && b.getD s.j 0 ≤ a.getD s.i 0)

def advanceA (a : List Nat) (s : State) : Except Failure State := do
  return { s with partialSizeA := s.partialSizeA * (← required a[s.i]?), i := s.i + 1 }

def advanceB (b : List Nat) (s : State) : Except Failure State := do
  return { s with partialSizeB := s.partialSizeB * (← required b[s.j]?), j := s.j + 1 }

def advance (a b : List Nat) (s : State) : Except Failure State := do
  let s' ← if nextA a b s then advanceA a s else pure s
  if nextB a b s then advanceB b s' else return s'

def loop (a b : List Nat) : Nat → State → Except Failure (List (Nat × Nat))
  | 0,        _ => throw .check
  | fuel + 1, s =>
    if s.partialSizeA = s.partialSizeB ∧ (s.i > s.priorI ∨ s.j > s.priorJ) then
      loop a b fuel { s with priorI := s.i, priorJ := s.j, bounds := s.bounds ++ [(s.i, s.j)] }
    else if ¬(s.i < a.length ∨ s.j < b.length) then
      return s.bounds
    else do
      loop a b fuel (← advance a b s)

end CommonFactors

open CommonFactors in
-- The products are exact. The fuel suffices for two iterations for each dimension.
def commonFactors (a b : List Nat) : Except Failure (List (Nat × Nat)) := do
  check (a.prod = b.prod)
  if a = b then
    return (List.range (a.length + 1)).map fun i => (i, i)
  let i := equalPrefix a b
  let bounds := (List.range i).map fun i => (i, i)
  if (a.drop i).prod ≠ (b.drop i).prod then
    return [(0, 0), (a.length, b.length)]
  if (a.drop i).prod = 0 then
    return bounds ++ [(i, i), (a.length, b.length)]
  loop a b (2 * (a.length + b.length) + 2) ⟨i, i, i - 1, i - 1, 1, 1, bounds⟩

-- The products that are computed: those of leading sizes, and of leading sizes behind the equal ones.
def CommonFactors.ProductsFit (a b : List Nat) : Prop :=
  FitsInt64 a ∧ FitsInt64 b ∧
    (a ≠ b → FitsInt64 (a.drop (equalPrefix a b)) ∧ FitsInt64 (b.drop (equalPrefix a b)))

instance {a b : List Nat} : Decidable (CommonFactors.ProductsFit a b) :=
  inferInstanceAs (Decidable (_ ∧ _ ∧ (_ → _)))

-- The common factors with the products of the machine.
def commonFactorsInt64 (a b : List Nat) : Except Failure (List (Nat × Nat)) :=
  if CommonFactors.ProductsFit a b then commonFactors a b else throw .overflow

namespace AlignLayouts

-- Whether the input dimensions up to the end of the factor are physically consecutive. Also returns the factor of each
-- dimension.
def consecutive (minorToMajor : List Nat) (pos : Nat) : Nat → Nat → Nat → List Nat → Option (List Nat)
  | 0,     _, _,             inputToFactor => some inputToFactor
  | n + 1, i, inputPhysical, inputToFactor =>
    if inputPhysical = 0 ∨ minorToMajor[inputPhysical - 1]? ≠ some i then none
    else consecutive minorToMajor pos n (i + 1) (inputPhysical - 1) (inputToFactor.set i pos)

def factor (minorToMajor : List Nat) (commonFactors : List (Nat × Nat)) (inputToFactor : List Nat) (pos : Nat) :
    Option (List Nat) :=
  let inputStart := (commonFactors.getD pos (0, 0)).1
  let inputEnd   := (commonFactors.getD (pos + 1) (0, 0)).1
  consecutive minorToMajor pos (inputEnd - (inputStart + 1)) (inputStart + 1) (minorToMajor.idxOf inputStart)
    (inputToFactor.set inputStart pos)

-- Each iteration appends the dimensions of a factor. Hence the fuel is enough if it exceeds the rank of the output.
def outputLayout (minorToMajor : List Nat) (commonFactors : List (Nat × Nat)) (inputToFactor : List Nat)
    (outputRank : Nat) : Nat → Nat → List Nat → Except Failure (List Nat)
  | 0,        _,          _      => throw .check
  | fuel + 1, inputMinor, layout =>
    if layout.length < outputRank then do
      let inputDim ← required minorToMajor[inputMinor]?
      let commonFactor ← required inputToFactor[inputDim]?
      let startFactor ← required commonFactors[commonFactor]?
      let endFactor ← required commonFactors[commonFactor + 1]?
      let dims := (List.range' startFactor.2 (endFactor.2 - startFactor.2)).reverse
      outputLayout minorToMajor commonFactors inputToFactor outputRank fuel
        (inputMinor + (endFactor.1 - startFactor.1)) (layout ++ dims)
    else return layout

end AlignLayouts

-- The layout of a shape is a permutation.
def makeShapeWithDenseLayout (elementType : τ) (dimensions minorToMajor : List Nat) : Except Failure (Shape τ) :=
  if perm : minorToMajor.Perm (List.range dimensions.length) then
    return { elementType, dimensions, minorToMajor, perm }
  else throw .invalidArgument

open AlignLayouts

-- Neither shape has degenerate dimensions.
def alignNonDegenerateLayouts [DecidableEq τ] (input output : Shape τ) : Except Failure (Option (Shape τ)) := do
  let commonFactors ← commonFactorsInt64 input.dimensions output.dimensions
  match (List.range (commonFactors.length - 1)).foldlM (factor input.minorToMajor commonFactors)
      (List.replicate input.rank 0) with
  | none               => return none
  | some inputToFactor =>
    let layout ← outputLayout input.minorToMajor commonFactors inputToFactor output.rank (output.rank + 1) 0 []
    let outputShapeWithLayout ← makeShapeWithDenseLayout output.elementType output.dimensions layout
    check (reshapeIsBitcast input outputShapeWithLayout false)
    return some outputShapeWithLayout

-- The layout of the output is not used.
def alignLayouts [DecidableEq τ] (input output : Shape τ) : Except Failure (Option (Shape τ)) := do
  if hasDegenerateDimensions input || hasDegenerateDimensions output then
    let some simpleOutputShape ←
      alignNonDegenerateLayouts (dropDegenerateDimensions input) (dropDegenerateDimensions output) | return none
    let dimMap := (List.range output.rank).filter (output.dimension · ≠ 1)
    let layout ← simpleOutputShape.minorToMajor.mapM fun d => required dimMap[d]?
    let ones := ((List.range output.rank).filter (output.dimension · = 1)).reverse
    return some (← makeShapeWithDenseLayout output.elementType output.dimensions (layout ++ ones))
  else
    alignNonDegenerateLayouts input output

end Shape
