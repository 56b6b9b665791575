/-
LeastSquares.Columns — which columns of the Jacobian belong to which block.

Columns are given out in the order of the handles. A block that is constant, or that no
residual block uses, gets none: an empty range at the place where the walk has come to. So
the other ranges tile the columns from zero on. `check` refuses more columns than an array has.
-/
import LeastSquares.Extent
import LeastSquares.Problem

namespace LeastSquares

/-- Adjacent columns. -/
structure ColumnRange where
  start : Int
  size : Int
  deriving DecidableEq, Repr

namespace ColumnRange

/-- The first column behind the range. -/
def stop (r : ColumnRange) : Int := r.start + r.size

/-- The first column, as a position. -/
def first (r : ColumnRange) : Nat := r.start.toNat

/-- How many columns there are. -/
def width (r : ColumnRange) : Nat := r.size.toNat

/-- The columns in ascending order. -/
def columns (r : ColumnRange) : List Nat := List.range' r.first r.width

end ColumnRange

/-- A range of columns for every block. -/
structure ColumnBounds where
  ranges : Array ColumnRange
  numCols : Int
  /-- Does a block have one column for each tangent direction, or for each parameter? -/
  tangentSpace : Bool
  deriving DecidableEq, Repr

namespace ColumnBounds

/-- Adjacent ranges of given sizes, from a column on. -/
def rangesFrom (start : Int) : List Int → List ColumnRange
  | [] => []
  | size :: rest => ⟨start, size⟩ :: rangesFrom (start + size) rest

@[simp] theorem length_rangesFrom (start : Int) (sizes : List Int) :
    (rangesFrom start sizes).length = sizes.length := by
  induction sizes generalizing start with
  | nil => rfl
  | cons size rest ih => simp [rangesFrom, ih]

/-- Every range has its size and starts behind all those before it. -/
theorem getElem?_rangesFrom (start : Int) (sizes : List Int) {i : Nat} (h : i < sizes.length) :
    (rangesFrom start sizes)[i]? = some ⟨start + totalExtent (sizes.take i), sizes[i]⟩ := by
  induction sizes generalizing start i with
  | nil => simp at h
  | cons size rest ih =>
    cases i with
    | zero => simp [rangesFrom]
    | succ i =>
      rw [rangesFrom, List.getElem?_cons_succ, ih (start + size) (by simpa using h)]
      simp [Int.add_assoc]

variable {α : Type}

/-- How many columns a block gets. -/
def width (p : Problem α) (tangentSpace : Bool) (i : Nat) : Int :=
  let b := p.blockAt i
  if b.isConstant || !p.uses i then 0
  else if tangentSpace then b.tangentSize
  else b.ambientSize

/-- The columns of a problem. -/
def make (p : Problem α) (tangentSpace : Bool) : ColumnBounds :=
  let widths := (List.range p.blocks.size).map (width p tangentSpace)
  { ranges := (rangesFrom 0 widths).toArray
    numCols := totalExtent widths
    tangentSpace := tangentSpace }

/-- The columns of the block at a position. -/
def rangeAt (b : ColumnBounds) (i : Nat) : ColumnRange := b.ranges.getD i ⟨0, 0⟩

theorem size_ranges_make (p : Problem α) (tangentSpace : Bool) :
    (make p tangentSpace).ranges.size = p.blocks.size := by
  simp [make]

/-- A block of a problem gets as many columns as its width says, behind those of the blocks
before it. -/
theorem rangeAt_make (p : Problem α) (tangentSpace : Bool) {i : Nat} (h : i < p.blocks.size) :
    (make p tangentSpace).rangeAt i =
      ⟨totalExtent ((List.range i).map (width p tangentSpace)), width p tangentSpace i⟩ := by
  have hi : i < ((List.range p.blocks.size).map (width p tangentSpace)).length := by simpa using h
  simp [rangeAt, make, Array.getD_eq_getD_getElem?, getElem?_rangesFrom _ _ hi, ← List.map_take,
    List.take_range, Nat.min_eq_left (Nat.le_of_lt h)]

/-- Refuse columns that are more than an array has. -/
def check (b : ColumnBounds) : Except Fault Unit := Extent.check [b.numCols]

/-- The columns of the block that a handle names. Of a number that is not whole only its place
among the handles is known. -/
def range (b : ColumnBounds) (handle : Atom) : Except Fault ColumnRange :=
  match handle.handle? with
  | some h =>
    if 0 ≤ h ∧ h < b.ranges.size then .ok (b.rangeAt h.toNat) else .error (.noColumns handle)
  | none =>
    match handle.number? with
    | none => .error .notAHandle
    | some x =>
      if (Binary.ofInt 0).le x && !(Binary.ofInt b.ranges.size).le x then .error .notAHandle
      else .error (.noColumns handle)

/-- A position names its own columns. -/
theorem range_natCast (b : ColumnBounds) {i : Nat} (h : i < b.ranges.size) :
    b.range (.integer i) = .ok (b.rangeAt i) := by
  simp [range, Atom.handle?, h]

/-- Has the block no columns? -/
def isEmpty (b : ColumnBounds) (handle : Atom) : Except Fault Bool :=
  (b.range handle).map fun r => r.size == 0

end ColumnBounds

end LeastSquares
