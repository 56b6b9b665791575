/-
LeastSquares.Sparse.Symmetric — symmetric matrices by the entries above the diagonal.

A sparse row lists values with their columns in ascending order; its entry at a column is the sum
of the values there. A symmetric matrix has one sparse row for every row, with the columns from
the diagonal on, and what it is used for is adding outer products `v v'`: the normal matrix
`J'J` is the sum of those of the rows of `J`, and eliminating an unknown takes one away.
-/
import LeastSquares.Sparse.Compressed

namespace LeastSquares

/-- Values with their columns, ascending. -/
abbrev SparseRow (α : Type) := List (Nat × α)

namespace SparseRow

variable {α : Type}

/-- The entry at a column. -/
def entry [Zero α] [Add α] (row : SparseRow α) (j : Nat) : α :=
  row.foldl (fun acc p => if p.1 = j then acc + p.2 else acc) 0

/-- The second row with a multiple of the first one added to it. -/
def addMultiple [Add α] [Mul α] (factor : α) : SparseRow α → SparseRow α → SparseRow α
  | [], ys => ys
  | (j, x) :: xs, [] => (j, factor * x) :: addMultiple factor xs []
  | (j, x) :: xs, (k, y) :: ys =>
    if j < k then (j, factor * x) :: addMultiple factor xs ((k, y) :: ys)
    else if k < j then (k, y) :: addMultiple factor ((j, x) :: xs) ys
    else (k, y + factor * x) :: addMultiple factor xs ys
termination_by xs ys => xs.length + ys.length

end SparseRow

/-- A symmetric matrix by its rows from the diagonal on. -/
structure Symmetric (α : Type) where
  rows : Array (SparseRow α)

namespace Symmetric

variable {α : Type}

/-- How many rows there are. -/
def size (A : Symmetric α) : Nat := A.rows.size

/-- The stored part of a row. -/
def row (A : Symmetric α) (i : Nat) : SparseRow α := A.rows.getD i []

/-- The entry in row `i` and column `j`. -/
def get [Zero α] [Add α] (A : Symmetric α) (i j : Nat) : α := (A.row (min i j)).entry (max i j)

/-- The matrix of zeros. -/
def zeros (n : Nat) : Symmetric α := ⟨Array.replicate n []⟩

@[simp] theorem size_zeros (n : Nat) : (zeros n : Symmetric α).size = n := by
  simp [size, zeros]

/-- Add to the entries `(i, j)` the products `weight vᵢ * vⱼ`. -/
def addOuter [Add α] [Mul α] (weight : α → α) : SparseRow α → Symmetric α → Symmetric α
  | [], A => A
  | (i, x) :: rest, A =>
    addOuter weight rest ⟨A.rows.modify i (SparseRow.addMultiple (weight x) ((i, x) :: rest))⟩

@[simp] theorem size_addOuter [Add α] [Mul α] (weight : α → α) (v : SparseRow α)
    (A : Symmetric α) : (addOuter weight v A).size = A.size := by
  induction v generalizing A with
  | nil => rfl
  | cons p rest ih =>
    rw [addOuter, ih]
    simp [size]

end Symmetric

namespace Compressed

variable {α : Type}

/-- The stored entries of a row. -/
def sparseRow [Zero α] (A : Compressed α) (i : Nat) : SparseRow α :=
  (A.pattern.positions i).map fun k => (A.pattern.column k, A.value k)

/-- The product of the transpose with the matrix, whose rows ascend. -/
def normal [Zero α] [Add α] [Mul α] (A : Compressed α) : Symmetric α :=
  (List.range A.pattern.numRows).foldl (fun N i => N.addOuter id (A.sparseRow i))
    (Symmetric.zeros A.pattern.numCols)

end Compressed

end LeastSquares
