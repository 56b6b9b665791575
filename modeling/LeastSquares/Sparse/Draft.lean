/-
LeastSquares.Sparse.Draft — a compressed-row matrix as a caller writes it.

The parts of a draft are whole numbers of any sign and arrays of any length. Its sizes and its row
slices are read off as they stand; only an operation on the entries asks whether the parts are
those of a matrix.
-/
import LeastSquares.Extent
import LeastSquares.Sparse.Compressed

namespace LeastSquares

/-- The parts of a compressed-row matrix. -/
structure Draft (α : Type) where
  numRows : Int
  numCols : Int
  starts : Array Int
  columns : Array Int
  values : Array α

namespace Draft

variable {α : Type}

/-- A draft of parts that sixty-four bits hold. -/
def make (numRows numCols : Int) (starts columns : Array Int) (values : Array α) :
    Except Fault (Draft α) :=
  (Extent.checkWords (starts.toList ++ columns.toList)).map fun _ =>
    ⟨numRows, numCols, starts, columns, values⟩

/-- The pattern of a draft without negative parts. -/
def pattern? (d : Draft α) : Option Pattern :=
  if 0 ≤ d.numRows ∧ 0 ≤ d.numCols ∧ d.starts.all (fun i => 0 ≤ i) ∧
      d.columns.all (fun j => 0 ≤ j) then
    some ⟨d.numRows.toNat, d.numCols.toNat, d.starts.map Int.toNat, d.columns.map Int.toNat⟩
  else none

/-- The matrix of a draft whose parts fit together. -/
def matrix (d : Draft α) : Except Fault (Compressed α) :=
  match d.pattern? with
  | none => .error .malformed
  | some p => (p.checkArrays d.values.size).map fun _ => ⟨p, d.values⟩

/-- The start at an index, which counts from the end when it is negative. -/
def startAt (d : Draft α) (i : Int) : Except Fault Int :=
  let k := if i < 0 then i + d.starts.size else i
  if k < 0 then .error .outside
  else
    match d.starts[k.toNat]? with
    | some n => .ok n
    | none => .error .outside

/-- How many positions the starts promise. -/
def nonzeros (d : Draft α) : Except Fault Int := d.startAt (-1)

/-- Where a row starts and stops. -/
def rowSlice (d : Draft α) (row : Int) : Except Fault (Int × Int) := do
  let start ← d.startAt row
  let stop ← d.startAt (row + 1)
  return (start, stop)

/-- For each stored entry the position of the transposed one. -/
def transposePermutation (d : Draft α) : Except Fault (List Nat) :=
  if d.numRows = d.numCols then do
    let _ ← d.nonzeros
    match d.pattern? with
    | none => .error .malformed
    | some p => p.transposePermutation
  else .error .asymmetric

variable [Zero α] [Add α] [Mul α]

/-- The matrix with all its entries. -/
def toDense (d : Draft α) : Except Fault (Dense α) := d.matrix.map Compressed.dense

/-- `y + A x`; the lengths are compared before anything else. -/
def multiplyAdd (schedule : Schedule) (threads : Int) (d : Draft α) (x y : Array α) :
    Except Fault (Array α) :=
  if (x.size : Int) = d.numCols ∧ (y.size : Int) = d.numRows then do
    (← d.matrix).multiplyAdd schedule threads x y
  else .error .operandLength

/-- `A x`. -/
def multiply (schedule : Schedule) (threads : Int) (d : Draft α) (x : Array α) :
    Except Fault (Array α) := do
  Extent.check [d.numRows]
  d.multiplyAdd schedule threads x (Array.replicate d.numRows.toNat 0)

end Draft

end LeastSquares
