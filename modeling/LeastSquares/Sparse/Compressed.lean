/-
LeastSquares.Sparse.Compressed — compressed-row matrices.

A matrix is a pattern with a value for each position. Its entry in a row and column is the sum
of the values stored there, so columns may come in any order and more than once. Multiplying
adds, for every row, the product of the row with a column of numbers; rows are split across
threads.
-/
import LeastSquares.Sparse.Pattern
import LeastSquares.Dense
import LeastSquares.Parallel

namespace LeastSquares

/-- A matrix stored by the non-zero entries of its rows. -/
structure Compressed (α : Type) where
  pattern : Pattern
  values : Array α

namespace Compressed

variable {α : Type} [Zero α] [Add α] [Mul α]

/-- The value at a position. -/
def value (A : Compressed α) (position : Nat) : α := A.values.getD position 0

/-- The sum of `f` over some positions, from the left. -/
def sumOver (f : Nat → α) : List Nat → α := List.foldl (fun acc k => acc + f k) 0

/-- The entry in row `i` and column `j`. -/
def entry (A : Compressed α) (i j : Nat) : α :=
  sumOver A.value ((A.pattern.positions i).filter fun k => A.pattern.column k == j)

/-- Do the parts of the matrix fit together? -/
def check (A : Compressed α) : Except Fault Unit := A.pattern.checkArrays A.values.size

/-- The matrix with all its entries. -/
def dense (A : Compressed α) : Dense α :=
  Dense.ofFn A.pattern.numRows A.pattern.numCols A.entry

/-- The stored entries of a row with their columns, in column order of the dense matrix. -/
def denseRow [BEq α] (A : Dense α) (i : Nat) : List (Nat × α) :=
  (List.range A.cols).filterMap fun j =>
    let x := A.get i j
    if x == 0 then none else some (j, x)

/-- The matrix that stores the entries of a dense one which are not zero. -/
def ofDense [BEq α] (A : Dense α) : Compressed α :=
  let rows := (List.range A.rows).map (denseRow A)
  { pattern := Pattern.ofRows A.cols (rows.map fun row => row.map Prod.fst)
    values := (rows.flatMap fun row => row.map Prod.snd).toArray }

/-- The product of row `i` with a column of numbers. -/
def rowDot (A : Compressed α) (x : Array α) (i : Nat) : α :=
  sumOver (fun k => A.value k * x.getD (A.pattern.column k) 0) (A.pattern.positions i)

/-- Add the products of some rows to their entries of `y`. -/
def addRows (A : Compressed α) (x : Array α) : List Nat → Array α → Array α
  | [], y => y
  | i :: rest, y => addRows A x rest (y.setIfInBounds i (y.getD i 0 + A.rowDot x i))

/-- `y + A x`, with the rows split across threads. -/
def multiplyAdd (schedule : Schedule) (threads : Int) (A : Compressed α) (x y : Array α) :
    Except Fault (Array α) :=
  if x.size = A.pattern.numCols ∧ y.size = A.pattern.numRows then
    match A.check with
    | .error e => .error e
    | .ok () =>
      let worker : Parallel.Worker (Array α) Fault :=
        fun part y => (A.addRows x part.naturals y, none)
      match Parallel.run schedule ⟨0, A.pattern.numRows⟩ threads worker y with
      | (y, none) => .ok y
      | (_, some e) => .error e
  else .error .operandLength

/-- Entry `(i, j)` of the product of the transpose with the matrix: rows that store both
columns contribute, and no others. -/
def gramEntry (A : Compressed α) (i j : Nat) : α :=
  sumTo A.pattern.numRows fun r =>
    if A.pattern.Stores r i ∧ A.pattern.Stores r j then A.entry r i * A.entry r j else 0

end Compressed

end LeastSquares
