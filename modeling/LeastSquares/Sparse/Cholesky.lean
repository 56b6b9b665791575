/-
LeastSquares.Sparse.Cholesky — a symmetric matrix as a lower triangle times its transpose.

Such a factorisation comes from a library, which may be installed or not; what it computes is not
part of this project, and everything that is asked of it is a field of `CholeskyLibrary`. The
library rearranges the rows and columns first: row `p` of the triangle stands for row `order p` of
the matrix. Solving takes the right sides in that order, goes down with the triangle and up with
its transpose, and puts every row of the solution back to where it belongs.
-/
import LeastSquares.Sparse.Compressed

namespace LeastSquares

namespace Dense

variable {α : Type} [Zero α]

/-- The rows of a matrix in some order. -/
def takeRows (order : List Nat) (B : Dense α) : Dense α :=
  let table := order.toArray
  ofFn order.length B.cols fun p k => B.get (table.getD p 0) k

/-- The rows of a matrix, put back from some order. -/
def putRows (order : List Nat) (W : Dense α) : Dense α :=
  ofFn W.rows W.cols fun i k => W.get (order.idxOf i) k

end Dense

/-- A lower triangle whose product with its transpose is a rearranged matrix. -/
structure Cholesky (α : Type) where
  lower : Dense α
  /-- Which row of the matrix each row of the triangle stands for. -/
  order : List Nat
  square : lower.cols = lower.rows
  perm : order.Perm (List.range lower.rows)

/-- The pivots of the factorisation without roots: the squares of the diagonal. -/
def Cholesky.pivots {α : Type} [Zero α] [Mul α] (c : Cholesky α) : List α :=
  (List.range c.lower.rows).map fun i => c.lower.get i i * c.lower.get i i

/-- What is asked of the libraries for Cholesky factorisations and for triangular systems. -/
structure CholeskyLibrary (α : Type) where
  /-- The factor of `A A'` for the matrix `A` whose columns are given, compressed; or the words in
  which the library refuses it. -/
  factor : (columns : Compressed α) → Except String (Cholesky α)
  solveLower : (triangle right : Dense α) → Dense α
  solveUpper : (triangle right : Dense α) → Dense α

/-- The solutions of a factored system for some right sides. -/
def CholeskyLibrary.solve {α : Type} [Zero α] (library : CholeskyLibrary α) (c : Cholesky α)
    (B : Dense α) : Dense α :=
  let W := library.solveLower c.lower (B.takeRows c.order)
  (library.solveUpper c.lower.transpose W).putRows c.order

end LeastSquares
