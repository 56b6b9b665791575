/-
LeastSquares.Engine — what an estimate relies on beside its own arithmetic.

An engine decomposes a matrix into singular values, factors a symmetric matrix for solving, runs
threads in some order, and prints numbers in log lines. A library for Cholesky factorisations is
part of it where one is installed. What an estimate computes is stated for every engine; what it
needs of one is a hypothesis on the engine. `Engine.native` is the one that runs.
-/
import LeastSquares.Decimal.Scientific
import LeastSquares.Parallel
import LeastSquares.Dense.Singular
import LeastSquares.Sparse.Cholesky
import LeastSquares.Sparse.Elimination

namespace LeastSquares

/-- A factored symmetric matrix: its pivots, and the solution for any right sides. -/
structure Factorization (α : Type) where
  pivots : List α
  solve : Dense α → Dense α

/-- The services of linear algebra, of the thread pool and of the printer. -/
structure Engine (α : Type) where
  schedule : Schedule
  /-- No decomposition is found for a matrix with an entry that is not a number. -/
  singular : Dense α → Option (Singular α)
  /-- An exactly singular matrix has no factorisation. -/
  factor : Symmetric α → Option (Factorization α)
  /-- The library for Cholesky factorisations, if one is installed. -/
  cholesky : Option (CholeskyLibrary α)
  /-- A number with three digits behind the point and an exponent. -/
  scientific : α → String

/-- The factorisation that takes the pivots in the order of the rows. -/
def Symmetric.factorization {α : Type} [Zero α] [Add α] [Sub α] [Neg α] [Mul α] [Div α] [BEq α]
    (A : Symmetric α) : Option (Factorization α) :=
  A.factor.map fun stages => ⟨stages.map Stage.pivot, solveColumns stages⟩

/-- The factorisation by a Cholesky factor. -/
def CholeskyLibrary.factorization {α : Type} [Zero α] [Mul α] (library : CholeskyLibrary α)
    (c : Cholesky α) : Factorization α :=
  ⟨c.pivots, library.solve c⟩

/-- One-sided rotations, elimination without row exchanges, no Cholesky factorisations, and threads
run in order. -/
def Engine.native : Engine Float where
  schedule := .inOrder
  singular := Singular.jacobi
  factor := Symmetric.factorization
  cholesky := none
  scientific := Decimal.scientific 3

end LeastSquares
