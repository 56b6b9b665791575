/-
LeastSquares.Preconditioner — preconditioners by name, and a matrix used as one.

Some preconditioners eliminate a group of blocks first; a problem without such a group uses
the diagonal blocks instead. A preconditioner that is a matrix already at hand, for example a
computed covariance, is applied by multiplication.
-/
import LeastSquares.Sparse.Compressed

namespace LeastSquares.Preconditioner

/-- The preconditioner that takes the place of one that needs blocks to eliminate, when there
are none. -/
def withoutEliminated (name : String) : String :=
  if name = "schur_jacobi" ∨ name = "cluster_jacobi" ∨ name = "cluster_tridiagonal" then
    "jacobi"
  else name

variable {α : Type} [Zero α] [Add α] [Mul α]

/-- The product of a matrix with a column of numbers. -/
def applyMatrix (schedule : Schedule) (threads : Int) (A : Compressed α) (x : Array α) :
    Except Fault (Array α) :=
  A.multiplyAdd schedule threads x (Array.replicate A.pattern.numRows 0)

/-- The product of a matrix that may not be there. -/
def applyMatrix? (schedule : Schedule) (threads : Int) (A : Option (Compressed α))
    (x : Array α) : Except Fault (Array α) :=
  match A with
  | none => .error .noMatrix
  | some A => applyMatrix schedule threads A x

end LeastSquares.Preconditioner
