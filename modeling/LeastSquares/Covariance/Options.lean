/-
LeastSquares.Covariance.Options — how a covariance is to be computed.

Options are made of what a caller writes. The first thing written that makes no sense is
refused.
-/
import LeastSquares.Fault

namespace LeastSquares

/-- How the normal equations are inverted. -/
inductive Algorithm where
  /-- Singular values of the dense Jacobian, which may be rank deficient. -/
  | denseSvd
  /-- A sparse factorisation, for full column rank. -/
  | sparseQr
  deriving DecidableEq, Repr

/-- Which library factors a sparse matrix. -/
inductive Library where
  /-- A Cholesky factorisation, where one is installed. -/
  | cholesky
  /-- Elimination with diagonal pivots. -/
  | elimination
  deriving DecidableEq, Repr

/-- The spellings of the algorithms. -/
def Algorithm.ofName? : String → Option Algorithm
  | "dense_svd" => some .denseSvd
  | "sparse_qr" => some .sparseQr
  | _ => none

/-- The spellings of the libraries. -/
def Library.ofName? : String → Option Library
  | "suite_sparse" => some .cholesky
  | "scipy" => some .elimination
  | _ => none

/-- The spelling of a library. -/
def Library.name : Library → String
  | .cholesky => "suite_sparse"
  | .elimination => "scipy"

/-- How a covariance is to be computed. -/
structure Options (α : Type) where
  algorithm : Algorithm
  library : Library
  /-- Squared singular values, or pivots, whose ratio to the largest is below this are null. -/
  minReciprocalCondition : α
  /-- How many directions are dropped; `-1` drops all that are null. -/
  nullSpaceRank : Int
  threads : Int
  /-- Are the Jacobians corrected for their losses? -/
  applyLoss : Bool

namespace Options

variable {α : Type} [Zero α] [LT α] [DecidableLT α]

/-- Options as a caller writes them. -/
def make (algorithm library : String) (minReciprocalCondition : α)
    (nullSpaceRank threads : Int) (applyLoss : Bool) : Except Fault (Options α) :=
  match Algorithm.ofName? algorithm, Library.ofName? library with
  | none, _ => .error (.unknownAlgorithm algorithm)
  | _, none => .error (.unknownLibrary library)
  | some algorithm, some library =>
    if threads < 1 then .error (.threadCount threads)
    else if nullSpaceRank < -1 then .error (.nullSpaceRank nullSpaceRank)
    else if minReciprocalCondition < 0 then .error .negativeConditionNumber
    else
      .ok ⟨algorithm, library, minReciprocalCondition, nullSpaceRank, threads, applyLoss⟩

end Options

end LeastSquares
