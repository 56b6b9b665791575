/-
LeastSquares.Fault — why an operation gives no answer.

A fault is a cause with the values that its wording needs. Most causes are refusals of the
library and have a wording; the first group are the laws of arrays and numbers, which every
operation shares and which have none.
-/
import LeastSquares.Item

namespace LeastSquares

/-- The causes for which an operation gives no answer. -/
inductive Fault where
  /-- Two arrays whose shapes do not go together. -/
  | shapes
  /-- A position outside an array. -/
  | outside
  /-- A division of plain numbers by zero. -/
  | divisionByZero
  /-- A sparse matrix whose parts do not fit together. -/
  | malformed
  /-- A member of a request that had to be a pair is not a list. -/
  | notAList
  /-- A list of a length other than two where a pair was needed. -/
  | pairLength
  /-- Something that is no number where a handle was needed. -/
  | notANumber
  /-- A text that spells no whole number where a handle was needed. -/
  | notANumeral
  /-- Two things of which neither comes before the other. -/
  | unordered
  /-- A handle that is not a whole number. -/
  | notAHandle
  /-- A number beyond the whole numbers of sixty-four bits. -/
  | tooLarge
  /-- Dimensions that no array has. -/
  | dimensions
  /-- An array that no memory holds. -/
  | memory
  /-- The object that an operation works on was never made. -/
  | absent
  /-- A parameter vector of another length than its group's. -/
  | groupLength
  /-- The singular value iteration met something that is not a number. -/
  | noConvergence
  /-- A range cannot be split into fewer than one part. -/
  | noParts
  /-- A linear index outside the upper triangle. -/
  | outsideTriangle
  /-- Two constant coordinates of a subset manifold coincide. -/
  | duplicateConstants (constants : List Int)
  /-- A constant coordinate of a subset manifold does not exist. -/
  | constantOutOfRange (constants : List Int) (size : Int)
  /-- A retraction was made without its inverse. -/
  | noMinus
  /-- The derivative of a retraction has another shape than its sizes say. -/
  | retractionShape
  /-- A Jacobian with another number of entries than its block needs. -/
  | jacobianShape (shape : List Nat) (residuals size : Nat)
  /-- A residual block of no parameter blocks. -/
  | noBlocks
  /-- A residual block that names a parameter block twice. -/
  | repeatedBlocks (handles : List Atom)
  /-- A handle that names no parameter block. -/
  | unknownBlock (handle : Atom)
  /-- A manifold of another ambient size than its block. -/
  | manifoldSize (ambient : Int) (handle : Atom) (size : Nat)
  /-- A residual block that no thread evaluated. -/
  | notEvaluated
  /-- A projected Jacobian that is not as wide as its block's columns. -/
  | jacobianColumns
  /-- A handle without columns. -/
  | noColumns (handle : Atom)
  /-- A request that names the same block or pair more than once. -/
  | duplicates (groups : List (List Nat))
  /-- A member of a request that is no pair. -/
  | notAPair (item : Item)
  | unknownAlgorithm (name : String)
  | unknownLibrary (name : String)
  | threadCount (count : Int)
  | nullSpaceRank (rank : Int)
  | negativeConditionNumber
  /-- A query before the first computation. -/
  | notComputed
  /-- An application before the first update. -/
  | notUpdated
  /-- An operand whose length is not that of the matrix. -/
  | operandLength
  /-- A matrix whose width is not the sum of the block sizes. -/
  | matrixWidth
  /-- A preconditioner was made of no matrix. -/
  | noMatrix
  /-- A pattern that is not symmetric, or whose rows do not ascend. -/
  | asymmetric

namespace Fault

/-- Positions between round brackets, without the comma of a single one. -/
def groupText (group : List Nat) : String :=
  "(" ++ ", ".intercalate (group.map toString) ++ ")"

/-- The wording of a fault; a plain check has none. -/
def message : Fault → String
  | .duplicateConstants constants =>
    "Duplicate constant indices in subset manifold: " ++ tupleText (constants.map toString)
  | .constantOutOfRange constants size =>
    "Constant indices " ++ tupleText (constants.map toString) ++ " out of range for size " ++
      toString size
  | .noMinus => "No minus_fn was provided for this manifold."
  | .jacobianShape shape residuals size =>
    "Jacobian with shape " ++ tupleText (shape.map toString) ++ " does not match " ++
      toString residuals ++ " residuals and a parameter block of size " ++ toString size ++ "."
  | .noBlocks => "Residual blocks need at least one parameter block."
  | .repeatedBlocks handles =>
    "Residual block has repeated parameter blocks: " ++ tupleText (handles.map Atom.shown)
  | .unknownBlock handle =>
    "Parameter block " ++ handle.printed ++ " is not part of the problem."
  | .manifoldSize ambient handle size =>
    "Manifold with ambient size " ++ toString ambient ++ " can't be used for parameter block " ++
      handle.printed ++ " of size " ++ toString size ++ "."
  | .noColumns handle => "No column bounds for parameter block " ++ handle.printed ++ "."
  | .duplicates groups =>
    "compute() called with duplicate blocks at indices " ++
      " and ".intercalate (groups.map groupText)
  | .notAPair item => "Covariance blocks should be pairs, got " ++ item.printed ++ "."
  | .unknownAlgorithm name => "Unknown algorithm type: " ++ name
  | .unknownLibrary name => "Unknown sparse linear algebra library: " ++ name
  | .threadCount count => "num_threads must be positive, got " ++ toString count
  | .nullSpaceRank rank => "null_space_rank must be >= -1, got " ++ toString rank
  | .negativeConditionNumber => "min_reciprocal_condition_number must be non-negative"
  | .notComputed => "compute() must be called before querying covariances"
  | .notUpdated => "update() must be called first"
  | _ => ""

end Fault

end LeastSquares
