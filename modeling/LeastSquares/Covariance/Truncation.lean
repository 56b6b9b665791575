/-
LeastSquares.Covariance.Truncation — the inverse of the normal matrix from singular values.

With `J = U S V'` the inverse of `J'J` is the sum of `v v' / s ^ 2` over the singular
directions. A direction whose singular value is small beside the largest one is null. Either
a fixed number of the smallest directions is dropped, and a null one among the others is a
failure, or all directions from the first null one on are dropped.
-/
import LeastSquares.Covariance.Options
import LeastSquares.Dense.Singular
import LeastSquares.Sparse.Pattern

namespace LeastSquares.Truncation

variable {α : Type} [Zero α] [One α] [Add α] [Mul α] [Div α] [NatCast α] [BEq α] [LT α]
  [DecidableLT α] [Elementary α]

/-- The ratio of a singular value to the largest; zero where that is not positive. -/
def ratio (top s : α) : α := if 0 < top then s / top else 0

/-- One over the squares of the singular values up to the first null one, and zero from there
on; none if a null one may not be dropped. -/
def reciprocals (automatic : Bool) (limit top : α) : List α → Option (List α)
  | [] => some []
  | s :: rest =>
    if ratio top s < limit then
      if automatic then some (List.replicate (rest.length + 1) 0) else none
    else (reciprocals automatic limit top rest).map (1 / (s * s) :: ·)

/-- How many directions may be kept. -/
def maxRank (directions : Nat) (nullSpaceRank : Int) : Nat :=
  (min (directions : Int) (directions - nullSpaceRank)).toNat

/-- The weight of every direction in the inverse. -/
def weights (options : Options α) (values : List α) : Option (List α) :=
  let rank := maxRank values.length options.nullSpaceRank
  let limit := Elementary.sqrt options.minReciprocalCondition
  (reciprocals (options.nullSpaceRank < 0) limit (values.headD 0) (values.take rank)).map
    (· ++ List.replicate (values.length - rank) 0)

/-- The ratio of the first null direction. -/
def firstNullRatio (options : Options α) (values : List α) : α :=
  ((values.map (ratio (values.headD 0))).find? fun r =>
    r < Elementary.sqrt options.minReciprocalCondition).getD 0

/-- How many directions have a weight. -/
def rank (weights : List α) : Nat := weights.countP fun w => !(w == 0)

/-- The entry in row `i` and column `j` of the sum of `v v'` over the directions, each with its
weight; the mean with the transposed entry makes it exactly symmetric. -/
def inverse (weights : Array α) (right : Dense α) (i j : Nat) : α :=
  let sum (i j : Nat) :=
    sumTo weights.size fun k => right.get k i * weights.getD k 0 * right.get k j
  half * (sum i j + sum j i)

/-- The values of `entry` at the positions of a pattern, row by row. -/
def gather (entry : Nat → Nat → α) (p : Pattern) : Array α :=
  ((List.range p.numRows).flatMap fun i => (p.rowColumns i).map (entry i)).toArray

end LeastSquares.Truncation
