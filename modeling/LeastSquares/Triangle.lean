/-
LeastSquares.Triangle — the upper triangle of a square, counted row by row.

Row `i` of the triangle of side `n` holds the pairs `(i, i)`, …, `(i, n - 1)`. `position`
finds the pair with a given number by taking whole rows away from it.
-/
import LeastSquares.Fault

namespace LeastSquares.Triangle

/-- How many pairs `(i, j)` with `i ≤ j < n` there are. -/
def count (n : Nat) : Nat := n * (n + 1) / 2

/-- The pair with number `k` in the rows from `i` on, the first of which holds `width` pairs. -/
def walk (i : Nat) : Nat → Nat → Nat × Nat
  | 0, k => (i, i + k)
  | width + 1, k => if k < width + 1 then (i, i + k) else walk (i + 1) width (k - (width + 1))

/-- The pair with number `k`. -/
def pair (n k : Nat) : Nat × Nat := walk 0 n k

/-- The number of a pair. -/
def index (n i j : Nat) : Nat := i * n - i * (i - 1) / 2 + (j - i)

/-- The pair with number `k`, if there is one. -/
def position (k : Int) (n : Nat) : Except Fault (Nat × Nat) :=
  if 0 ≤ k ∧ k < (count n : Int) then .ok (pair n k.toNat) else .error .outsideTriangle

end LeastSquares.Triangle
