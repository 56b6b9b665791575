/-
LeastSquares.Dense.Elimination — Gaussian elimination, one stage for each unknown.

A stage keeps what eliminating one unknown used: which row came first, its pivot, the rest of
that row, and the multiples of it that were taken from the other rows. A factorisation is the
list of its stages, and solving is a recursion on that list: take the multiples from the right
side on the way down, substitute on the way up. The row with the largest leading entry comes
first.
-/
import LeastSquares.Dense

namespace LeastSquares.Elimination

variable {α : Type} [Zero α] [One α] [Add α] [Sub α] [Neg α] [Mul α] [Div α] [BEq α] [LT α]
  [DecidableLT α]

/-- The elimination of one unknown. -/
structure Stage (α : Type) where
  /-- Which of the remaining rows came first. -/
  chosen : Nat
  pivot : α
  /-- The pivot row behind the pivot. -/
  row : List α
  /-- The multiple of the pivot row that was taken from each other row. -/
  multiples : List α

/-- Exchange the head of a list with its member at a position. -/
def bringFirst {β : Type} (k : Nat) : List β → List β
  | [] => []
  | x :: xs =>
    match k with
    | 0 => x :: xs
    | k + 1 =>
      match xs[k]? with
      | none => x :: xs
      | some y => y :: xs.set k x

/-- Where a magnitude larger than the best so far is found, from position `k` on. -/
def largestFrom (best : α) (at_ : Nat) : Nat → List α → Nat
  | _, [] => at_
  | k, x :: xs =>
    if best < magnitude x then largestFrom (magnitude x) k (k + 1) xs
    else largestFrom best at_ (k + 1) xs

/-- The position of the first entry of largest magnitude. -/
def largest : List α → Nat
  | [] => 0
  | x :: xs => largestFrom (magnitude x) 0 1 xs

/-- The leading entry of a row. -/
def lead (row : List α) : α := row.headD 0

/-- What is left of a row when a multiple of the pivot row is taken from it. -/
def reduce (pivotRow : List α) (multiple : α) (row : List α) : List α :=
  if multiple == 0 then row
  else List.zipWith (fun x p => x - multiple * p) row pivotRow

/-- Eliminate `n` unknowns from as many rows; `none` when a pivot is exactly zero. -/
def factor : Nat → List (List α) → Option (List (Stage α))
  | 0, _ => some []
  | n + 1, rows =>
    let chosen := largest (rows.map lead)
    match bringFirst chosen rows with
    | [] => none
    | top :: rest =>
      let pivot := lead top
      if pivot == 0 then none
      else
        let multiples := rest.map fun row => lead row / pivot
        let reduced := List.zipWith (fun m row => reduce top.tail m row.tail) multiples rest
        match factor n reduced with
        | none => none
        | some stages => some (⟨chosen, pivot, top.tail, multiples⟩ :: stages)

/-- The sum of products, from the left. -/
def dot : α → List α → List α → α
  | acc, x :: xs, y :: ys => dot (acc + x * y) xs ys
  | acc, _, _ => acc

/-- The unknowns of a factored system with a given right side. -/
def solve : List (Stage α) → List α → List α
  | [], _ => []
  | stage :: stages, b =>
    match bringFirst stage.chosen b with
    | [] => []
    | top :: rest =>
      let xs := solve stages (List.zipWith (fun y m => y - m * top) rest stage.multiples)
      (top - dot 0 stage.row xs) / stage.pivot :: xs

/-- The unit column with its one at position `k`. -/
def unitColumn (n k : Nat) : List α := (List.range n).map fun i => if i = k then 1 else 0

/-- The inverse of a square matrix, if no pivot is exactly zero. -/
def inverse? (A : Dense α) : Option (Dense α) :=
  match factor A.rows A.toRows with
  | none => none
  | some stages =>
    let columns := (List.range A.rows).map fun k => solve stages (unitColumn A.rows k)
    some (Dense.ofRows A.rows columns).transpose

end LeastSquares.Elimination
