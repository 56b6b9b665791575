/-
LeastSquares.Sparse.Elimination — elimination of the unknowns of a symmetric system in order.

Eliminating unknown `k` takes the outer product of the rest of its row, divided by the pivot,
from the rows behind it. A factorisation is the list of its stages, each a pivot with the row
behind it, and solving is a recursion on that list: take the multiples from the right side on
the way down, substitute on the way up.
-/
import LeastSquares.Sparse.Symmetric

namespace LeastSquares.Symmetric

/-- The elimination of one unknown. -/
structure Stage (α : Type) where
  pivot : α
  /-- The row behind the pivot. -/
  rest : SparseRow α

variable {α : Type} [Zero α] [Add α] [Sub α] [Neg α] [Mul α] [Div α] [BEq α]

/-- Eliminate `count` unknowns from number `k` on; none when a pivot is exactly zero. -/
def factorFrom (k : Nat) : (count : Nat) → Symmetric α → Option (List (Stage α))
  | 0, _ => some []
  | count + 1, A =>
    match A.row k with
    | [] => none
    | (j, pivot) :: rest =>
      if j = k ∧ !(pivot == 0) then
        (factorFrom (k + 1) count (addOuter (fun x => -(x / pivot)) rest A)).map
          (⟨pivot, rest⟩ :: ·)
      else none

/-- Eliminate all unknowns. -/
def factor (A : Symmetric α) : Option (List (Stage α)) := factorFrom 0 A.size A

/-- Take the multiples of a stage from a right side, where the stage's own entry is `top`. -/
def carry (stage : Stage α) (top : α) (b : Array α) : Array α :=
  if top == 0 then b
  else stage.rest.foldl (fun b p => b.modify p.1 fun y => y - p.2 / stage.pivot * top) b

/-- The unknowns from number `k` on, in place of the right side. -/
def solveFrom (k : Nat) : List (Stage α) → Array α → Array α
  | [], b => b
  | stage :: stages, b =>
    let top := b.getD k 0
    let x := solveFrom (k + 1) stages (carry stage top b)
    let known := stage.rest.foldl (fun acc p => acc + p.2 * x.getD p.1 0) 0
    x.setIfInBounds k ((top - known) / stage.pivot)

/-- The unknowns of a factored system for a right side. -/
def solve (stages : List (Stage α)) (b : Array α) : Array α := solveFrom 0 stages b

/-- The solutions for the columns of a matrix. -/
def solveColumns (stages : List (Stage α)) (B : Dense α) : Dense α :=
  let solved := (List.range B.cols).map fun k =>
    solve stages (Array.ofFn fun (i : Fin B.rows) => B.get i k)
  let table := solved.toArray
  Dense.ofFn B.rows B.cols fun i k => (table.getD k #[]).getD i 0

end LeastSquares.Symmetric
