/-
LeastSquares.Covariance.Selective — the entries of an inverse that a pattern asks for.

Column `r` of the inverse is the solution for the unit column `r`. Only the rows of the pattern
that store something are solved for; they are split across threads, and each thread solves for
at most `chunkSize` of its rows at a time.
-/
import LeastSquares.Engine
import LeastSquares.Sparse.Pattern

namespace LeastSquares.Selective

/-- How many right sides are solved for together. -/
def chunkSize : Nat := 128

/-- A list cut into pieces of `size` members; the last one may be shorter. -/
def chunks {β : Type} (size : Nat) (xs : List β) : List (List β) :=
  if xs.length = 0 ∨ size = 0 then []
  else xs.take size :: chunks size (xs.drop size)
termination_by xs.length
decreasing_by
  simp only [List.length_drop]
  omega

/-- The rows of a pattern that store something. -/
def storedRows (p : Pattern) : List Nat :=
  (List.range p.numRows).filter fun i => p.rowLength i != 0

variable {α : Type} [Zero α] [One α]

/-- The unit columns of some rows, next to each other. -/
def unitColumns (n : Nat) (rows : List Nat) : Dense α :=
  let table := rows.toArray
  Dense.ofFn n rows.length fun i k => if table[k]? = some i then 1 else 0

/-- The stored entries of row `row`, read from column `k` of a solution. -/
def readColumn (p : Pattern) (X : Dense α) (row k : Nat) : List α :=
  (p.rowColumns row).map fun c => X.get c k

/-- Put the entries of the rows of one chunk into their slots. -/
def scatter (p : Pattern) (rows : Array Nat) (X : Dense α) :
    Nat → List Nat → Array (List α) → Array (List α)
  | _, [], slots => slots
  | k, i :: rest, slots =>
    scatter p rows X (k + 1) rest (slots.setIfInBounds i (readColumn p X (rows.getD i 0) k))

/-- Solve for the rows of one chunk. -/
def solveChunk (solve : Dense α → Dense α) (p : Pattern) (rows : Array Nat)
    (slots : Array (List α)) (chunk : List Nat) : Array (List α) :=
  let X := solve (unitColumns p.numRows (chunk.map fun i => rows.getD i 0))
  scatter p rows X 0 chunk slots

/-- Solve for the rows of one part, chunk by chunk. -/
def solvePart (solve : Dense α → Dense α) (p : Pattern) (rows : Array Nat) :
    Parallel.Worker (Array (List α)) Fault :=
  fun part slots =>
    ((chunks chunkSize part.naturals).foldl (solveChunk solve p rows) slots, none)

/-- The entries of the inverse at the positions of a pattern. -/
def invert (schedule : Schedule) (threads : Int) (solve : Dense α → Dense α) (p : Pattern) :
    Array α :=
  let rows := (storedRows p).toArray
  let slots := (Parallel.run schedule ⟨0, rows.size⟩ threads (solvePart solve p rows)
    (Array.replicate rows.size [])).1
  slots.toList.flatten.toArray

section Pivots

variable [Neg α] [Div α] [BEq α] [LT α] [DecidableLT α] [LE α] [DecidableLE α]

/-- The largest of some numbers; a number that is none wins. -/
def largest : List α → α
  | [] => 0
  | x :: xs =>
    xs.foldl (fun m y => if isNaN m then m else if isNaN y then y else if m < y then y else m) x

/-- The smallest of some numbers; a number that is none wins. -/
def smallest : List α → α
  | [] => 0
  | x :: xs =>
    xs.foldl (fun m y => if isNaN m then m else if isNaN y then y else if y < m then y else m) x

/-- The ratio of the smallest to the largest magnitude of the pivots. -/
def pivotRatio (pivots : List α) : α :=
  let sizes := pivots.map magnitude
  let top := largest sizes
  if 0 < top then smallest sizes / top else 0

/-- Are the pivots far enough from zero? -/
def wellConditioned (limit : α) (pivots : List α) : Bool :=
  let r := pivotRatio pivots
  0 < r && limit ≤ r

end Pivots

end LeastSquares.Selective
