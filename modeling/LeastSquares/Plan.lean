/-
LeastSquares.Plan — which entries of the covariance will be computed.

A plan is made of a request alone. A requested pair of blocks fills the columns of either in
every row of the other, so the pattern is symmetric; a block without columns takes no part.
Column ranges ascend with the handles, so the partners of a block in ascending order give the
ascending columns of its rows.
-/
import LeastSquares.Columns
import LeastSquares.Request
import LeastSquares.Sparse.Pattern

namespace LeastSquares

/-- The positions that will hold the requested covariance, and the columns of each block. -/
structure Plan where
  pattern : Pattern
  bounds : ColumnBounds

namespace Plan

/-- An ascending list without its repetitions. -/
def distinct : List Nat → List Nat
  | [] => []
  | x :: xs =>
    match distinct xs with
    | [] => [x]
    | y :: ys => if x = y then y :: ys else x :: y :: ys

@[simp] theorem mem_distinct {n : Nat} (xs : List Nat) : n ∈ distinct xs ↔ n ∈ xs := by
  induction xs with
  | nil => simp [distinct]
  | cons x xs ih =>
    rw [distinct, List.mem_cons, ← ih]
    split
    · simp_all
    · rename_i y ys h
      split
      · rename_i hxy
        simp [hxy, h]
      · simp [h]

/-- The members of a list in ascending order, each of them once. -/
def ascending (xs : List Nat) : List Nat := distinct (xs.mergeSort fun a b => a ≤ b)

@[simp] theorem mem_ascending {n : Nat} (xs : List Nat) : n ∈ ascending xs ↔ n ∈ xs := by
  rw [ascending, mem_distinct, List.mem_mergeSort]

/-- Make two blocks partners of each other, if both have columns. -/
def addPair (bounds : ColumnBounds) (partners : Array (List Nat)) (pair : Nat × Nat) :
    Array (List Nat) :=
  if (bounds.rangeAt pair.1).width = 0 ∨ (bounds.rangeAt pair.2).width = 0 then partners
  else (partners.modify pair.1 (pair.2 :: ·)).modify pair.2 (pair.1 :: ·)

/-- The partners of every block, ascending. -/
def partners (bounds : ColumnBounds) (pairs : List (Nat × Nat)) : Array (List Nat) :=
  (pairs.foldl (addPair bounds) (Array.replicate bounds.ranges.size [])).map ascending

/-- The columns that every row of a block stores. -/
def rowColumns (bounds : ColumnBounds) (partners : List Nat) : List Nat :=
  partners.flatMap fun j => (bounds.rangeAt j).columns

/-- The plan of requested pairs. -/
def ofPairs (bounds : ColumnBounds) (pairs : List (Nat × Nat)) : Plan :=
  let partners := partners bounds pairs
  let rows := (List.range bounds.ranges.size).flatMap fun i =>
    List.replicate (bounds.rangeAt i).width (rowColumns bounds (partners.getD i []))
  { pattern := Pattern.ofRows bounds.numCols.toNat rows, bounds := bounds }

variable {α : Type}

/-- An item as a pair of blocks of a problem. -/
def resolve (p : Problem α) (item : Item) : Except Fault (Nat × Nat) :=
  match item.members? with
  | none => .error .notAList
  | some [a, b] => do
    let i ← p.position a
    let j ← p.position b
    return (i, j)
  | some _ => .error (.notAPair item)

/-- The blocks of a request: pairs of handles of the problem, none of them twice. -/
def accept (p : Problem α) (items : List Item) : Except Fault (List (Nat × Nat)) := do
  let pairs ← items.mapM (resolve p)
  Request.checkDistinct (pairs.map Request.unordered)
  return pairs

/-- The plan of a request. -/
def make (p : Problem α) (items : List Item) : Reply Plan :=
  match accept p items with
  | .error e => { answer := .error e, state := () }
  | .ok pairs =>
    let bounds := ColumnBounds.make p true
    match bounds.check with
    | .error e => { answer := .error e, state := () }
    | .ok () =>
      let plan := ofPairs bounds pairs
      { answer := .ok plan
        state := ()
        log := [.planned pairs.length plan.pattern.numCols plan.pattern.nonzeros] }

/-- The first position of a row whose column is not below `column`, if its column is that. -/
def offsetInRow (p : Pattern) (row column : Nat) : Option Nat :=
  let k := (p.rowColumns row).findIdx fun c => column ≤ c
  if (p.rowColumns row)[k]? = some column then some (p.start row + k) else none

/-- For every row of block `a`, the position where the columns of block `b` start. -/
def offsets (plan : Plan) (a b : Atom) : Except Fault (Option (List Nat)) := do
  let rows ← plan.bounds.range a
  let cols ← plan.bounds.range b
  return rows.columns.mapM fun row => offsetInRow plan.pattern row cols.first

end Plan

end LeastSquares
