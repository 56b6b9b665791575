/-
LeastSquares.Problem.Jacobian — the Jacobian of the stacked residuals over the free columns.

Each residual block is evaluated on its own: its Jacobians are corrected for its loss and
projected onto the tangent space of every block that has a manifold. The blocks are evaluated
in parallel; their pieces are then put below each other in the order of the residual blocks,
each piece in the columns of its parameter block.
-/
import LeastSquares.Columns
import LeastSquares.Sparse.Triplets

namespace LeastSquares.Problem

variable {α : Type} [Zero α] [One α] [Add α] [Sub α] [Mul α] [Div α] [NatCast α] [BEq α]
  [LE α] [DecidableLE α] [Elementary α]

/-- For each block its projection onto the tangent space, where it has a manifold and
columns. -/
def projections (p : Problem α) (bounds : ColumnBounds) :
    Except Fault (Array (Option (Dense α))) := do
  let found ← (List.range p.blocks.size).mapM fun i =>
    match (p.blockAt i).manifold with
    | none => .ok none
    | some m => do
      if ← bounds.isEmpty (.integer i) then return none
      return some (← m.plusJacobian (p.blockAt i).values)
  return found.toArray

/-- The Jacobians of a residual block, each multiplied by the projection of its block. -/
def project (projections : Array (Option (Dense α))) :
    List Nat → List (Dense α) → Except Fault (List (Dense α))
  | i :: blocks, J :: Js => do
    let projected ←
      match projections.getD i none with
      | some P => J.mul? P
      | none => .ok J
    return projected :: (← project projections blocks Js)
  | _, _ => .ok []

/-- A residual block after evaluation: how many residuals it has, and its Jacobians. -/
structure Evaluated (α : Type) where
  residuals : Nat
  jacobians : List (Dense α)

/-- Evaluate one residual block. -/
def evaluate (p : Problem α) (projections : Array (Option (Dense α))) (applyLoss : Bool)
    (r : ResidualBlock α) : Except Fault (Evaluated α) := do
  let (residual, jacobians) ← r.cost.evaluate (p.valuesOf r)
  let corrected ←
    match applyLoss, r.cost.loss with
    | true, some loss => loss.correct residual jacobians
    | _, _ => .ok jacobians
  return ⟨residual.size, ← project projections r.blocks corrected⟩

/-- A matrix with the row and the column of its first entry in a larger one. -/
structure Piece (α : Type) where
  row : Nat
  col : Nat
  entries : Dense α

namespace Piece

/-- The entries of a piece at their places in the larger matrix. -/
def triplets (piece : Piece α) : List (Triplet α) :=
  (List.range piece.entries.rows).flatMap fun i =>
    (List.range piece.entries.cols).map fun j =>
      ⟨piece.row + i, piece.col + j, piece.entries.get i j⟩

end Piece

/-- The pieces of one residual block; a block without columns has none. -/
def piecesOf (bounds : ColumnBounds) (row residuals : Nat) :
    List Nat → List (Dense α) → Except Fault (List (Piece α))
  | i :: blocks, J :: Js => do
    let range ← bounds.range (.integer i)
    if range.size = 0 then piecesOf bounds row residuals blocks Js
    else if J.rows = residuals ∧ (J.cols : Int) = range.size then
      return ⟨row, range.first, J⟩ :: (← piecesOf bounds row residuals blocks Js)
    else .error .jacobianColumns
  | _, _ => .ok []

/-- The pieces of all residual blocks from a row on, with the row behind the last. -/
def stack (bounds : ColumnBounds) (row : Nat) :
    List (ResidualBlock α × Evaluated α) → Except Fault (Nat × List (Piece α))
  | [] => .ok (row, [])
  | (r, e) :: rest => do
    let pieces ← piecesOf bounds row e.residuals r.blocks e.jacobians
    let (last, more) ← stack bounds (row + e.residuals) rest
    return (last, pieces ++ more)

/-- The results of all slots, if every slot was filled. -/
def filled {β : Type} (results : Array (Option β)) : Except Fault (List β) :=
  match results.toList.mapM id with
  | some found => .ok found
  | none => .error .notEvaluated

/-- Evaluate the residual block with a number; there is nothing to note. -/
def evaluateAt (p : Problem α) (projections : Array (Option (Dense α))) (applyLoss : Bool)
    (i : Nat) : List Unit × Except Fault (Evaluated α) :=
  match p.residuals[i]? with
  | some r => ([], p.evaluate projections applyLoss r)
  | none => ([], .error .notEvaluated)

/-- The evaluated residual blocks, in order. -/
def evaluateAll (p : Problem α) (schedule : Schedule) (bounds : ColumnBounds)
    (applyLoss : Bool) (threads : Int) : Except Fault (List (Evaluated α)) := do
  let projections ← p.projections bounds
  let n := p.residuals.size
  let task := p.evaluateAt projections applyLoss
  match Parallel.collect schedule n threads task Parallel.intoSlot (Array.replicate n none) with
  | (_, some e) => .error e
  | (shared, none) => filled shared.memory

/-- The Jacobian over the given columns. Its log line is missing when no residual block
touches a block that has columns. -/
def jacobian (p : Problem α) (schedule : Schedule) (bounds : ColumnBounds) (applyLoss : Bool)
    (threads : Int) : Reply (Compressed α) :=
  let stacked : Except Fault (Nat × List (Piece α)) := do
    let evaluated ← p.evaluateAll schedule bounds applyLoss threads
    stack bounds 0 (p.residuals.toList.zip evaluated)
  match stacked with
  | .error e => { answer := .error e, state := () }
  | .ok (rows, pieces) =>
    let columns := bounds.numCols.toNat
    let matrix := (Triplets.mk rows columns (pieces.flatMap Piece.triplets)).compress
    { answer := .ok matrix
      state := ()
      log :=
        if pieces.isEmpty then []
        else [.evaluated p.residuals.size rows columns matrix.pattern.nonzeros] }

end LeastSquares.Problem
