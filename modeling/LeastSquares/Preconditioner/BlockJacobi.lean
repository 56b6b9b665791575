/-
LeastSquares.Preconditioner.BlockJacobi — the inverses of the diagonal blocks.

The preconditioner of `A'A + diag(D)^2` inverts one diagonal block for each parameter block.
The blocks lie in adjacent spans; a size may be negative, and then the next span starts further
back, where an end before zero counts from the back of the matrix. An update that fails at some
block keeps the inverses of the last update that did not.
-/
import LeastSquares.Dense.Elimination
import LeastSquares.Item.Whole
import LeastSquares.Log
import LeastSquares.Sparse.Draft
import LeastSquares.Tensor

namespace LeastSquares

/-- Block sizes, and the inverses of the last successful update. -/
structure BlockJacobi (α : Type) where
  blockSizes : List Int
  inverses : Option (List (Dense α)) := none

namespace BlockJacobi

variable {α : Type}

/-- The span of every block. -/
def spans (b : BlockJacobi α) : List Span := Span.adjacent 0 b.blockSizes

/-- The sum of the block sizes. -/
def numRows (b : BlockJacobi α) : Int := totalExtent b.blockSizes

/-- A preconditioner of blocks whose sizes are written as numbers; the ends of the spans are
whole numbers of sixty-four bits. -/
def make (sizes : List Atom) : Except Fault (BlockJacobi α) := do
  let made : BlockJacobi α := ⟨← sizes.mapM Atom.whole, none⟩
  Extent.checkWords (made.spans.map Span.stop)
  return made

/-- The entries that a span picks. -/
def slice (x : Array α) (s : Span) : Array α :=
  let (first, count) := s.pick x.size
  x.extract first (first + count)

section Apply

variable [Zero α] [Add α] [Mul α]

/-- Add `z` to the entries of `y` from `start` on, as many as `count`. -/
def addSlice (y : Array α) (start : Nat) (z : Array α) : Nat → Array α
  | 0 => y
  | k + 1 =>
    let y := addSlice y start z k
    y.setIfInBounds (start + k) (y.getD (start + k) 0 + z.getD (Stretch.index z.size k) 0)

/-- Apply inverted blocks to the entries in their spans. -/
def applyBlocks (x : Array α) : List (Span × Dense α) → Array α → Except Fault (Array α)
  | [], y => .ok y
  | (s, B) :: rest, y =>
    let part := slice x s
    let (start, room) := s.pick y.size
    if part.size = B.cols ∧ Stretch.fits room B.rows then
      applyBlocks x rest (addSlice y start (B.mulVec part) room)
    else .error .shapes

/-- `y + z`, where every inverted block gives its part of `z` from the same part of `x`. -/
def multiplyAdd (b : BlockJacobi α) (x y : Array α) : Except Fault (Array α) :=
  match b.inverses with
  | none => .error .notUpdated
  | some inverses => applyBlocks x (b.spans.zip inverses) y

/-- The preconditioned column of numbers. -/
def apply (b : BlockJacobi α) (x : Array α) : Except Fault (Array α) := do
  Extent.check [b.numRows]
  b.multiplyAdd x (Array.replicate b.numRows.toNat 0)

end Apply

section Update

variable [Zero α] [One α] [Add α] [Sub α] [Neg α] [Mul α] [Div α] [BEq α] [LT α] [DecidableLT α]

/-- The diagonal block of `A'A` in the columns that a span picks. -/
def gramBlock (A : Compressed α) (s : Span) : Dense α :=
  let (first, count) := s.pick A.pattern.numCols
  Dense.ofFn count count fun i j => A.gramEntry (first + i) (first + j)

/-- Add the squares of a damping to the diagonal; a damping of one entry stretches, diagonal
and all, over the whole block. -/
def damp (damping : Option (Array α)) (s : Span) (B : Dense α) : Except Fault (Dense α) :=
  match damping with
  | none => .ok B
  | some D =>
    let d := slice D s
    if Stretch.fits B.rows d.size then
      .ok (Dense.ofFn B.rows B.cols fun i j =>
        let u := Stretch.index d.size i
        let v := Stretch.index d.size j
        B.get i j + if u = v then d.getD u 0 * d.getD u 0 else 0)
    else .error .shapes

/-- The inverse of a block, if it has one of finite numbers. -/
def finiteInverse? (B : Dense α) : Option (Dense α) :=
  match Elimination.inverse? B with
  | none => none
  | some I => if I.data.all isFinite then some I else none

/-- Invert the blocks in some spans, the first of which has number `index`, up to the first
block that has no inverse. -/
def invertFrom (A : Compressed α) (damping : Option (Array α)) (index : Nat) :
    List Span → Except Fault (Except Nat (List (Dense α)))
  | [] => .ok (.ok [])
  | s :: rest =>
    match damp damping s (gramBlock A s) with
    | .error e => .error e
    | .ok B =>
      match finiteInverse? B with
      | none => .ok (.error index)
      | some I =>
        match invertFrom A damping (index + 1) rest with
        | .ok (.ok inverses) => .ok (.ok (I :: inverses))
        | other => other

/-- Take the inverses of a new matrix and damping; the answer says whether all blocks have
one. -/
def update (b : BlockJacobi α) (A : Compressed α) (damping : Option (Array α)) :
    Outcome (BlockJacobi α) Bool :=
  match A.check with
  | .error e => { answer := .error e, state := b }
  | .ok () =>
    if (A.pattern.numCols : Int) = b.numRows then
      match invertFrom A damping 0 b.spans with
      | .error e => { answer := .error e, state := b }
      | .ok (.error index) =>
        { answer := .ok false, state := b, log := [.singularBlock index] }
      | .ok (.ok inverses) =>
        { answer := .ok true, state := { b with inverses := some inverses } }
    else { answer := .error .matrixWidth, state := b }

end Update

end BlockJacobi

end LeastSquares
