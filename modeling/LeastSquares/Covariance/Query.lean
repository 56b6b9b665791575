/-
LeastSquares.Covariance.Query — blocks of a computed covariance.

A block is read from the positions of its plan, in tangent coordinates, and lifted to the
parameters themselves by the Jacobians of the manifolds. The plan is that of the computation;
sizes and manifolds are those the problem has when it is asked. A joint matrix is one array,
into which threads write the blocks of the upper triangle of its handles and, below the
diagonal, their mirror images.
-/
import LeastSquares.Covariance
import LeastSquares.Triangle

namespace LeastSquares.Covariance

variable {α : Type} [Zero α] [One α] [Add α] [Sub α] [Mul α] [Div α] [NatCast α]

/-- A query's answer and its log lines. -/
def reply {β : Type} (answer : Except Fault β) (log : List Line := []) : Reply β :=
  { answer := answer, state := (), log := log }

/-- In which coordinates a block is asked for. -/
inductive Coordinates where
  | tangent
  | ambient
  deriving DecidableEq, Repr

/-- The size of a block in some coordinates. -/
def Coordinates.size : Coordinates → ParameterBlock α → Int
  | .tangent, b => b.tangentSize
  | .ambient, b => b.ambientSize

/-- The zeros of two blocks. -/
def Coordinates.zeros (coordinates : Coordinates) (a b : ParameterBlock α) : Dense α :=
  Dense.zeros (coordinates.size a).toNat (coordinates.size b).toNat

/-- Use the computed values, if there are any. -/
def whenReady {β : Type} (c : Covariance α) (f : Plan → Array α → Reply (Option β)) :
    Reply (Option β) :=
  if c.computed then
    match c.estimate with
    | .ready plan values => f plan values
    | _ => reply (.ok none) [.unavailable]
  else reply (.error .notComputed)

/-- The block whose rows start at given positions. -/
def readBlock (values : Array α) (offsets : List Nat) (width : Nat) : Dense α :=
  let table := offsets.toArray
  Dense.ofFn offsets.length width fun i j => values.getD (table.getD i 0 + j) 0

/-- A block in tangent coordinates, moved to the parameters. -/
def lift (a b : ParameterBlock α) (same : Bool) (block : Dense α) : Except Fault (Dense α) := do
  let left ←
    match a.manifold with
    | none => .ok block
    | some _ => do (← a.plusJacobian).mul? block
  let both ←
    match b.manifold with
    | none => .ok left
    | some _ => do left.mul? (← b.plusJacobian).transpose
  return if same then both.symmetrized else both

/-- Is the covariance of two blocks known to be zero? -/
def isZero (bounds : ColumnBounds) (a b : Atom) : Except Fault Bool := do
  if ← bounds.isEmpty a then return true
  bounds.isEmpty b

/-- The covariance of the blocks that two handles name, of which one without columns makes it
zero. -/
def blockIn (plan : Plan) (values : Array α) (problem : Problem α) (coordinates : Coordinates)
    (a b : Atom) : Reply (Option (Dense α)) :=
  match problem.position a with
  | .error e => reply (.error e)
  | .ok i =>
    match problem.position b with
    | .error e => reply (.error e)
    | .ok j =>
      match isZero plan.bounds a b with
      | .error e => reply (.error e)
      | .ok true =>
        reply (.ok (some (coordinates.zeros (problem.blockAt i) (problem.blockAt j))))
      | .ok false =>
        match plan.offsets a b with
        | .error e => reply (.error e)
        | .ok none => reply (.ok none) [.notRequested a b]
        | .ok (some offsets) =>
          let block := readBlock values offsets (plan.bounds.rangeAt j).width
          match coordinates with
          | .tangent => reply (.ok (some block))
          | .ambient =>
            reply ((lift (problem.blockAt i) (problem.blockAt j) (i = j) block).map some)

/-- The covariance of two blocks; nothing if it was not requested or could not be computed. -/
def block (c : Covariance α) (problem : Problem α) (coordinates : Coordinates) (a b : Atom) :
    Reply (Option (Dense α)) :=
  c.whenReady fun plan values => blockIn plan values problem coordinates a b

/-! ## Joint matrices -/

/-- Does a dimension of a block go into a place of a declared size? -/
def goesInto (size : Int) (operand : Nat) : Bool := Stretch.fits size.toNat operand

/-- A block of the upper triangle, checked to go into its place. -/
def blockOfPair (plan : Plan) (values : Array α) (problem : Problem α)
    (coordinates : Coordinates) (handles : Array Atom) (sizes : Array Int) (k : Nat) :
    List Line × Except Fault (Option (Dense α)) :=
  let (i, j) := Triangle.pair handles.size k
  let found := blockIn plan values problem coordinates (handles.getD i .null)
    (handles.getD j .null)
  match found.answer with
  | .ok (some B) =>
    if goesInto (sizes.getD i 0) B.rows && goesInto (sizes.getD j 0) B.cols then
      (found.log, .ok (some B))
    else (found.log, .error .shapes)
  | answer => (found.log, answer)

/-- The entry of a block at a place; a dimension of size one stretches. -/
def stretched (B : Dense α) (u v : Nat) : α :=
  B.get (Stretch.index B.rows u) (Stretch.index B.cols v)

/-- Where the members of a joint matrix start, and at last where they end. -/
structure Layout where
  starts : Array Nat

namespace Layout

/-- Members of given sizes, one behind the other. -/
def ofSizes (sizes : List Nat) : Layout := ⟨(runningSums 0 sizes).toArray⟩

/-- How many members there are. -/
def members (l : Layout) : Nat := l.starts.size - 1

/-- The first row and the first column of a member. -/
def start (l : Layout) (i : Nat) : Nat := l.starts.getD i 0

/-- How many rows and columns a member has. -/
def size (l : Layout) (i : Nat) : Nat := l.start (i + 1) - l.start i

/-- How many rows and columns all members have. -/
def side (l : Layout) : Nat := l.start l.members

/-- The places of the block of two members, row by row. -/
def cells (l : Layout) (i j : Nat) : List (Nat × Nat) :=
  (List.range (l.size i)).flatMap fun u => (List.range (l.size j)).map fun v => (u, v)

/-- The number of an entry of the block of two members among those of the whole matrix. -/
def entry (l : Layout) (i j : Nat) (cell : Nat × Nat) : Nat :=
  (l.start i + cell.1) * l.side + (l.start j + cell.2)

/-- Write the block of two members. -/
def write (l : Layout) (i j : Nat) (f : Nat → Nat → α) (entries : Array α) : Array α :=
  (l.cells i j).foldl (fun entries cell =>
    entries.setIfInBounds (l.entry i j cell) (f cell.1 cell.2)) entries

end Layout

/-- A joint matrix while threads write it: its entries, row by row, and a mark for every pair
without a block. -/
structure Canvas (α : Type) where
  entries : Array α
  missing : Array Bool

namespace Canvas

/-- Nothing is written yet. -/
def blank (l : Layout) : Canvas α :=
  ⟨Array.replicate (l.side * l.side) 0, Array.replicate (Triangle.count l.members) false⟩

/-- Write the block of a pair and, for two members, its mirror image; or mark the pair. -/
def put (l : Layout) (k : Nat) (found : Option (Dense α)) : Canvas α → Canvas α
  | ⟨entries, missing⟩ =>
    match found with
    | none => ⟨entries, missing.setIfInBounds k true⟩
    | some B =>
      let (i, j) := Triangle.pair l.members k
      let written := l.write i j (stretched B) entries
      if i = j then ⟨written, missing⟩
      else ⟨l.write j i (fun v u => stretched B u v) written, missing⟩

/-- The matrix, unless a pair is marked. -/
def finished (l : Layout) (canvas : Canvas α) : Option (Dense α) :=
  if canvas.missing.any id then none else some (.ofArray l.side l.side canvas.entries)

end Canvas

/-- The joint covariance of some blocks, in the order given. -/
def matrixIn (schedule : Schedule) (threads : Int) (plan : Plan) (values : Array α)
    (problem : Problem α) (coordinates : Coordinates) (handles : List Atom) :
    Reply (Option (Dense α)) :=
  match handles.mapM problem.block with
  | .error e => reply (.error e)
  | .ok blocks =>
    let sizes := blocks.map coordinates.size
    let layout := Layout.ofSizes (sizes.map Int.toNat)
    let task := blockOfPair plan values problem coordinates handles.toArray sizes.toArray
    match Parallel.collect schedule (Triangle.count handles.length) threads task
      (Canvas.put layout) (Canvas.blank layout) with
    | (shared, some e) => reply (.error e) shared.notes.toList
    | (shared, none) => reply (.ok (shared.memory.finished layout)) shared.notes.toList

/-- The joint covariance of some blocks; nothing if one of them was not requested or nothing
could be computed. -/
def matrix (engine : Engine α) (c : Covariance α) (problem : Problem α)
    (coordinates : Coordinates) (handles : List Atom) : Reply (Option (Dense α)) :=
  c.whenReady fun plan values =>
    matrixIn engine.schedule c.options.threads plan values problem coordinates handles

end LeastSquares.Covariance
