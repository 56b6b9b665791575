/-
LeastSquares.Dense.Singular — singular values and right singular vectors.

`Singular` is what a thin decomposition `A = U S V'` leaves of `S` and `V`: the values in
decreasing order and, in the same order, one row of length `A.cols` for each. `jacobi`
computes it for `Float` matrices by one-sided rotations: pairs of columns are turned until all
are perpendicular; then their lengths are the singular values, and the accumulated rotation
holds the right vectors. A wide matrix is decomposed through its transpose, whose left vectors
are the right ones here. Columns of very different lengths are turned without loss.
-/
import LeastSquares.Dense

namespace LeastSquares

/-- The singular values of a matrix, largest first, and its right singular vectors as rows. -/
structure Singular (α : Type) where
  values : List α
  right : Dense α

namespace Singular

/-! ## Columns of numbers -/

/-- A column of unboxed numbers. -/
abbrev Column := FloatArray

/-- The column of the values of `f`. -/
def Column.ofFn (n : Nat) (f : Nat → Float) : Column :=
  (List.range n).foldl (fun c i => c.push (f i)) (FloatArray.emptyWithCapacity n)

/-- The number at a position. -/
def Column.entry (x : Column) (i : Nat) : Float := if h : i < x.size then x[i] else 0.0

/-- The sum of the products from position `i` on, for `n` positions. -/
def dotFrom (x y : Column) (acc : Float) (i : Nat) : Nat → Float
  | 0 => acc
  | n + 1 => dotFrom x y (acc + x.entry i * y.entry i) (i + 1) n

/-- The sum of the products. -/
def dot (x y : Column) : Float := dotFrom x y 0.0 0 x.size

/-- Is a length neither so small nor so large that its square loses digits? -/
def isModerate (size : Float) : Bool := 1e-100 < size && size < 1e100

/-- The largest magnitude of the numbers. -/
def Column.peak (x : Column) : Float :=
  x.foldl (fun m v => if m < Float.abs v then Float.abs v else m) 0.0

/-- The length of a column; numbers of extreme size are measured by the largest of them. -/
def length (x : Column) : Float :=
  let size := Float.sqrt (dot x x)
  if isModerate size then size
  else
    let top := x.peak
    if top == 0.0 then 0.0
    else
      let part := Column.ofFn x.size fun i => x.entry i / top
      top * Float.sqrt (dot part part)

/-- `x` with every entry divided by `c`. -/
def shrink (c : Float) (x : Column) : Column := Column.ofFn x.size fun i => x.entry i / c

/-- The cosine of the angle between two columns of given lengths. -/
def cosine (x y : Column) (xSize ySize : Float) : Float :=
  if isModerate xSize && isModerate ySize then dot x y / (xSize * ySize)
  else dot (shrink xSize x) (shrink ySize y)

/-- `c * x - s * y`. -/
def turn (c s : Float) (x y : Column) : Column :=
  Column.ofFn x.size fun i => c * x.entry i - s * y.entry i

/-! ## Rotations -/

/-- A column that is turned, its length, and the column of the rotation that belongs to it. -/
structure Turned where
  entries : Column
  size : Float
  rotation : Column

/-- A column with its length. -/
def Turned.make (entries rotation : Column) : Turned := ⟨entries, length entries, rotation⟩

/-- `c * x - s * y`, for the column and its part of the rotation alike. -/
def Turned.turn (c s : Float) (x y : Turned) : Turned :=
  .make (Singular.turn c s x.entries y.entries) (Singular.turn c s x.rotation y.rotation)

/-- The columns that are turned. -/
structure Turning where
  columns : Array Turned
  /-- Did the present sweep turn anything? -/
  moved : Bool

/-- Column `p`. -/
def Turning.column (t : Turning) (p : Nat) : Turned := t.columns.getD p (.make .empty .empty)

/-- Columns whose cosine is below this count as perpendicular. -/
def tolerance : Float := 1e-16

/-- The tangent of the angle by which two columns are turned, from half the difference of their
squared lengths over the product of the columns. -/
def tangentOf (zeta : Float) : Float :=
  if 1e10 < Float.abs zeta then 1.0 / (2.0 * zeta)
  else
    let size := 1.0 / (Float.abs zeta + Float.sqrt (1.0 + zeta * zeta))
    if zeta < 0.0 then -size else size

/-- Turn columns `p` and `q` until they are perpendicular. -/
def rotate (t : Turning) (p q : Nat) : Turning :=
  let x := t.column p
  let y := t.column q
  if x.size == 0.0 || y.size == 0.0 then t
  else
    let xy := cosine x.entries y.entries x.size y.size
    if Float.abs xy ≤ tolerance then t
    else
      let tangent := tangentOf ((y.size / x.size - x.size / y.size) / (2.0 * xy))
      let c := 1.0 / Float.sqrt (1.0 + tangent * tangent)
      let s := c * tangent
      { columns := (t.columns.setIfInBounds p (.turn c s x y)).setIfInBounds q (.turn c (-s) y x)
        moved := true }

/-- Turn every pair of columns once. -/
def sweep (t : Turning) : Turning :=
  let n := t.columns.size
  (List.range n).foldl
    (fun t p => (List.range (n - p - 1)).foldl (fun t k => rotate t p (p + 1 + k)) t)
    { t with moved := false }

/-- Sweep until nothing moves, at most `fuel` times. -/
def sweepAll : Nat → Turning → Turning
  | 0, t => t
  | fuel + 1, t =>
    let t := sweep t
    if t.moved then sweepAll fuel t else t

/-- The columns of a matrix, turned until perpendicular, with the rotation that did it. -/
def perpendicular (A : Dense Float) : Turning :=
  sweepAll 60
    { columns := (Array.range A.cols).map fun j =>
        .make (Column.ofFn A.rows fun i => A.get i j)
          (Column.ofFn A.cols fun i => if i = j then 1.0 else 0.0)
      moved := false }

/-! ## The decomposition -/

/-- A power of two; divided by it, no column of the matrix has an infinite length. -/
def unitOf (A : Dense Float) : Float :=
  let top := A.data.foldl (fun m x => if m < Float.abs x then Float.abs x else m) 0.0
  if top < 1e150 then 1.0 else Float.scaleB 1.0 (top.frExp.2 - 500)

/-- What is left of a column when its parts along unit columns are taken away, twice. -/
def without (basis : List Column) (x : Column) : Column :=
  let once (x : Column) := basis.foldl (fun x b => turn 1.0 (dot b x) x b) x
  once (once x)

/-- A unit column perpendicular to the given ones, tried from the axes. -/
def complete (n : Nat) (basis : List Column) : Column :=
  let axis (k : Nat) := Column.ofFn n fun i => if i = k then 1.0 else 0.0
  let candidates := (List.range n).map fun k => without basis (axis k)
  let best := candidates.foldl
    (fun (b : Column × Float) x =>
      let size := dot x x
      if b.2 < size then (x, size) else b)
    (axis 0, 0.0)
  if best.2 == 0.0 then best.1 else shrink (Float.sqrt best.2) best.1

/-- Unit columns along the given ones; a column of length zero is replaced by one
perpendicular to those before it. -/
def directions (n : Nat) (basis : List Column) : List (Float × Column) → List Column
  | [] => []
  | (size, x) :: rest =>
    let unit := if size == 0.0 then complete n basis else shrink size x
    unit :: directions n (unit :: basis) rest

/-- The lengths of the turned columns with what belongs to each, longest first. -/
def byLength (t : Turning) (companion : Turned → Column) : List (Float × Column) :=
  (t.columns.toList.map fun x => (x.size, companion x)).mergeSort fun a b => b.1 ≤ a.1

/-- The decomposition of a matrix of finite numbers by one-sided rotations. -/
def ofFinite (A : Dense Float) : Singular Float :=
  let unit := unitOf A
  let scaled := Dense.ofFn A.rows A.cols fun i j => A.get i j / unit
  let tall := A.cols ≤ A.rows
  let ordered :=
    if tall then byLength (perpendicular scaled) Turned.rotation
    else byLength (perpendicular scaled.transpose) Turned.entries
  let vectors :=
    if tall then ordered.map Prod.snd else directions A.cols [] ordered
  let table := vectors.toArray
  { values := ordered.map fun p => p.1 * unit
    right := Dense.ofFn ordered.length A.cols fun k i => (table.getD k .empty).entry i }

/-- The decomposition of a matrix with an infinite entry: its values are not numbers, and its
vectors are axes. -/
def ofInfinite (A : Dense Float) : Singular Float :=
  let count := min A.rows A.cols
  { values := List.replicate count (0.0 / 0.0)
    right := Dense.ofFn count A.cols fun k i => if k = i then 1.0 else 0.0 }

/-- The decomposition of a matrix, if all its entries are numbers. -/
def jacobi (A : Dense Float) : Option (Singular Float) :=
  if A.data.any isNaN then none
  else if A.data.all isFinite then some (ofFinite A)
  else some (ofInfinite A)

end Singular

end LeastSquares
