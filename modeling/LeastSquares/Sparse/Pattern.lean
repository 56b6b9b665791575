/-
LeastSquares.Sparse.Pattern — which entries of a compressed-row matrix are stored.

A pattern lists, for every row, where its stored positions start, and for every position its
column. `rowColumns` is the view that the other definitions are stated with, and `ofRows` makes
the pattern of a given view. `transposePermutation` pairs the position of each entry with the
position of its transposed entry, for a symmetric pattern whose rows ascend.
-/
import LeastSquares.Scalar
import LeastSquares.Fault

namespace LeastSquares

/-- `start`, and `start` with each longer and longer front of `sizes` added. -/
def runningSums (start : Nat) : List Nat → List Nat
  | [] => [start]
  | n :: rest => start :: runningSums (start + n) rest

@[simp] theorem length_runningSums (start : Nat) (sizes : List Nat) :
    (runningSums start sizes).length = sizes.length + 1 := by
  induction sizes generalizing start with
  | nil => rfl
  | cons n rest ih => simp [runningSums, ih]

theorem getElem?_runningSums (start : Nat) (sizes : List Nat) {i : Nat} (h : i ≤ sizes.length) :
    (runningSums start sizes)[i]? = some (start + totalSize (sizes.take i)) := by
  induction sizes generalizing start i with
  | nil =>
    obtain rfl : i = 0 := by simpa using h
    simp [runningSums]
  | cons n rest ih =>
    cases i with
    | zero => simp [runningSums]
    | succ i =>
      rw [runningSums, List.getElem?_cons_succ, ih (start + n) (by simpa using h)]
      simp [Nat.add_assoc]

/-- The stored positions of a matrix, row by row. -/
structure Pattern where
  numRows : Nat
  numCols : Nat
  /-- Where each row starts; one more entry tells where the last one stops. -/
  starts : Array Nat
  /-- The column of each position. -/
  columns : Array Nat
  deriving DecidableEq, Repr

namespace Pattern

/-- The pattern whose row `i` stores the columns `rows[i]`. -/
def ofRows (numCols : Nat) (rows : List (List Nat)) : Pattern where
  numRows := rows.length
  numCols := numCols
  starts := (runningSums 0 (rows.map List.length)).toArray
  columns := rows.flatten.toArray

/-- The pattern without positions. -/
def empty (numRows numCols : Nat) : Pattern := ofRows numCols (List.replicate numRows [])

/-- Where row `i` starts. -/
def start (p : Pattern) (i : Nat) : Nat := p.starts.getD i 0

theorem start_ofRows (numCols : Nat) (rows : List (List Nat)) {i : Nat} (h : i ≤ rows.length) :
    (ofRows numCols rows).start i = totalSize ((rows.take i).map List.length) := by
  have hi : i ≤ (rows.map List.length).length := by simpa using h
  simp [start, ofRows, Array.getD_eq_getD_getElem?, getElem?_runningSums _ _ hi, List.map_take]

/-- How many positions row `i` has. -/
def rowLength (p : Pattern) (i : Nat) : Nat := p.start (i + 1) - p.start i

theorem rowLength_ofRows (numCols : Nat) (rows : List (List Nat)) {i : Nat}
    (h : i < rows.length) : (ofRows numCols rows).rowLength i = rows[i].length := by
  rw [rowLength, start_ofRows _ _ (by omega), start_ofRows _ _ (by omega),
    ← List.take_append_getElem h, List.map_append, totalSize_append]
  simp

/-- The positions of row `i`. -/
def positions (p : Pattern) (i : Nat) : List Nat := List.range' (p.start i) (p.rowLength i)

/-- The column of a position. -/
def column (p : Pattern) (position : Nat) : Nat := p.columns.getD position 0

theorem column_ofRows (numCols : Nat) (rows : List (List Nat)) (k : Nat) :
    (ofRows numCols rows).column k = rows.flatten[k]?.getD 0 := by
  simp [column, ofRows, Array.getD_eq_getD_getElem?]

/-- The stored columns of row `i`. -/
def rowColumns (p : Pattern) (i : Nat) : List Nat := (p.positions i).map p.column

/-- Row `i` of the pattern of given rows stores the columns of the one given. -/
theorem rowColumns_ofRows (numCols : Nat) (rows : List (List Nat)) {i : Nat}
    (h : i < rows.length) : (ofRows numCols rows).rowColumns i = rows[i] := by
  apply List.ext_getElem
  · simp [rowColumns, positions, rowLength_ofRows _ _ h]
  · intro k hk hk'
    have hstart := start_ofRows numCols rows (Nat.le_of_lt h)
    have hsplit : rows.flatten =
        (rows.take i).flatten ++ (rows[i] ++ (rows.drop (i + 1)).flatten) := by
      rw [← List.flatten_cons, ← List.flatten_append, ← List.drop_eq_getElem_cons h,
        List.take_append_drop]
    have hflat :
        rows.flatten[totalSize ((rows.take i).map List.length) + k]? = some rows[i][k] := by
      rw [hsplit, totalSize_map_length, List.getElem?_append_right (Nat.le_add_right _ _),
        Nat.add_sub_cancel_left, List.getElem?_append_left hk', List.getElem?_eq_getElem hk']
    simp only [rowColumns, positions, List.getElem_map, List.getElem_range', Nat.one_mul, hstart,
      column_ofRows, hflat, Option.getD_some]

/-- Is the entry in row `i` and column `j` stored? -/
def Stores (p : Pattern) (i j : Nat) : Prop := i < p.numRows ∧ j ∈ p.rowColumns i

instance (p : Pattern) (i j : Nat) : Decidable (p.Stores i j) :=
  inferInstanceAs (Decidable (i < p.numRows ∧ j ∈ p.rowColumns i))

/-- Starts that climb from zero to the number of columns, one more than there are rows, and
columns that exist. -/
structure WellFormed (p : Pattern) : Prop where
  size_starts : p.starts.size = p.numRows + 1
  start_zero : p.start 0 = 0
  start_le : ∀ i, i < p.numRows → p.start i ≤ p.start (i + 1)
  start_last : p.start p.numRows = p.columns.size
  column_lt : ∀ k, k < p.columns.size → p.column k < p.numCols

/-- How many positions the starts promise. -/
def nonzeros (p : Pattern) : Nat := p.starts.back?.getD 0

/-- The row of every position, in order. -/
def rowOfPositions (p : Pattern) : List Nat :=
  (List.range p.numRows).flatMap fun i => List.replicate (p.rowLength i) i

/-- The positions of column `j`, in order. -/
def columnPositions (p : Pattern) (j : Nat) : List Nat :=
  (List.range p.columns.size).filter fun k => p.column k == j

/-- Put positions, in order, in front of those of their columns. -/
def bucket (p : Pattern) (buckets : Array (List Nat)) (positions : List Nat) :
    Array (List Nat) :=
  positions.foldr (fun k buckets => buckets.modify (p.column k) (k :: ·)) buckets

@[simp] theorem size_bucket (p : Pattern) (buckets : Array (List Nat)) (positions : List Nat) :
    (p.bucket buckets positions).size = buckets.size := by
  induction positions with
  | nil => rfl
  | cons k rest ih => rw [bucket, List.foldr_cons, Array.size_modify]; exact ih

theorem getElem?_bucket (p : Pattern) (buckets : Array (List Nat)) (positions : List Nat)
    (j : Nat) :
    (p.bucket buckets positions)[j]? =
      buckets[j]?.map ((positions.filter fun k => p.column k == j) ++ ·) := by
  induction positions with
  | nil => simp [bucket]
  | cons k rest ih =>
    rw [bucket] at ih
    rw [bucket, List.foldr_cons, Array.getElem?_modify, ih]
    by_cases h : p.column k = j
    · cases hb : buckets[j]? <;> simp [h]
    · cases hb : buckets[j]? <;> simp [h]

/-- The positions of every column, made in one pass over all positions. -/
def columnTable (p : Pattern) : Array (List Nat) :=
  p.bucket (Array.replicate p.numCols []) (List.range p.columns.size)

theorem toList_columnTable (p : Pattern) :
    p.columnTable.toList = (List.range p.numCols).map p.columnPositions := by
  apply List.ext_getElem?
  intro j
  rw [Array.getElem?_toList, columnTable, getElem?_bucket, Array.getElem?_replicate,
    List.getElem?_map]
  by_cases h : j < p.numCols
  · rw [if_pos h, List.getElem?_range h]
    simp [columnPositions]
  · rw [if_neg h, List.getElem?_eq_none (by simpa using h)]
    rfl

/-- The positions in the order in which the transposed pattern stores them. -/
def transposedOrder (p : Pattern) : List Nat := p.columnTable.toList.flatten

theorem transposedOrder_eq (p : Pattern) :
    p.transposedOrder = (List.range p.numCols).flatMap p.columnPositions := by
  rw [transposedOrder, toList_columnTable, List.flatMap_def]

/-- The pattern of the transposed matrix. -/
def transposed (p : Pattern) : Pattern :=
  let rows := p.rowOfPositions.toArray
  ofRows p.numRows (p.columnTable.toList.map fun positions => positions.map fun k => rows.getD k 0)

/-- Do the arrays of a pattern fit its shape? -/
def checkArrays (p : Pattern) (stored : Nat) : Except Fault Unit :=
  if p.starts.size = p.numRows + 1 ∧ p.start 0 = 0 ∧ p.columns.size = stored ∧
      p.nonzeros ≤ p.columns.size then .ok ()
  else .error .malformed

/-- For each stored entry the position of the transposed one. -/
def transposePermutation (p : Pattern) : Except Fault (List Nat) :=
  if p.numRows = p.numCols then do
    p.checkArrays p.nonzeros
    let t := p.transposed
    if t.starts = p.starts ∧ t.columns = p.columns then .ok p.transposedOrder
    else .error .asymmetric
  else .error .asymmetric

end Pattern

end LeastSquares
