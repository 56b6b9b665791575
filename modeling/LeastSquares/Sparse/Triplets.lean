/-
LeastSquares.Sparse.Triplets — matrices as lists of entries.

Entries come in any order. Compressing them sorts the columns of every row and adds up the
values of equal coordinates; a value of zero is stored like any other.
-/
import LeastSquares.Extent
import LeastSquares.Sparse.Compressed

namespace LeastSquares

/-- A value at its row and column. -/
structure Triplet (α : Type) where
  row : Nat
  col : Nat
  value : α

/-- A matrix as a list of entries. -/
structure Triplets (α : Type) where
  numRows : Nat
  numCols : Nat
  entries : List (Triplet α)

namespace Triplets

variable {α : Type}

/-- Coordinates and values as a matrix, if they are equally many and lie inside its shape, and
the rows find a place. -/
def ofCoordinates (values : List α) (rows cols : List Int) (numRows numCols : Int) :
    Except Fault (Triplets α) := do
  Extent.checkWords rows
  Extent.checkWords cols
  if 0 ≤ numRows ∧ 0 ≤ numCols ∧ rows.length = values.length ∧ cols.length = values.length ∧
      (∀ i ∈ rows, 0 ≤ i ∧ i < numRows) ∧ (∀ j ∈ cols, 0 ≤ j ∧ j < numCols) then
    Extent.check [numRows + 1]
    .ok
      { numRows := numRows.toNat
        numCols := numCols.toNat
        entries :=
          List.zipWith (fun (ij : Int × Int) v => ⟨ij.1.toNat, ij.2.toNat, v⟩)
            (rows.zip cols) values }
  else .error .malformed

variable [Add α]

/-- Put a value into a row of ascending columns, on top of one that is there already. -/
def insert (j : Nat) (v : α) : List (Nat × α) → List (Nat × α)
  | [] => [(j, v)]
  | (k, w) :: rest =>
    if j < k then (j, v) :: (k, w) :: rest
    else if j = k then (k, w + v) :: rest
    else (k, w) :: insert j v rest

/-- The entries of row `i` by ascending column. -/
def row (t : Triplets α) (i : Nat) : List (Nat × α) :=
  (t.entries.filter fun e => e.row == i).foldl (fun row e => insert e.col e.value row) []

/-- The entries of every row by ascending column, made in one pass over all entries. -/
def rowTable (t : Triplets α) : Array (List (Nat × α)) :=
  t.entries.foldl (fun rows e => rows.modify e.row (insert e.col e.value))
    (Array.replicate t.numRows [])

theorem size_foldl_modify (entries : List (Triplet α)) (rows : Array (List (Nat × α))) :
    (entries.foldl (fun rows e => rows.modify e.row (insert e.col e.value)) rows).size =
      rows.size := by
  induction entries generalizing rows with
  | nil => rfl
  | cons e rest ih => rw [List.foldl_cons, ih, Array.size_modify]

@[simp] theorem size_rowTable (t : Triplets α) : t.rowTable.size = t.numRows := by
  rw [rowTable, size_foldl_modify, Array.size_replicate]

theorem getElem?_foldl_modify (entries : List (Triplet α)) (rows : Array (List (Nat × α)))
    (i : Nat) :
    (entries.foldl (fun rows e => rows.modify e.row (insert e.col e.value)) rows)[i]? =
      rows[i]?.map fun row =>
        (entries.filter fun e => e.row == i).foldl (fun row e => insert e.col e.value row) row := by
  induction entries generalizing rows with
  | nil => simp
  | cons e rest ih =>
    rw [List.foldl_cons, ih, Array.getElem?_modify]
    by_cases h : e.row = i
    · subst h
      cases hrow : rows[e.row]? <;> simp
    · cases hrow : rows[i]? <;> simp [h]

/-- The table holds the rows. -/
theorem getElem?_rowTable (t : Triplets α) {i : Nat} (h : i < t.numRows) :
    t.rowTable[i]? = some (t.row i) := by
  rw [rowTable, getElem?_foldl_modify, Array.getElem?_replicate, if_pos h]
  rfl

theorem toList_rowTable (t : Triplets α) :
    t.rowTable.toList = (List.range t.numRows).map t.row := by
  apply List.ext_getElem?
  intro i
  rw [Array.getElem?_toList, List.getElem?_map]
  by_cases h : i < t.numRows
  · rw [getElem?_rowTable t h, List.getElem?_range h]
    rfl
  · rw [Array.getElem?_eq_none (by simpa using h), List.getElem?_eq_none (by simpa using h)]
    rfl

/-- The same matrix by compressed rows. -/
def compress (t : Triplets α) : Compressed α :=
  let rows := t.rowTable.toList
  { pattern := Pattern.ofRows t.numCols (rows.map fun row => row.map Prod.fst)
    values := (rows.flatMap fun row => row.map Prod.snd).toArray }

end Triplets

end LeastSquares
