/-
LeastSquares.Proofs.Layout — a pattern as the list of its coordinates.

The positions of a well-formed pattern count through its rows, so the pattern is the same thing as
the list of its coordinates: the row and the column of every position, in order. This module ties
the three views together.

* `coordinates` against positions: position `k` of row `i` has the coordinates `(i, column k)`
  (`getElem?_coordinates`), and the lists of rows and of columns are the ones stored
  (`map_fst_coordinates`, `map_snd_coordinates`).
* `coordinates` against entries: a pair is a coordinate exactly when it is stored
  (`mem_coordinates`); where the rows ascend, the coordinates ascend row by row
  (`pairwise_coordinates`), and where no row repeats a column, no entry is stored twice
  (`Distinct.nodup_coordinates`).
* values: `gather f` reads `f` along the coordinates (`gather_eq`), which is how every estimate
  below fills a plan, and at a position stands the value of its coordinates (`getD_gather`).
-/
import LeastSquares.Covariance.Truncation
import LeastSquares.Proofs.Tiling
import LeastSquares.Proofs.Traversal
import LeastSquares.Sparse.Compressed

namespace LeastSquares

namespace Pattern

variable {p : Pattern}

/-! ## Positions -/

/-- In a well-formed pattern a row starts behind all rows before it. -/
theorem WellFormed.start_eq (w : p.WellFormed) {i : Nat} (h : i ≤ p.numRows) :
    p.start i = offset p.rowLength i := by
  induction i with
  | zero => rw [w.start_zero, offset_zero]
  | succ i ih =>
    have hle := w.start_le i (by omega)
    rw [offset_succ, ← ih (by omega), rowLength]
    omega

theorem WellFormed.start_add_rowLength (w : p.WellFormed) {i : Nat} (h : i < p.numRows) :
    p.start i + p.rowLength i = p.start (i + 1) := by
  rw [w.start_eq (Nat.le_of_lt h), w.start_eq h, offset_succ]

/-- The positions of the rows are all positions. -/
theorem WellFormed.flatMap_positions (w : p.WellFormed) {n : Nat} (h : n ≤ p.numRows) :
    (List.range n).flatMap p.positions = List.range (p.start n) := by
  induction n with
  | zero => simp [w.start_zero]
  | succ n ih =>
    rw [List.range_succ, List.flatMap_append, ih (by omega), List.flatMap_singleton, positions,
      ← w.start_add_rowLength (by omega), List.range_eq_range', List.range_eq_range']
    have happend : List.range' 0 (p.start n) ++ List.range' (0 + p.start n) (p.rowLength n) =
        List.range' 0 (p.start n + p.rowLength n) := List.range'_append_1
    rw [Nat.zero_add] at happend
    exact happend

/-- Rows whose columns exist make a well-formed pattern. -/
theorem wellFormed_ofRows {numCols : Nat} {rows : List (List Nat)}
    (h : ∀ row ∈ rows, ∀ j ∈ row, j < numCols) : (ofRows numCols rows).WellFormed where
  size_starts := by simp [ofRows]
  start_zero := by
    rw [start_ofRows numCols rows (Nat.zero_le _)]
    simp
  start_le := by
    intro i hi
    have hi : i < rows.length := hi
    rw [start_ofRows numCols rows (by omega), start_ofRows numCols rows (by omega),
      ← List.take_append_getElem hi, List.map_append, totalSize_append]
    omega
  start_last := by
    show (ofRows numCols rows).start rows.length = _
    rw [start_ofRows numCols rows (Nat.le_refl _), List.take_length, totalSize_map_length]
    simp [ofRows]
  column_lt := by
    intro k hk
    have hk : k < rows.flatten.length := by simpa [ofRows] using hk
    rw [column_ofRows, List.getElem?_eq_getElem hk, Option.getD_some]
    obtain ⟨row, hrow, hmem⟩ := List.mem_flatten.mp (List.getElem_mem hk)
    exact h row hrow _ hmem

/-- A well-formed pattern is that of its rows. -/
theorem WellFormed.eq_ofRows (w : p.WellFormed) :
    p = ofRows p.numCols ((List.range p.numRows).map p.rowColumns) := by
  have hlengths : ((List.range p.numRows).map p.rowColumns).map List.length =
      (List.range p.numRows).map p.rowLength := by
    rw [List.map_map]
    refine List.map_congr_left fun i _ => ?_
    simp [rowColumns, positions]
  have hstarts : p.starts.toList =
      runningSums 0 (((List.range p.numRows).map p.rowColumns).map List.length) := by
    rw [hlengths]
    apply List.ext_getElem?
    intro i
    rcases Nat.lt_or_ge p.numRows i with hi | hi
    · rw [List.getElem?_eq_none (by rw [Array.length_toList, w.size_starts]; omega),
        List.getElem?_eq_none (by simp; omega)]
    · have hlt : i < p.starts.size := by rw [w.size_starts]; omega
      have hstart : p.starts[i]? = some (p.start i) := by
        simp [start, Array.getD_eq_getD_getElem?, hlt]
      rw [getElem?_runningSums _ _ (by simpa using hi), Array.getElem?_toList, hstart,
        w.start_eq hi, offset, ← List.map_take, List.take_range, Nat.min_eq_left hi,
        Nat.zero_add]
  have hcolumns : p.columns.toList = ((List.range p.numRows).map p.rowColumns).flatten := by
    have hflat : ((List.range p.numRows).map p.rowColumns).flatten =
        ((List.range p.numRows).flatMap p.positions).map p.column := by
      rw [List.map_flatMap, List.flatMap_def]
      rfl
    rw [hflat, w.flatMap_positions (Nat.le_refl _), w.start_last]
    apply List.ext_getElem
    · simp
    · intro k hk _
      simp only [Array.length_toList] at hk
      simp [column, Array.getD_eq_getD_getElem?, hk]
  obtain ⟨numRows, numCols, starts, columns⟩ := p
  simp only [ofRows, List.length_map, List.length_range, mk.injEq, true_and]
  exact ⟨Array.ext' hstarts, Array.ext' hcolumns⟩

/-! ## Coordinates -/

/-- The row and the column of every position, in order. -/
def coordinates (p : Pattern) : List (Nat × Nat) :=
  (List.range p.numRows).flatMap fun i => (p.rowColumns i).map fun j => (i, j)

/-- The coordinates are the stored entries. -/
theorem mem_coordinates {i j : Nat} : (i, j) ∈ p.coordinates ↔ p.Stores i j := by
  unfold coordinates Stores
  rw [List.mem_flatMap]
  constructor
  · rintro ⟨k, hk, hmem⟩
    obtain ⟨l, hl, heq⟩ := List.mem_map.mp hmem
    obtain ⟨rfl, rfl⟩ := Prod.mk.inj heq
    exact ⟨List.mem_range.mp hk, hl⟩
  · rintro ⟨hi, hj⟩
    exact ⟨i, List.mem_range.mpr hi, List.mem_map.mpr ⟨j, hj, rfl⟩⟩

theorem map_fst_coordinates (p : Pattern) : p.coordinates.map Prod.fst = p.rowOfPositions := by
  unfold coordinates rowOfPositions
  rw [List.map_flatMap]
  congr 1
  funext i
  simp [rowColumns, positions, Function.comp_def, List.map_const']

theorem WellFormed.map_snd_coordinates (w : p.WellFormed) :
    p.coordinates.map Prod.snd = (List.range p.columns.size).map p.column := by
  rw [← w.start_last, ← w.flatMap_positions (Nat.le_refl _), coordinates, List.map_flatMap,
    List.map_flatMap]
  congr 1
  funext i
  simp [rowColumns, Function.comp_def]

theorem WellFormed.length_coordinates (w : p.WellFormed) :
    p.coordinates.length = p.columns.size := by
  have := congrArg List.length w.map_snd_coordinates
  simpa using this

/-- The positions of a row, by number. -/
theorem mem_positions {i k : Nat} :
    k ∈ p.positions i ↔ p.start i ≤ k ∧ k < p.start i + p.rowLength i := by
  simp [positions, List.mem_range'_1]

/-- The coordinates of a position are its row and its column. -/
theorem WellFormed.getElem?_coordinates (w : p.WellFormed) {i k : Nat} (hi : i < p.numRows)
    (hk : k ∈ p.positions i) : p.coordinates[k]? = some (i, p.column k) := by
  obtain ⟨hle, hlt⟩ := mem_positions.mp hk
  have hfst : (p.coordinates.map Prod.fst)[k]? = some i := by
    rw [map_fst_coordinates]
    rw [w.start_eq (Nat.le_of_lt hi)] at hle hlt
    exact getElem?_spread p.rowLength id hi hle hlt
  have hsize : k < p.columns.size := by
    have hlen : k < (p.coordinates.map Prod.fst).length := by
      obtain ⟨h, _⟩ := List.getElem?_eq_some_iff.mp hfst
      exact h
    rwa [List.length_map, w.length_coordinates] at hlen
  have hsnd : (p.coordinates.map Prod.snd)[k]? = some (p.column k) := by
    rw [w.map_snd_coordinates, List.getElem?_map, List.getElem?_range hsize]
    rfl
  rw [List.getElem?_map] at hfst hsnd
  cases hc : p.coordinates[k]? with
  | none => simp [hc] at hfst
  | some c =>
    rw [hc] at hfst hsnd
    simp only [Option.map_some, Option.some.injEq] at hfst hsnd
    rw [← hfst, ← hsnd]

theorem WellFormed.lt_size_of_mem_positions (w : p.WellFormed) {i k : Nat} (hi : i < p.numRows)
    (hk : k ∈ p.positions i) : k < p.columns.size := by
  rw [← w.length_coordinates]
  exact (List.getElem?_eq_some_iff.mp (w.getElem?_coordinates hi hk)).1

/-- Stored entries lie inside the columns. -/
theorem WellFormed.lt_of_stores (w : p.WellFormed) {i j : Nat} (h : p.Stores i j) :
    j < p.numCols := by
  obtain ⟨hi, hj⟩ := h
  obtain ⟨k, hk, rfl⟩ := List.mem_map.mp hj
  exact w.column_lt k (w.lt_size_of_mem_positions hi hk)

/-- Every position lies in a row. -/
theorem WellFormed.exists_mem_positions (w : p.WellFormed) {k : Nat} (h : k < p.columns.size) :
    ∃ i, i < p.numRows ∧ k ∈ p.positions i := by
  rw [← w.start_last, w.start_eq (Nat.le_refl _)] at h
  obtain ⟨i, hi, hle, hlt⟩ := exists_offset_le p.rowLength h
  refine ⟨i, hi, mem_positions.mpr ?_⟩
  rw [w.start_eq (Nat.le_of_lt hi)]
  exact ⟨hle, hlt⟩

/-- The starts promise as many positions as there are columns. -/
theorem WellFormed.nonzeros_eq (w : p.WellFormed) : p.nonzeros = p.columns.size := by
  have hstart := w.start_last
  rw [start, Array.getD_eq_getD_getElem?] at hstart
  rw [nonzeros, Array.back?_eq_getElem?, w.size_starts, Nat.add_sub_cancel]
  exact hstart

/-- The arrays of a well-formed pattern fit its shape. -/
theorem WellFormed.checkArrays_eq (w : p.WellFormed) : p.checkArrays p.columns.size = .ok () :=
  if_pos ⟨w.size_starts, w.start_zero, rfl, Nat.le_of_eq w.nonzeros_eq⟩

/-- A pattern that stores an entry promises a position. -/
theorem WellFormed.nonzeros_ne_zero (w : p.WellFormed) {i j : Nat} (h : p.Stores i j) :
    p.nonzeros ≠ 0 := by
  rw [w.nonzeros_eq, ← w.length_coordinates]
  have := List.length_pos_of_mem (mem_coordinates.mpr h)
  omega

/-! ## Ascending rows -/

/-- Every row lists its columns in ascending order, each of them once. -/
def Ascending (p : Pattern) : Prop := ∀ i, i < p.numRows → (p.rowColumns i).Pairwise (· < ·)

/-- Is the first coordinate before the second one, row by row? -/
def Before (a b : Nat × Nat) : Prop := a.1 < b.1 ∨ (a.1 = b.1 ∧ a.2 < b.2)

/-- Ascending rows make ascending coordinates. -/
theorem Ascending.pairwise_coordinates (a : p.Ascending) : p.coordinates.Pairwise Before := by
  unfold coordinates
  apply List.pairwise_flatMap.mpr
  constructor
  · intro i hi
    refine List.pairwise_map.mpr ?_
    exact (a i (List.mem_range.mp hi)).imp fun h => Or.inr ⟨rfl, h⟩
  · apply List.pairwise_lt_range.imp
    intro i i' hlt x hx y hy
    obtain ⟨j, _, rfl⟩ := List.mem_map.mp hx
    obtain ⟨j', _, rfl⟩ := List.mem_map.mp hy
    exact Or.inl hlt

/-- No row lists a column twice. -/
def Distinct (p : Pattern) : Prop := ∀ i, i < p.numRows → (p.rowColumns i).Nodup

theorem Ascending.distinct (a : p.Ascending) : p.Distinct := fun i hi =>
  (a i hi).imp Nat.ne_of_lt

/-- Rows without repeated columns store no entry twice. -/
theorem Distinct.nodup_coordinates (d : p.Distinct) : p.coordinates.Nodup := by
  unfold coordinates
  apply List.pairwise_flatMap.mpr
  constructor
  · intro i hi
    refine List.pairwise_map.mpr ((d i (List.mem_range.mp hi)).imp ?_)
    rintro j j' hne heq
    exact hne (Prod.mk.inj heq).2
  · apply List.pairwise_lt_range.imp
    intro i i' hlt x hx y hy
    obtain ⟨j, _, rfl⟩ := List.mem_map.mp hx
    obtain ⟨j', _, rfl⟩ := List.mem_map.mp hy
    intro heq
    exact Nat.ne_of_lt hlt (Prod.mk.inj heq).1

theorem distinct_of_nodup_coordinates (h : p.coordinates.Nodup) : p.Distinct := by
  intro i hi
  have hrow := (List.pairwise_flatMap.mp h).1 i (List.mem_range.mpr hi)
  exact (List.pairwise_map.mp hrow).imp fun hne heq => hne (congrArg (i, ·) heq)

theorem Ascending.nodup_coordinates (a : p.Ascending) : p.coordinates.Nodup :=
  a.distinct.nodup_coordinates

/-- Ascending lists with the same members are equal. -/
theorem eq_of_pairwise_lt {xs ys : List Nat} (hx : xs.Pairwise (· < ·))
    (hy : ys.Pairwise (· < ·)) (h : ∀ n, n ∈ xs ↔ n ∈ ys) : xs = ys :=
  eq_of_pairwise (fun _ _ _ _ hlt => Nat.lt_asymm hlt) hx hy h

end Pattern

/-! ## Values along the coordinates -/

namespace Truncation

open Pattern

variable {α : Type}

theorem gather_eq (f : Nat → Nat → α) (p : Pattern) :
    gather f p = (p.coordinates.map fun c => f c.1 c.2).toArray := by
  unfold gather coordinates
  rw [List.map_flatMap]
  simp [Function.comp_def]

theorem size_gather (f : Nat → Nat → α) {p : Pattern} (w : p.WellFormed) :
    (gather f p).size = p.columns.size := by
  rw [gather_eq, List.size_toArray, List.length_map, w.length_coordinates]

theorem gather_congr {f g : Nat → Nat → α} {p : Pattern}
    (h : ∀ i j, p.Stores i j → f i j = g i j) : gather f p = gather g p := by
  rw [gather_eq, gather_eq]
  refine congrArg List.toArray (List.map_congr_left fun c hc => ?_)
  exact h c.1 c.2 (mem_coordinates.mp hc)

/-- Where nothing is stored there are no values. -/
theorem gather_of_nonzeros_eq_zero (f : Nat → Nat → α) {p : Pattern} (w : p.WellFormed)
    (h : p.nonzeros = 0) : gather f p = #[] := by
  have hnil : p.coordinates = [] := by
    rw [← List.length_eq_zero_iff, w.length_coordinates, ← w.nonzeros_eq, h]
  rw [gather_eq, hnil]
  rfl

/-- At a position stands the value of its coordinates. -/
theorem getElem?_gather (f : Nat → Nat → α) {p : Pattern} (w : p.WellFormed) {i k : Nat}
    (hi : i < p.numRows) (hk : k ∈ p.positions i) :
    (gather f p)[k]? = some (f i (p.column k)) := by
  rw [gather_eq, List.getElem?_toArray, List.getElem?_map, w.getElem?_coordinates hi hk]
  rfl

theorem getD_gather (f : Nat → Nat → α) {p : Pattern} (w : p.WellFormed) {i k : Nat}
    (hi : i < p.numRows) (hk : k ∈ p.positions i) (default : α) :
    (gather f p).getD k default = f i (p.column k) := by
  rw [Array.getD_eq_getD_getElem?, getElem?_gather f w hi hk, Option.getD_some]

end Truncation

end LeastSquares
