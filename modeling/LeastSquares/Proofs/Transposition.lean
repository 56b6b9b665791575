/-
LeastSquares.Proofs.Transposition — the permutation that transposes a symmetric pattern.

A pattern is `Regular` when it is well formed and square, its rows ascend, and it stores `(j, i)`
with `(i, j)`. Such a pattern is its own transpose (`Regular.transposed_eq`): going through the
positions of one column meets the rows in ascending order, and by symmetry these are the columns
of the row of the same number. So the permutation is found (`transposePermutation_eq`), it sends
the position of `(i, j)` to that of `(j, i)` (`Regular.getElem?_transposedOrder`), and averaging
values with it takes the mean of every entry with its mirror image, whatever the values are
(`average_eq_gather`).
-/
import LeastSquares.Covariance
import LeastSquares.Proofs.Layout

namespace LeastSquares

namespace Pattern

/-- With an entry, the mirror image of it is stored. -/
def Mirrored (p : Pattern) : Prop := ∀ i j, p.Stores i j → p.Stores j i

/-- Square, well formed, with ascending rows and symmetric. -/
structure Regular (p : Pattern) : Prop extends WellFormed p where
  square : p.numRows = p.numCols
  ascending : p.Ascending
  mirrored : p.Mirrored

variable {p : Pattern}

/-- The columns that a row lists are rows too. -/
theorem Regular.lt_of_stores (r : p.Regular) {i j : Nat} (h : p.Stores i j) : j < p.numRows :=
  (r.mirrored i j h).1

/-- The row of a position. -/
def rowAt (p : Pattern) (k : Nat) : Nat := p.rowOfPositions.toArray.getD k 0

theorem WellFormed.getElem?_coordinates_of_lt (w : p.WellFormed) {k : Nat}
    (h : k < p.columns.size) : p.coordinates[k]? = some (p.rowAt k, p.column k) := by
  obtain ⟨i, hi, hk⟩ := w.exists_mem_positions h
  have hc := w.getElem?_coordinates hi hk
  have hrow : p.rowAt k = i := by
    have hfst : (p.coordinates.map Prod.fst)[k]? = some i := by
      rw [List.getElem?_map, hc]
      rfl
    rw [map_fst_coordinates] at hfst
    simp [rowAt, Array.getD_eq_getD_getElem?, hfst]
  rw [hc, hrow]

theorem mem_columnPositions {j k : Nat} :
    k ∈ p.columnPositions j ↔ k < p.columns.size ∧ p.column k = j := by
  simp [columnPositions]

/-- The coordinates go through the rows in order. -/
theorem pairwise_fst_coordinates (p : Pattern) :
    p.coordinates.Pairwise fun a b => a.1 ≤ b.1 := by
  unfold coordinates
  apply List.pairwise_flatMap.mpr
  constructor
  · intro i _
    exact List.pairwise_map.mpr (List.pairwise_of_forall fun _ _ => Nat.le_refl i)
  · apply List.pairwise_lt_range.imp
    intro i i' hlt x hx y hy
    obtain ⟨j, _, rfl⟩ := List.mem_map.mp hx
    obtain ⟨j', _, rfl⟩ := List.mem_map.mp hy
    exact Nat.le_of_lt hlt

/-- The positions of a column lie in ascending rows. -/
theorem WellFormed.pairwise_rowAt (w : p.WellFormed) (d : p.Distinct) (j : Nat) :
    ((p.columnPositions j).map p.rowAt).Pairwise (· < ·) := by
  refine List.pairwise_map.mpr ?_
  have hrange : (p.columnPositions j).Pairwise (· < ·) := List.pairwise_lt_range.filter _
  refine List.Pairwise.imp_of_mem ?_ hrange
  intro k k' hk hk' hlt
  obtain ⟨hsize, hcol⟩ := mem_columnPositions.mp hk
  obtain ⟨hsize', hcol'⟩ := mem_columnPositions.mp hk'
  obtain ⟨hk, heq⟩ := List.getElem?_eq_some_iff.mp (w.getElem?_coordinates_of_lt hsize)
  obtain ⟨hk', heq'⟩ := List.getElem?_eq_some_iff.mp (w.getElem?_coordinates_of_lt hsize')
  have hle := List.pairwise_iff_getElem.mp p.pairwise_fst_coordinates k k' hk hk' hlt
  rw [heq, heq'] at hle
  refine Nat.lt_of_le_of_ne hle fun hrow => ?_
  -- the same column twice in one row
  have hsame : p.coordinates[k] = p.coordinates[k'] := by
    rw [heq, heq', hcol, hcol']
    exact congrArg (·, j) hrow
  exact List.pairwise_iff_getElem.mp d.nodup_coordinates k k' hk hk' hlt hsame

/-- Down a column stand the rows that store it. -/
theorem WellFormed.mem_map_rowAt (w : p.WellFormed) {i j : Nat} :
    i ∈ (p.columnPositions j).map p.rowAt ↔ p.Stores i j := by
  rw [List.mem_map, ← mem_coordinates]
  constructor
  · rintro ⟨k, hk, rfl⟩
    obtain ⟨hsize, rfl⟩ := mem_columnPositions.mp hk
    exact List.mem_of_getElem? (w.getElem?_coordinates_of_lt hsize)
  · intro hij
    obtain ⟨k, hk⟩ := List.mem_iff_getElem?.mp hij
    have hsize : k < p.columns.size := by
      obtain ⟨hlt, _⟩ := List.getElem?_eq_some_iff.mp hk
      rwa [w.length_coordinates] at hlt
    rw [w.getElem?_coordinates_of_lt hsize] at hk
    obtain ⟨hrow, hcol⟩ := Prod.mk.inj (Option.some.inj hk)
    exact ⟨k, mem_columnPositions.mpr ⟨hsize, hcol⟩, hrow⟩

namespace Regular

/-- Down a column stand the rows that stand along the row of the same number. -/
theorem map_rowAt_columnPositions (r : p.Regular) {j : Nat} (hj : j < p.numRows) :
    (p.columnPositions j).map p.rowAt = p.rowColumns j := by
  have w := r.toWellFormed
  apply eq_of_pairwise_lt (w.pairwise_rowAt r.ascending.distinct j) (r.ascending j hj)
  intro i
  rw [w.mem_map_rowAt]
  exact ⟨fun h => (r.mirrored _ _ h).2, fun hi => r.mirrored j i ⟨hj, hi⟩⟩

/-- A regular pattern is its own transpose. -/
theorem transposed_eq (r : p.Regular) : p.transposed = p := by
  have hrows : p.columnTable.toList.map
      (fun positions => positions.map fun k => p.rowOfPositions.toArray.getD k 0) =
        (List.range p.numRows).map p.rowColumns := by
    rw [toList_columnTable, List.map_map, ← r.square]
    refine List.map_congr_left fun j hj => ?_
    exact r.map_rowAt_columnPositions (List.mem_range.mp hj)
  calc p.transposed = ofRows p.numCols ((List.range p.numRows).map p.rowColumns) := by
        simp only [transposed]
        rw [hrows, r.square]
    _ = p := r.toWellFormed.eq_ofRows.symm

/-- The transposing permutation of a regular pattern is found. -/
theorem transposePermutation_eq (r : p.Regular) :
    p.transposePermutation = .ok p.transposedOrder := by
  have hcheck : p.checkArrays p.nonzeros = .ok () := by
    rw [r.toWellFormed.nonzeros_eq]
    exact r.toWellFormed.checkArrays_eq
  unfold transposePermutation
  rw [if_pos r.square, hcheck]
  show (if _ then _ else _) = _
  rw [if_pos ⟨congrArg starts r.transposed_eq, congrArg columns r.transposed_eq⟩]

/-- Along the permutation stand the mirrored coordinates. -/
theorem map_coordinates_transposedOrder (r : p.Regular) :
    p.transposedOrder.map (fun k => p.coordinates[k]?) =
      p.coordinates.map fun c => some c.swap := by
  have hcolumn : ∀ j ∈ List.range p.numRows,
      (p.columnPositions j).map (fun k => p.coordinates[k]?) =
        (p.rowColumns j).map fun i => some (i, j) := by
    intro j hj
    rw [← r.map_rowAt_columnPositions (List.mem_range.mp hj), List.map_map]
    refine List.map_congr_left fun k hk => ?_
    obtain ⟨hsize, hcol⟩ := mem_columnPositions.mp hk
    rw [r.toWellFormed.getElem?_coordinates_of_lt hsize, hcol]
    rfl
  have hswapped : p.coordinates.map (fun c => some c.swap) =
      (List.range p.numRows).flatMap fun j => (p.rowColumns j).map fun i => some (i, j) := by
    rw [coordinates, List.map_flatMap]
    simp [Function.comp_def]
  rw [hswapped, transposedOrder_eq, ← r.square, List.map_flatMap, List.flatMap_def,
    List.flatMap_def, List.map_congr_left hcolumn]

theorem length_transposedOrder (r : p.Regular) :
    p.transposedOrder.length = p.coordinates.length := by
  have := congrArg List.length r.map_coordinates_transposedOrder
  simpa using this

/-- The position of an entry is sent to that of its mirror image. -/
theorem getElem?_transposedOrder (r : p.Regular) {k i j : Nat}
    (h : p.coordinates[k]? = some (i, j)) :
    ∃ m, p.transposedOrder[k]? = some m ∧ p.coordinates[m]? = some (j, i) := by
  have hk := congrArg (·[k]?) r.map_coordinates_transposedOrder
  simp only [List.getElem?_map, h, Option.map_some, Prod.swap_prod_mk] at hk
  cases hm : p.transposedOrder[k]? with
  | none => simp [hm] at hk
  | some m =>
    rw [hm] at hk
    exact ⟨m, rfl, Option.some.inj hk⟩

end Regular

end Pattern

namespace Covariance

open Pattern

variable {α : Type} [Zero α]

/-- The value that values along a pattern have for an entry. -/
def valueAt (raw : Array α) (p : Pattern) (i j : Nat) : α :=
  raw.getD (p.coordinates.idxOf (i, j)) 0

/-- The values of a function are those that it has for the entries. -/
theorem valueAt_gather (f : Nat → Nat → α) {p : Pattern} {i j : Nat} (h : p.Stores i j) :
    valueAt (Truncation.gather f p) p i j = f i j := by
  have hmem := mem_coordinates.mpr h
  have hlt : p.coordinates.idxOf (i, j) < p.coordinates.length := List.idxOf_lt_length_of_mem hmem
  have hfound : p.coordinates[p.coordinates.idxOf (i, j)] = (i, j) := List.getElem_idxOf hlt
  simp [valueAt, Truncation.gather_eq, Array.getD_eq_getD_getElem?, hlt, hfound]

variable [One α] [Add α] [Mul α] [Div α] [NatCast α]

/-- Averaging takes the mean of the value of every entry with that of its mirror image, whatever the
values are. -/
theorem average_eq_gather (raw : Array α) {p : Pattern} (r : p.Regular) :
    average raw p.transposedOrder =
      Truncation.gather (fun i j => half * (valueAt raw p i j + valueAt raw p j i)) p := by
  have hget : ∀ {k i j : Nat}, p.coordinates[k]? = some (i, j) →
      raw.getD k 0 = valueAt raw p i j := by
    intro k i j hk
    obtain ⟨hlt, heq⟩ := List.getElem?_eq_some_iff.mp hk
    rw [valueAt, ← heq, r.ascending.nodup_coordinates.idxOf_getElem]
  rw [Truncation.gather_eq]
  refine congrArg List.toArray (List.ext_getElem? fun k => ?_)
  rw [List.getElem?_mapIdx, List.getElem?_map]
  cases hc : p.coordinates[k]? with
  | none =>
    have hlen : p.coordinates.length ≤ k := List.getElem?_eq_none_iff.mp hc
    rw [List.getElem?_eq_none (by rw [r.length_transposedOrder]; exact hlen)]
    rfl
  | some c =>
    obtain ⟨i, j⟩ := c
    obtain ⟨m, hm, hcm⟩ := r.getElem?_transposedOrder hc
    rw [hm]
    simp only [Option.map_some, hget hc, hget hcm]

theorem average_gather (f : Nat → Nat → α) {p : Pattern} (r : p.Regular) :
    average (Truncation.gather f p) p.transposedOrder =
      Truncation.gather (fun i j => half * (f i j + f j i)) p := by
  rw [average_eq_gather _ r]
  refine Truncation.gather_congr fun i j hij => ?_
  rw [valueAt_gather f hij, valueAt_gather f (r.mirrored i j hij)]

end Covariance

end LeastSquares
