/-
LeastSquares.Proofs.Tiling — ranges laid end to end.

`offset w i` is where part `i` starts when parts of the sizes `w 0`, `w 1`, … are put one behind
the other. Every place below `offset w n` belongs to exactly one of the first `n` parts
(`exists_offset_le`, `part_unique`); parts that are empty own nothing and move nothing.

The columns that a problem gives out are such parts (`ColumnBounds.tiled_make`), since no block
moves in a negative number of directions. The lemmas on `Tiled` columns are all that later modules
use:

* a column lies in the range of exactly one block (`exists_mem_columns`, `eq_of_mem_columns`);
* the range of an earlier block lies wholly in front of that of a later one
  (`lt_of_mem_columns`), which is the link between the order of handles and that of columns.
-/
import LeastSquares.Columns

namespace LeastSquares

/-! ## Parts one behind the other -/

/-- Where part `i` starts when parts of given sizes follow each other from zero on. -/
def offset (w : Nat → Nat) (i : Nat) : Nat := totalSize ((List.range i).map w)

@[simp] theorem offset_zero (w : Nat → Nat) : offset w 0 = 0 := rfl

theorem offset_succ (w : Nat → Nat) (i : Nat) : offset w (i + 1) = offset w i + w i := by
  simp [offset, List.range_succ]

theorem offset_congr {w w' : Nat → Nat} {n : Nat} (h : ∀ i, i < n → w i = w' i) :
    offset w n = offset w' n :=
  congrArg totalSize (List.map_congr_left fun i hi => h i (List.mem_range.mp hi))

theorem offset_mono (w : Nat → Nat) {i j : Nat} (h : i ≤ j) : offset w i ≤ offset w j := by
  induction j with
  | zero =>
    obtain rfl : i = 0 := by omega
    exact Nat.le_refl _
  | succ j ih =>
    rcases Nat.lt_or_ge i (j + 1) with hi | hi
    · have := ih (by omega)
      rw [offset_succ]
      omega
    · obtain rfl : i = j + 1 := by omega
      exact Nat.le_refl _

/-- A part stops before every later one starts. -/
theorem offset_add_le (w : Nat → Nat) {i j : Nat} (h : i < j) :
    offset w i + w i ≤ offset w j := by
  rw [← offset_succ]
  exact offset_mono w h

/-- Every place lies in some part. -/
theorem exists_offset_le (w : Nat → Nat) {n r : Nat} (h : r < offset w n) :
    ∃ i, i < n ∧ offset w i ≤ r ∧ r < offset w i + w i := by
  induction n with
  | zero =>
    rw [offset_zero] at h
    omega
  | succ n ih =>
    rcases Nat.lt_or_ge r (offset w n) with hr | hr
    · obtain ⟨i, hi, hle, hlt⟩ := ih hr
      exact ⟨i, by omega, hle, hlt⟩
    · rw [offset_succ] at h
      exact ⟨n, by omega, hr, h⟩

/-- No place lies in two parts. -/
theorem part_unique (w : Nat → Nat) {i j r : Nat} (hi : offset w i ≤ r ∧ r < offset w i + w i)
    (hj : offset w j ≤ r ∧ r < offset w j + w j) : i = j := by
  rcases Nat.lt_trichotomy i j with h | h | h
  · have := offset_add_le w h
    omega
  · exact h
  · have := offset_add_le w h
    omega

/-! ## Lists one behind the other -/

section Lists

variable {β : Type} (f : Nat → List β)

theorem flatMap_range_succ (n : Nat) :
    (List.range (n + 1)).flatMap f = (List.range n).flatMap f ++ f n := by
  simp [List.range_succ]

theorem length_flatMap_range (n : Nat) :
    ((List.range n).flatMap f).length = offset (fun i => (f i).length) n := by
  induction n with
  | zero => rfl
  | succ n ih => rw [flatMap_range_succ, List.length_append, ih, offset_succ]

/-- Each list is found where it starts. -/
theorem getElem?_flatMap_range {n i v : Nat} (hi : i < n) (hv : v < (f i).length) :
    ((List.range n).flatMap f)[offset (fun i => (f i).length) i + v]? = (f i)[v]? := by
  induction n with
  | zero => omega
  | succ n ih =>
    rw [flatMap_range_succ]
    rcases Nat.lt_or_ge i n with h | h
    · have := offset_add_le (fun i => (f i).length) h
      rw [List.getElem?_append_left (by rw [length_flatMap_range]; omega)]
      exact ih h
    · obtain rfl : i = n := by omega
      rw [List.getElem?_append_right (by rw [length_flatMap_range]; omega),
        length_flatMap_range, Nat.add_sub_cancel_left]

end Lists

section Spread

variable {β : Type} (w : Nat → Nat) (f : Nat → β)

/-- As many copies of `f i` as part `i` is long, for the first `n` parts. -/
def spread (n : Nat) : List β := (List.range n).flatMap fun i => List.replicate (w i) (f i)

@[simp] theorem length_spread (n : Nat) : (spread w f n).length = offset w n := by
  rw [spread, length_flatMap_range]
  simp only [List.length_replicate]

variable {w f} in
theorem spread_congr {g : Nat → β} {n : Nat} (h : ∀ i, i < n → f i = g i) :
    spread w f n = spread w g n := by
  unfold spread
  rw [List.flatMap_def, List.flatMap_def]
  refine congrArg List.flatten (List.map_congr_left fun i hi => ?_)
  rw [h i (List.mem_range.mp hi)]

/-- Each place holds the copy that its part was filled with. -/
theorem getElem?_spread {n i r : Nat} (hi : i < n) (hle : offset w i ≤ r)
    (hlt : r < offset w i + w i) : (spread w f n)[r]? = some (f i) := by
  have hplace : r - offset w i < w i := by omega
  have hread := getElem?_flatMap_range (fun i => List.replicate (w i) (f i)) hi
    (v := r - offset w i) (by rw [List.length_replicate]; exact hplace)
  simp only [List.length_replicate, List.getElem?_replicate, if_pos hplace] at hread
  rw [Nat.add_sub_cancel' hle] at hread
  exact hread

end Spread

/-! ## Column ranges -/

namespace ColumnRange

theorem mem_columns {r : ColumnRange} {k : Nat} :
    k ∈ r.columns ↔ r.first ≤ k ∧ k < r.first + r.width := by
  simp [columns, List.mem_range'_1]

end ColumnRange

namespace ColumnBounds

/-- How many columns the block at a position has. -/
def widthAt (b : ColumnBounds) (i : Nat) : Nat := (b.rangeAt i).width

/-- Ranges without negative widths that follow each other from the first column to the last. -/
structure Tiled (b : ColumnBounds) : Prop where
  size_nonneg : ∀ i, 0 ≤ (b.rangeAt i).size
  start_eq : ∀ i, i < b.ranges.size → (b.rangeAt i).start = (offset b.widthAt i : Nat)
  numCols_eq : b.numCols = (offset b.widthAt b.ranges.size : Nat)

/-- There is nothing behind the last block. -/
theorem rangeAt_of_size_le (b : ColumnBounds) {i : Nat} (h : b.ranges.size ≤ i) :
    b.rangeAt i = ⟨0, 0⟩ := by
  simp [rangeAt, Array.getD_eq_getD_getElem?, h]

theorem lt_size_of_mem_columns {b : ColumnBounds} {i k : Nat}
    (h : k ∈ (b.rangeAt i).columns) : i < b.ranges.size := by
  rcases Nat.lt_or_ge i b.ranges.size with hi | hi
  · exact hi
  · rw [rangeAt_of_size_le b hi, ColumnRange.mem_columns] at h
    simp [ColumnRange.width] at h
    omega

theorem widthAt_pos_of_mem_columns {b : ColumnBounds} {i k : Nat}
    (h : k ∈ (b.rangeAt i).columns) : 0 < b.widthAt i := by
  rw [ColumnRange.mem_columns] at h
  unfold widthAt
  omega

/-- The columns of a block are counted from its first one. -/
theorem first_add_mem_columns {b : ColumnBounds} {i u : Nat} (h : u < b.widthAt i) :
    (b.rangeAt i).first + u ∈ (b.rangeAt i).columns :=
  ColumnRange.mem_columns.mpr ⟨Nat.le_add_right _ _, Nat.add_lt_add_left h _⟩

theorem first_mem_columns {b : ColumnBounds} {i : Nat} (h : 0 < b.widthAt i) :
    (b.rangeAt i).first ∈ (b.rangeAt i).columns :=
  first_add_mem_columns h

theorem lt_size_of_widthAt_pos {b : ColumnBounds} {i : Nat} (h : 0 < b.widthAt i) :
    i < b.ranges.size :=
  lt_size_of_mem_columns (first_mem_columns h)

section Make

variable {α : Type}

theorem widthAt_make (p : Problem α) (tangentSpace : Bool) {i : Nat} (h : i < p.blocks.size) :
    (make p tangentSpace).widthAt i = (width p tangentSpace i).toNat := by
  rw [widthAt, ColumnRange.width, rangeAt_make p tangentSpace h]

theorem width_nonneg (p : Problem α) (tangentSpace : Bool) (i : Nat) :
    0 ≤ width p tangentSpace i := by
  simp only [width]
  split
  · exact Int.le_refl 0
  · split
    · exact (p.blockAt i).tangentSize_nonneg
    · exact Int.natCast_nonneg _

/-- The columns of a problem tile. -/
theorem tiled_make (p : Problem α) (tangentSpace : Bool) : (make p tangentSpace).Tiled := by
  have hextent : ∀ n, n ≤ p.blocks.size →
      totalExtent ((List.range n).map (width p tangentSpace)) =
        (offset (make p tangentSpace).widthAt n : Nat) := by
    intro n hn
    have hcast : (List.range n).map (width p tangentSpace) =
        ((List.range n).map (make p tangentSpace).widthAt).map fun (k : Nat) => (k : Int) := by
      rw [List.map_map]
      refine List.map_congr_left fun j hj => ?_
      have hj : j < p.blocks.size := by
        have := List.mem_range.mp hj
        omega
      rw [Function.comp_apply, widthAt_make p tangentSpace hj,
        Int.toNat_of_nonneg (width_nonneg p tangentSpace j)]
    rw [hcast, totalExtent_map_natCast, offset]
  refine ⟨?_, ?_, ?_⟩
  · intro i
    rcases Nat.lt_or_ge i p.blocks.size with hi | hi
    · rw [rangeAt_make p tangentSpace hi]
      exact width_nonneg p tangentSpace i
    · have hle : (make p tangentSpace).ranges.size ≤ i := by
        rw [size_ranges_make]
        exact hi
      simp [rangeAt_of_size_le _ hle]
  · intro i hi
    rw [size_ranges_make] at hi
    rw [rangeAt_make p tangentSpace hi, hextent i (Nat.le_of_lt hi)]
  · rw [size_ranges_make]
    exact hextent p.blocks.size (Nat.le_refl _)

end Make

namespace Tiled

variable {b : ColumnBounds}

theorem first_eq (t : b.Tiled) {i : Nat} (h : i < b.ranges.size) :
    (b.rangeAt i).first = offset b.widthAt i := by
  rw [ColumnRange.first, t.start_eq i h, Int.toNat_natCast]

theorem toNat_numCols (t : b.Tiled) : b.numCols.toNat = offset b.widthAt b.ranges.size := by
  rw [t.numCols_eq, Int.toNat_natCast]

theorem mem_columns_iff (t : b.Tiled) {i k : Nat} (hi : i < b.ranges.size) :
    k ∈ (b.rangeAt i).columns ↔
      offset b.widthAt i ≤ k ∧ k < offset b.widthAt i + b.widthAt i := by
  rw [ColumnRange.mem_columns, t.first_eq hi]
  exact Iff.rfl

/-- Every column of a block is one of the columns. -/
theorem lt_numCols (t : b.Tiled) {i k : Nat} (h : k ∈ (b.rangeAt i).columns) :
    k < b.numCols.toNat := by
  have hi := lt_size_of_mem_columns h
  have hk := (t.mem_columns_iff hi).mp h
  have := offset_add_le b.widthAt hi
  rw [t.toNat_numCols]
  omega

/-- Every column belongs to a block. -/
theorem exists_mem_columns (t : b.Tiled) {k : Nat} (h : k < b.numCols.toNat) :
    ∃ i, i < b.ranges.size ∧ k ∈ (b.rangeAt i).columns := by
  rw [t.toNat_numCols] at h
  obtain ⟨i, hi, hle, hlt⟩ := exists_offset_le b.widthAt h
  exact ⟨i, hi, (t.mem_columns_iff hi).mpr ⟨hle, hlt⟩⟩

/-- No column belongs to two blocks. -/
theorem eq_of_mem_columns (t : b.Tiled) {i j k : Nat} (hi : k ∈ (b.rangeAt i).columns)
    (hj : k ∈ (b.rangeAt j).columns) : i = j :=
  part_unique b.widthAt ((t.mem_columns_iff (lt_size_of_mem_columns hi)).mp hi)
    ((t.mem_columns_iff (lt_size_of_mem_columns hj)).mp hj)

/-- The columns of an earlier block lie in front of those of a later one. -/
theorem lt_of_mem_columns (t : b.Tiled) {i j k l : Nat} (h : i < j)
    (hk : k ∈ (b.rangeAt i).columns) (hl : l ∈ (b.rangeAt j).columns) : k < l := by
  have hi := (t.mem_columns_iff (lt_size_of_mem_columns hk)).mp hk
  have hj := (t.mem_columns_iff (lt_size_of_mem_columns hl)).mp hl
  have := offset_add_le b.widthAt h
  omega

end Tiled

end ColumnBounds

end LeastSquares
