/-
LeastSquares.Proofs.Allotment — which columns each block is given.

Columns are given out in one walk over the handles. `reached` is the column that the walk has come
to, so a block starts where the block before it stopped, and `Tiled.reached_eq` says that this is
the sum of the widths so far. A block that is `Engaged`, held by nobody and used by some residual
block, gets a column for each of its directions, or for each of its parameters if it has a direction
at all; any other block gets none, and the walk stays where it is.

`make_allots` puts this together for both kinds of columns: the ranges of the blocks follow each
other from the first column to the last, and each column is in the range of exactly one block.
-/
import Mathlib.Algebra.Field.Rat
import Mathlib.Logic.ExistsUnique
import LeastSquares.Manifold.Subset
import LeastSquares.Proofs.Tiling

namespace LeastSquares

variable {α : Type}

/-- Is the block at a position left to move, and used by some residual block? -/
def Problem.Engaged (p : Problem α) (i : Nat) : Prop :=
  (p.blockAt i).held = false ∧ ∃ r ∈ p.residuals, i ∈ r.blocks

theorem Problem.uses_iff {p : Problem α} {i : Nat} :
    p.uses i = true ↔ ∃ r ∈ p.residuals, i ∈ r.blocks := by
  simp only [uses, Array.any_eq_true', List.contains_iff_mem]

namespace ColumnBounds

/-! ## Widths -/

variable {p : Problem α} {i : Nat}

/-- An engaged block has a column for each direction, or for each parameter if it has a direction
at all. -/
theorem width_of_engaged (h : p.Engaged i) (tangentSpace : Bool) :
    width p tangentSpace i =
      if tangentSpace then (p.blockAt i).tangentSize
      else if (p.blockAt i).tangentSize = 0 then 0 else (p.blockAt i).ambientSize := by
  obtain ⟨hheld, hused⟩ := h
  have huses : p.uses i = true := Problem.uses_iff.mpr hused
  by_cases hzero : (p.blockAt i).tangentSize = 0
  · simp [width, ParameterBlock.isConstant, hzero]
  · simp [width, ParameterBlock.isConstant, hheld, huses, hzero]

/-- A block that is not engaged has no columns. -/
theorem width_of_not_engaged (h : ¬ p.Engaged i) (tangentSpace : Bool) :
    width p tangentSpace i = 0 := by
  cases hheld : (p.blockAt i).held with
  | true => simp [width, ParameterBlock.isConstant, hheld]
  | false =>
    have huses : p.uses i = false := by
      rw [Bool.eq_false_iff]
      exact fun hused => h ⟨hheld, Problem.uses_iff.mp hused⟩
    simp [width, huses]

/-! ## The walk -/

/-- The column that the walk over the handles has come to before a block. -/
def reached (b : ColumnBounds) : Nat → Int
  | 0 => 0
  | i + 1 => (b.rangeAt i).stop

namespace Tiled

variable {b : ColumnBounds}

/-- The walk has come as far as the blocks behind it are wide. -/
theorem reached_eq (t : b.Tiled) {n : Nat} (h : n ≤ b.ranges.size) :
    b.reached n = (offset b.widthAt n : Nat) := by
  cases n with
  | zero => rfl
  | succ i =>
    have hsize : (b.rangeAt i).size = (b.widthAt i : Nat) :=
      (Int.toNat_of_nonneg (t.size_nonneg i)).symm
    rw [reached, ColumnRange.stop, t.start_eq i h, hsize, offset_succ]
    omega

/-- The columns of a block lie between its ends. -/
theorem between_iff (t : b.Tiled) {k : Nat} (hi : i < b.ranges.size) :
    (b.rangeAt i).start ≤ k ∧ (k : Int) < (b.rangeAt i).stop ↔ k ∈ (b.rangeAt i).columns := by
  have hstart := t.start_eq i hi
  have hsize := t.size_nonneg i
  rw [ColumnRange.mem_columns, ColumnRange.stop, ColumnRange.first, ColumnRange.width]
  omega

/-- Each column lies between the ends of exactly one block. -/
theorem existsUnique_between (t : b.Tiled) {k : Int} (hk : 0 ≤ k) (hlt : k < b.numCols) :
    ∃! i, i < b.ranges.size ∧ (b.rangeAt i).start ≤ k ∧ k < (b.rangeAt i).stop := by
  obtain ⟨k, rfl⟩ := Int.eq_ofNat_of_zero_le hk
  obtain ⟨i, hi, hmem⟩ := t.exists_mem_columns (k := k) (by omega)
  refine ⟨i, ⟨hi, (t.between_iff hi).mpr hmem⟩, ?_⟩
  rintro j ⟨hj, hbetween⟩
  exact t.eq_of_mem_columns ((t.between_iff hj).mp hbetween) hmem

/-- An earlier block stops before a later one starts. -/
theorem stop_le_start (t : b.Tiled) {j : Nat} (h : i < j) (hj : j < b.ranges.size) :
    (b.rangeAt i).stop ≤ (b.rangeAt j).start := by
  have hstop := t.reached_eq (n := i + 1) (by omega)
  have := offset_mono b.widthAt (show i + 1 ≤ j by omega)
  rw [reached] at hstop
  rw [hstop, t.start_eq j hj]
  omega

end Tiled

/-- **Column ranges tile the free columns.** Every handle has a range of columns, in either kind of
space. The first range starts at column zero, each other one where the range before it stopped, and
the last stops at the number of columns. An engaged block has as many columns as it has directions,
or as parameters unless it has no direction, and any other block has none. Every column lies in the
range of exactly one block, and the range of an earlier block lies wholly before that of a later
one. -/
theorem make_allots (p : Problem α) (tangentSpace : Bool) :
    (make p tangentSpace).tangentSpace = tangentSpace ∧
    (make p tangentSpace).ranges.size = p.blocks.size ∧
    (∀ i, i < p.blocks.size →
      (make p tangentSpace).range (.integer i) = .ok ((make p tangentSpace).rangeAt i) ∧
      ((make p tangentSpace).rangeAt i).start ≤ ((make p tangentSpace).rangeAt i).stop ∧
      ((make p tangentSpace).rangeAt i).start = (make p tangentSpace).reached i) ∧
    (make p tangentSpace).numCols = (make p tangentSpace).reached p.blocks.size ∧
    (∀ i, i < p.blocks.size →
      (p.Engaged i → ((make p tangentSpace).rangeAt i).size =
        if tangentSpace then (p.blockAt i).tangentSize
        else if (p.blockAt i).tangentSize = 0 then 0 else (p.blockAt i).ambientSize) ∧
      (¬ p.Engaged i → ((make p tangentSpace).rangeAt i).size = 0)) ∧
    (∀ k : Int, 0 ≤ k → k < (make p tangentSpace).numCols →
      ∃! i, i < p.blocks.size ∧ ((make p tangentSpace).rangeAt i).start ≤ k ∧
        k < ((make p tangentSpace).rangeAt i).stop) ∧
    (∀ i j, i < j → j < p.blocks.size →
      ((make p tangentSpace).rangeAt i).stop ≤ ((make p tangentSpace).rangeAt j).start) := by
  have t := tiled_make p tangentSpace
  have hsize := size_ranges_make p tangentSpace
  refine ⟨rfl, hsize, fun i hi => ⟨?_, ?_, ?_⟩, ?_, fun i hi => ?_, fun k hk hlt => ?_,
    fun i j hij hj => ?_⟩
  · exact range_natCast _ (by rwa [hsize])
  · have := t.size_nonneg i
    rw [ColumnRange.stop]
    omega
  · rw [t.start_eq i (by rwa [hsize]), t.reached_eq (by rw [hsize]; exact Nat.le_of_lt hi)]
  · rw [t.numCols_eq, hsize, t.reached_eq (Nat.le_of_eq hsize.symm)]
  · rw [rangeAt_make p tangentSpace hi]
    exact ⟨fun h => width_of_engaged h tangentSpace, fun h => width_of_not_engaged h tangentSpace⟩
  · rw [← hsize]
    exact t.existsUnique_between hk hlt
  · exact t.stop_le_start hij (by rwa [hsize])

/-- Five blocks, of which the second is held, the third has no direction and the fourth is used by
nobody; the last has three parameters and two directions. -/
def mixed : Problem ℚ where
  blocks := #[{ values := #[5, 6] }, { values := #[7], held := true },
    ParameterBlock.withManifold { values := #[8, 8] }
      (some (.ofSubset ⟨2, [0, 1], by decide, by decide⟩)),
    { values := #[9] },
    ParameterBlock.withManifold { values := #[1, 2, 3] }
      (some (.ofSubset ⟨3, [1], by decide, by decide⟩))]
  residuals := #[⟨[4, 2, 1, 0], [.integer 4, .integer 2, .integer 1, .integer 0],
    ⟨fun _ => .ok #[], fun _ => .ok [], none⟩⟩]

/-- Three ranges are empty and start where the last one does, to which the third column belongs. -/
theorem make_allots_mixed :
    (make mixed true).ranges = #[⟨0, 2⟩, ⟨2, 0⟩, ⟨2, 0⟩, ⟨2, 0⟩, ⟨2, 2⟩] ∧
      (make mixed false).ranges = #[⟨0, 2⟩, ⟨2, 0⟩, ⟨2, 0⟩, ⟨2, 0⟩, ⟨2, 3⟩] ∧
      ∃! i, i < mixed.blocks.size ∧ ((make mixed true).rangeAt i).start ≤ 2 ∧
        2 < ((make mixed true).rangeAt i).stop := by
  obtain ⟨-, -, -, -, -, hunique, -⟩ := make_allots mixed true
  have hcols : (2 : Int) < (make mixed true).numCols := by
    rw [show (make mixed true).numCols = 4 by cbv]
    decide
  exact ⟨by cbv, by cbv, hunique 2 (by decide) hcols⟩

end ColumnBounds

end LeastSquares
