/-
LeastSquares.Proofs.Enumeration — an upper triangle, counted row by row.

The rows of the triangle of side `n` are parts of the sizes `n`, `n - 1`, …, laid one behind the
other, so what is known of such parts tells where a number lies: the row of a number is the part
that it falls into, and a pair has the number of places in front of its row plus its place in the
row (`index_eq_offset`). That the places in front of row `i` are `i * n - i * (i - 1) / 2` is the
quadratic fact on which the closed formula rests (`two_mul_offset`).

The loop that looks for a row takes the sizes of the rows from the number one by one. In front of
row `i` it has taken just the places in front of that row (`Cursor.front`); this is what one turn
preserves (`Cursor.next_front`), and it carries the loop to the row of the number and no further
(`Cursor.ends_front`). There the row is not empty, so the loop never meets one that is.
-/
import Mathlib.Data.Nat.Init
import Mathlib.Tactic.Ring
import LeastSquares.Proofs.Numbering
import LeastSquares.Proofs.Tiling

namespace LeastSquares.Triangle

/-! ## Rows one behind the other -/

/-- How many pairs row `i` holds. -/
def rowSize (n i : Nat) : Nat := n - i

/-- Twice the number of pairs in front of a row. -/
theorem two_mul_offset {n i : Nat} (h : i ≤ n) :
    2 * offset (rowSize n) i + i * (i - 1) = 2 * (i * n) := by
  induction i with
  | zero => simp
  | succ i ih =>
    have hfront := ih (by omega)
    have hproduct : (i + 1) * (i + 1 - 1) = i * (i - 1) + 2 * i := by
      cases i with
      | zero => rfl
      | succ i =>
        simp only [Nat.add_sub_cancel]
        ring
    rw [offset_succ, hproduct, Nat.succ_mul i n, rowSize]
    omega

theorem index_eq_offset {n i : Nat} (h : i ≤ n) (j : Nat) :
    index n i j = offset (rowSize n) i + (j - i) := by
  have hfront := two_mul_offset h
  unfold index
  omega

/-- All rows together. -/
theorem count_eq_offset (n : Nat) : count n = offset (rowSize n) n := by
  have hfront := two_mul_offset (Nat.le_refl n)
  have hproduct : n * (n - 1) + n = n * n := by
    cases n with
    | zero => rfl
    | succ n => exact (Nat.mul_succ _ _).symm
  unfold count
  rw [Nat.mul_succ]
  omega

/-- The number of a pair in the integers. -/
theorem cast_index {n i j : Nat} (hij : i ≤ j) (hj : j < n) :
    (index n i j : Int) = (i : Int) * n - (i : Int) * (i - 1) / 2 + (j - i) := by
  have hfront := two_mul_offset (show i ≤ n by omega)
  have hindex := index_eq_offset (show i ≤ n by omega) j
  have hproduct : ((i * (i - 1) : Nat) : Int) = (i : Int) * (i - 1) := by
    cases i with
    | zero => rfl
    | succ i => push_cast [Nat.add_sub_cancel]; ring
  rw [← hproduct, ← Int.natCast_mul]
  omega

/-- The pair of two places is found at its number. -/
theorem pair_index {n i j : Nat} (hij : i ≤ j) (hj : j < n) :
    index n i j < count n ∧ pair n (index n i j) = (i, j) := by
  have hi : (List.range n)[i]? = some i := List.getElem?_range (by omega)
  have hat := Request.getElem?_allPairs hij hi (List.getElem?_range hj)
  rw [List.length_range, ← map_pair_range, List.getElem?_map] at hat
  obtain ⟨k, hk, hpair⟩ := Option.map_eq_some_iff.mp hat
  obtain ⟨hlt, rfl⟩ := List.getElem?_eq_some_iff.mp hk
  rw [List.length_range] at hlt
  rw [List.getElem_range] at hpair
  exact ⟨hlt, hpair⟩

/-- Every number belongs to a pair. -/
theorem exists_index {n k : Nat} (h : k < count n) : ∃ i j, i ≤ j ∧ j < n ∧ index n i j = k := by
  rw [count_eq_offset] at h
  obtain ⟨i, hi, hle, hlt⟩ := exists_offset_le (rowSize n) h
  refine ⟨i, i + (k - offset (rowSize n) i), by omega, ?_, ?_⟩
  · rw [rowSize] at hlt
    omega
  · rw [index_eq_offset (by omega)]
    omega

/-- Pairs of earlier rows, and earlier pairs of the same row, have smaller numbers. -/
theorem index_lt_index {n i j i' j' : Nat} (hij : i ≤ j) (hj : j < n) (hij' : i' ≤ j')
    (hj' : j' < n) (h : i < i' ∨ i = i' ∧ j < j') : index n i j < index n i' j' := by
  rw [index_eq_offset (by omega), index_eq_offset (by omega)]
  rcases h with h | ⟨rfl, h⟩
  · have hrow := offset_add_le (rowSize n) h
    rw [rowSize] at hrow
    omega
  · omega

theorem position_eq_ok_iff {n : Nat} {k : Int} {i j : Nat} :
    position k n = .ok (i, j) ↔ i ≤ j ∧ j < n ∧ k = index n i j := by
  unfold position
  constructor
  · intro h
    split at h
    · rename_i hk
      obtain ⟨a, b, hab, hb, hindex⟩ := exists_index (show k.toNat < count n by omega)
      rw [← hindex, (pair_index hab hb).2, Except.ok.injEq, Prod.mk.injEq] at h
      obtain ⟨rfl, rfl⟩ := h
      exact ⟨hab, hb, by omega⟩
    · cases h
  · rintro ⟨hij, hj, rfl⟩
    obtain ⟨hlt, hpair⟩ := pair_index hij hj
    rw [if_pos ⟨by omega, by omega⟩, Int.toNat_natCast, hpair]

theorem position_eq_error_iff {n : Nat} {k : Int} :
    position k n = .error .outsideTriangle ↔ ¬ (0 ≤ k ∧ k < count n) := by
  unfold position
  split <;> simp_all

/-! ## The loop -/

/-- How many pairs are left to be passed, the row to which the loop has come, and how many pairs
this row holds. -/
structure Cursor where
  left : Int
  row : Int
  width : Int

namespace Cursor

/-- Pass a row. -/
def next (c : Cursor) : Cursor := ⟨c.left - c.width, c.row + 1, c.width - 1⟩

/-- The loop ends, and where: rows are passed as long as no fewer pairs are left than they hold. -/
inductive Ends : Cursor → Cursor → Prop
  | stop {c : Cursor} : c.left < c.width → Ends c c
  | pass {c d : Cursor} : c.width ≤ c.left → Ends c.next d → Ends c d

/-- The loop ends at one place. -/
theorem Ends.unique {c d d' : Cursor} (h : Ends c d) (h' : Ends c d') : d = d' := by
  induction h with
  | stop hlt =>
    cases h' with
    | stop => rfl
    | pass hle => omega
  | pass hle _ ih =>
    cases h' with
    | stop hlt => omega
    | pass _ hrest => exact ih hrest

/-- The cursor in front of a row, where all pairs of the rows before it have been passed. -/
def front (n : Nat) (k : Int) (i : Nat) : Cursor := ⟨k - offset (rowSize n) i, i, n - i⟩

/-- **One turn** goes from a row that exists to the next one. -/
theorem next_front {n i : Nat} (k : Int) (h : i < n) : (front n k i).next = front n k (i + 1) := by
  simp only [next, front, mk.injEq, offset_succ, rowSize]
  omega

/-- **All turns** go to the row into which the number falls. -/
theorem ends_front {n i : Nat} {k : Int} (hi : i < n) (hle : offset (rowSize n) i ≤ k)
    (hlt : k < offset (rowSize n) i + rowSize n i) : Ends (front n k 0) (front n k i) := by
  have hrest : ∀ m, m ≤ i → Ends (front n k m) (front n k i) := by
    intro m hm
    induction hm using Nat.decreasingInduction with
    | self =>
      refine .stop ?_
      simp only [front, rowSize] at hlt ⊢
      omega
    | of_succ m hm ih =>
      refine .pass ?_ ?_
      · have hrow := offset_add_le (rowSize n) hm
        simp only [front, rowSize] at hrow ⊢
        omega
      · rw [next_front k (by omega)]
        exact ih
  exact hrest 0 (Nat.zero_le i)

/-- The loop finds the pair of its number. -/
theorem ends_index {n i j : Nat} (hij : i ≤ j) (hj : j < n) :
    Ends ⟨index n i j, 0, n⟩ ⟨j - i, i, n - i⟩ := by
  have hindex := index_eq_offset (show i ≤ n by omega) j
  have hends := ends_front (n := n) (i := i) (k := index n i j) (by omega) (by omega)
    (by rw [rowSize]; omega)
  have hfirst : front n (index n i j) 0 = ⟨index n i j, 0, n⟩ := by simp [front]
  have hlast : front n (index n i j) i = ⟨j - i, i, n - i⟩ := by
    simp only [front, mk.injEq, and_true]
    omega
  rwa [hfirst, hlast] at hends

end Cursor

/-! ## The enumeration -/

/-- **The numbers of the triangle** are those from zero up to `n * (n + 1) / 2`, and all others are
refused. The loop ends for every number, with the row of the pair and what is left of the number in
this row; the number is told by the pair; different numbers have different pairs, no pair is missed,
and the numbers grow row by row. -/
theorem position_enumerates (n : Nat) :
    (∀ k : Int, position k n = .error .outsideTriangle ↔
      ¬ (0 ≤ k ∧ k < (n : Int) * (n + 1) / 2)) ∧
    (∀ k : Int, 0 ≤ k → k < (n : Int) * (n + 1) / 2 → ∃ i j : Nat, position k n = .ok (i, j) ∧
      i ≤ j ∧ j < n ∧ k = (i : Int) * n - (i : Int) * (i - 1) / 2 + (j - i) ∧
      ∀ final, Cursor.Ends ⟨k, 0, n⟩ final ↔ final = ⟨j - i, i, n - i⟩) ∧
    (∀ k k' pair, position k n = .ok pair → position k' n = .ok pair → k = k') ∧
    (∀ i j, i ≤ j → j < n → ∃ k, position k n = .ok (i, j)) ∧
    ∀ k k' i j i' j', position k n = .ok (i, j) → position k' n = .ok (i', j') →
      (k < k' ↔ i < i' ∨ i = i' ∧ j < j') := by
  have hcount : (n : Int) * (n + 1) / 2 = count n := by simp [count]
  rw [hcount]
  refine ⟨fun k => position_eq_error_iff, fun k hk hlt => ?_, ?_, ?_, ?_⟩
  · obtain ⟨i, j, hij, hj, hindex⟩ := exists_index (show k.toNat < count n by omega)
    obtain rfl : k = index n i j := by omega
    refine ⟨i, j, position_eq_ok_iff.mpr ⟨hij, hj, rfl⟩, hij, hj, cast_index hij hj,
      fun final => ?_⟩
    have hends := Cursor.ends_index hij hj
    exact ⟨fun h => h.unique hends, fun h => h ▸ hends⟩
  · rintro k k' ⟨i, j⟩ hk hk'
    rw [(position_eq_ok_iff.mp hk).2.2, (position_eq_ok_iff.mp hk').2.2]
  · exact fun i j hij hj => ⟨index n i j, position_eq_ok_iff.mpr ⟨hij, hj, rfl⟩⟩
  · intro k k' i j i' j' hk hk'
    obtain ⟨hij, hj, rfl⟩ := position_eq_ok_iff.mp hk
    obtain ⟨hij', hj', rfl⟩ := position_eq_ok_iff.mp hk'
    rw [Int.ofNat_lt]
    refine ⟨fun h => ?_, index_lt_index hij hj hij' hj'⟩
    by_contra hnot
    -- otherwise the pairs stand the other way round, or are one
    rcases (show (i' < i ∨ i' = i ∧ j' < j) ∨ i = i' ∧ j = j' by omega) with hback | ⟨rfl, rfl⟩
    · exact Nat.lt_asymm h (index_lt_index hij' hj' hij hj hback)
    · exact Nat.lt_irrefl _ h

/-- Number four of the triangle of side three stands in the second row. -/
theorem position_enumerates_three :
    (4 : Int) < ((3 : Nat) : Int) * (3 + 1) / 2 ∧ position 4 3 = .ok (1, 2) ∧
      Cursor.Ends ⟨4, 0, 3⟩ ⟨1, 1, 2⟩ := by
  obtain ⟨-, hfound, -⟩ := position_enumerates 3
  obtain ⟨i, j, hposition, -, -, -, hends⟩ := hfound 4 (by decide) (by decide)
  have hpair : position 4 3 = .ok (1, 2) := rfl
  rw [hpair, Except.ok.injEq, Prod.mk.injEq] at hposition
  obtain ⟨rfl, rfl⟩ := hposition
  exact ⟨by decide, hpair, (hends _).mpr rfl⟩

end LeastSquares.Triangle
