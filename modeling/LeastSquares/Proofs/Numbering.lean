/-
LeastSquares.Proofs.Numbering — the pairs of an upper triangle, numbered row by row.

A joint matrix has one block for every two of its handles of which the first one is not behind the
second, and threads are given the numbers of these pairs. Going through the numbers is going through
`Request.allPairs`, the list of the pairs row by row (`map_pair_range`), and there the pair of `i`
and `j` stands at its number (`getElem?_allPairs`).
-/
import LeastSquares.Request
import LeastSquares.Triangle

namespace LeastSquares

namespace Triangle

theorem count_succ (n : Nat) : count (n + 1) = n + 1 + count n := by
  have h : (n + 1) * (n + 1 + 1) = n * (n + 1) + (n + 1) * 2 := by
    rw [Nat.mul_comm n, ← Nat.mul_add]
  rw [count, count, h, Nat.add_mul_div_right _ _ (by decide), Nat.add_comm]

/-- Behind the first row the numbers are those of a smaller triangle. -/
theorem index_succ {n i : Nat} (h : i ≤ n) (j : Nat) :
    index (n + 1) (i + 1) (j + 1) = n + 1 + index n i j := by
  have hrow : (i + 1) * (i + 1 - 1) / 2 = i * (i - 1) / 2 + i := by
    have hdouble : (i + 1) * (i + 1 - 1) = i * (i - 1) + i * 2 := by
      cases i with
      | zero => rfl
      | succ i => rw [← Nat.mul_add, Nat.mul_comm]; rfl
    rw [hdouble, Nat.add_mul_div_right _ _ (by decide)]
  have hle : i * (i - 1) / 2 ≤ i * n :=
    Nat.le_trans (Nat.div_le_self _ _) (Nat.mul_le_mul_left i (by omega))
  have hproduct : (i + 1) * (n + 1) = i * n + i + (n + 1) := by
    rw [Nat.add_mul, Nat.mul_add, Nat.one_mul, Nat.mul_one]
  simp only [index, hrow, hproduct]
  omega

end Triangle

namespace Request

open Triangle

variable {β γ : Type}

theorem map_allPairs (f : β → γ) (xs : List β) :
    allPairs (xs.map f) = (allPairs xs).map fun pair => (f pair.1, f pair.2) := by
  induction xs with
  | nil => rfl
  | cons x xs ih => simp [allPairs, ih]

theorem length_allPairs (xs : List β) : (allPairs xs).length = count xs.length := by
  induction xs with
  | nil => simp [allPairs, count]
  | cons x xs ih =>
    rw [allPairs, List.length_append, ih, List.length_cons, List.length_cons, List.length_map,
      count_succ]

/-- The pair of two members stands at its number. -/
theorem getElem?_allPairs {xs : List β} {i j : Nat} {x y : β} (hij : i ≤ j)
    (hi : xs[i]? = some x) (hj : xs[j]? = some y) :
    (allPairs xs)[index xs.length i j]? = some (x, y) := by
  induction xs generalizing i j with
  | nil => cases hi
  | cons z xs ih =>
    rw [allPairs]
    cases i with
    | zero =>
      obtain rfl : z = x := by simpa using hi
      have hrow : (z, z) :: xs.map (fun y => (z, y)) = (z :: xs).map fun y => (z, y) := rfl
      have hindex : index (z :: xs).length 0 j = j := by simp [index]
      rw [hrow, hindex, List.getElem?_append_left, List.getElem?_map, hj, Option.map_some]
      rw [List.length_map]
      exact (List.getElem?_eq_some_iff.mp hj).1
    | succ i =>
      obtain ⟨j, rfl⟩ : ∃ k, j = k + 1 := ⟨j - 1, by omega⟩
      rw [List.getElem?_cons_succ] at hi hj
      have hlt : i < xs.length := (List.getElem?_eq_some_iff.mp hi).1
      rw [List.length_cons, index_succ (Nat.le_of_lt hlt), List.getElem?_append_right (by simp)]
      simp only [List.length_cons, List.length_map, Nat.add_sub_cancel_left]
      exact ih (by omega) hi hj

/-- The pairs are those of two members of which the first is not behind the second. -/
theorem mem_allPairs {xs : List β} {x y : β} :
    (x, y) ∈ allPairs xs ↔ ∃ i j : Nat, i ≤ j ∧ xs[i]? = some x ∧ xs[j]? = some y := by
  refine ⟨fun h => ?_, ?_⟩
  · induction xs with
    | nil => cases h
    | cons z xs ih =>
      rw [allPairs, List.mem_append] at h
      rcases h with h | h
      · have hrow : (z, z) :: xs.map (fun y => (z, y)) = (z :: xs).map fun y => (z, y) := rfl
        rw [hrow] at h
        obtain ⟨w, hw, heq⟩ := List.mem_map.mp h
        obtain ⟨rfl, rfl⟩ := Prod.mk.inj heq
        obtain ⟨j, hj⟩ := List.mem_iff_getElem?.mp hw
        exact ⟨0, j, Nat.zero_le _, rfl, hj⟩
      · obtain ⟨i, j, hij, hi, hj⟩ := ih h
        exact ⟨i + 1, j + 1, by omega, hi, hj⟩
  · rintro ⟨i, j, hij, hi, hj⟩
    exact List.mem_of_getElem? (getElem?_allPairs hij hi hj)

end Request

namespace Triangle

open Request

/-- Going through the numbers of a triangle goes through its rows. -/
theorem map_walk_range (i width : Nat) :
    (List.range (count width)).map (walk i width) = allPairs (List.range' i width) := by
  induction width generalizing i with
  | zero => rfl
  | succ width ih =>
    have hrow : (i, i) :: (List.range' (i + 1) width).map (fun j => (i, j)) =
        (List.range' i (width + 1)).map fun j => (i, j) := rfl
    rw [count_succ, List.range_add, List.map_append, List.map_map, List.range'_succ, allPairs, hrow]
    congr 1
    · rw [List.range'_eq_map_range, List.map_map]
      refine List.map_congr_left fun k hk => ?_
      rw [walk, if_pos (List.mem_range.mp hk)]
      rfl
    · rw [← ih (i + 1)]
      refine List.map_congr_left fun k _ => ?_
      rw [Function.comp_apply, walk, if_neg (by omega), Nat.add_sub_cancel_left]

/-- **The numbers of an upper triangle** count its pairs row by row. -/
theorem map_pair_range (n : Nat) :
    (List.range (count n)).map (pair n) = allPairs (List.range n) := by
  rw [List.range_eq_range' (n := n), ← map_walk_range]
  rfl

end Triangle

end LeastSquares
