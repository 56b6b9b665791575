/-
LeastSquares.Proofs.Multiplication — rows multiplied on several threads make the product.

A thread adds the products of its own rows to the entries that belong to them. The parts of all
threads hold every row once, so in whatever order they run, each entry has the product of its row
added to it exactly once (`multiplyAdd_eq`). A row is multiplied position by position, and over a
field the sum is that of all entries of the row, repeated columns and missing ones included
(`rowDot_eq_sum`).
-/
import LeastSquares.Preconditioner
import LeastSquares.Proofs.Elimination
import LeastSquares.Proofs.Partition

namespace LeastSquares.Compressed

section Rows

variable {α : Type} [Zero α] [Add α] [Mul α]

@[simp] theorem size_addRows (A : Compressed α) (x : Array α) (is : List Nat) (y : Array α) :
    (A.addRows x is y).size = y.size := by
  induction is generalizing y with
  | nil => rfl
  | cons i is ih => rw [addRows, ih, Array.size_setIfInBounds]

theorem addRows_eq_foldl (A : Compressed α) (x : Array α) (is : List Nat) (y : Array α) :
    A.addRows x is y = is.foldl (fun y i => A.addRows x [i] y) y := by
  induction is generalizing y with
  | nil => rfl
  | cons i is ih => rw [List.foldl_cons, ← ih]; rfl

theorem addRows_append (A : Compressed α) (x : Array α) (is js : List Nat) (y : Array α) :
    A.addRows x (is ++ js) y = A.addRows x js (A.addRows x is y) := by
  rw [addRows_eq_foldl, List.foldl_append, ← addRows_eq_foldl, ← addRows_eq_foldl]

/-- Rows that are met once have their products added once; other entries stay as they are. -/
theorem getD_addRows (A : Compressed α) (x : Array α) {is : List Nat} (nodup : is.Nodup)
    (y : Array α) {i : Nat} (hi : i < y.size) :
    (A.addRows x is y).getD i 0 =
      if i ∈ is then y.getD i 0 + A.rowDot x i else y.getD i 0 := by
  induction is generalizing y with
  | nil => rfl
  | cons j is ih =>
    obtain ⟨hj, hrest⟩ := List.nodup_cons.mp nodup
    rw [addRows, ih hrest _ (by rwa [Array.size_setIfInBounds]), getD_setIfInBounds]
    by_cases hij : i = j
    · subst hij
      rw [if_neg hj, if_pos ⟨rfl, hi⟩, if_pos List.mem_cons_self]
    · simp only [hij, false_and, if_false, List.mem_cons, false_or]

/-- Where every row is met once, every entry has the product of its row added to it. -/
theorem addRows_of_perm (A : Compressed α) (x : Array α) {is : List Nat} {y : Array α} {n : Nat}
    (hy : y.size = n) (perm : is.Perm (List.range n)) :
    A.addRows x is y = Array.ofFn fun (i : Fin n) => y.getD i 0 + A.rowDot x i := by
  apply Array.ext
  · rw [size_addRows, Array.size_ofFn, hy]
  · intro i hi _
    have hi : i < y.size := by rwa [size_addRows] at hi
    have hentry := A.getD_addRows x (perm.nodup_iff.mpr List.nodup_range) y hi
    rw [if_pos (perm.mem_iff.mpr (List.mem_range.mpr (by omega)))] at hentry
    rw [Array.getElem_ofFn, ← hentry]
    simp [Array.getD_eq_getD_getElem?, hi]

/-- **Threads multiply.** Where the parts of a matrix fit together and the operands have its sizes,
every entry has the product of its row added to it, whatever the schedule and the number of
threads. -/
theorem multiplyAdd_eq (schedule : Schedule) (threads : Int) {A : Compressed α}
    (hcheck : A.check = .ok ()) {x y : Array α} (hx : x.size = A.pattern.numCols)
    (hy : y.size = A.pattern.numRows) :
    A.multiplyAdd schedule threads x y =
      .ok (Array.ofFn fun (i : Fin A.pattern.numRows) => y.getD i 0 + A.rowDot x i) := by
  have hworker : ∀ part ∈ schedule.order (Parallel.parts ⟨0, A.pattern.numRows⟩ threads),
      ∀ state, ((A.addRows x part.naturals state, none) : Array α × Option Fault) =
        (part.naturals.foldl (fun y i => A.addRows x [i] y) state, none) :=
    fun part _ state => by rw [addRows_eq_foldl]
  have hrun := Parallel.run_foldl hworker y
  rw [← addRows_eq_foldl,
    A.addRows_of_perm x hy (Parallel.perm_range_scheduled schedule _ threads)] at hrun
  unfold multiplyAdd
  rw [if_pos ⟨hx, hy⟩, hcheck]
  simp only [hrun]

end Rows

section Sums

variable {K : Type} [Field K]

/-- The product of a row is the sum over all columns. -/
theorem rowDot_eq_sum {A : Compressed K} (w : A.pattern.WellFormed) (x : Array K) {i : Nat}
    (hi : i < A.pattern.numRows) :
    A.rowDot x i = ∑ j ∈ Finset.range A.pattern.numCols, A.entry i j * x.getD j 0 := by
  have hfold : A.rowDot x i =
      (A.sparseRow i).foldl (fun acc p => acc + p.2 * x.getD p.1 0) 0 := by
    rw [rowDot, sumOver, sparseRow, List.foldl_map]
  rw [hfold, Symmetric.foldl_products (A.sparseRow i) (fun p hp => lt_of_mem_sparseRow w hi hp),
    zero_add]
  simp only [entry_eq]

/-- The product of a row is that of the row of the dense matrix. -/
theorem rowDot_eq_dense {A : Compressed K} (w : A.pattern.WellFormed) (x : Array K) {i : Nat}
    (hi : i < A.pattern.numRows) :
    A.rowDot x i = ∑ j ∈ Finset.range A.pattern.numCols, A.dense.get i j * x.getD j 0 := by
  rw [rowDot_eq_sum w x hi]
  exact Finset.sum_congr rfl fun j hj => by rw [get_dense hi (Finset.mem_range.mp hj)]

/-- An entry is the sum of the values that are stored for it. -/
theorem entry_eq_sum (A : Compressed K) (i j : Nat) :
    A.entry i j =
      (((A.pattern.positions i).filter fun k => A.pattern.column k == j).map A.value).sum := by
  rw [entry, sumOver, List.sum_eq_foldl, List.foldl_map]

end Sums

end LeastSquares.Compressed
