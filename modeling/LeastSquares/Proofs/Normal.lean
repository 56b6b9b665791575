/-
LeastSquares.Proofs.Normal — the sparse product `J'J` is the product of the transpose with `J`.

Over a commutative ring a sparse row is a function of its column: its entry is zero away from its
columns (`entry_eq_zero`), and adding a multiple of a row adds the multiple of its entries
(`entry_addMultiple`). One outer product therefore adds `weight vᵢ * vⱼ` to every entry on or above
the diagonal (`entry_addOuter`), although only the rows that `v` meets are touched; and summing the
outer products of the rows of `J` gives `normalMatrix_eq`.

What elimination relies on later is that rows stay ascending and on or above the diagonal
(`Symmetric.WellFormed`), which outer products of ascending rows preserve
(`WellFormed.addOuter`, `wellFormed_normal`).
-/
import Mathlib.LinearAlgebra.Matrix.Symmetric
import Mathlib.Algebra.BigOperators.Fin
import Mathlib.Tactic.Ring
import LeastSquares.Sparse.Symmetric
import LeastSquares.Proofs.Layout

namespace LeastSquares

open Matrix

theorem sumTo_eq_sum {R : Type} [AddCommMonoid R] (n : Nat) (f : Nat → R) :
    sumTo n f = ∑ i ∈ Finset.range n, f i := by
  induction n with
  | zero => rfl
  | succ n ih => rw [sumTo_succ, ih, Finset.sum_range_succ]

/-! ## Dense products -/

namespace Dense

variable {R : Type} [NonAssocSemiring R]

theorem mul_identity (A : Dense R) : A.mul (identity A.cols) = A :=
  ext_get rfl rfl fun i j hi hj => by
    have hj : j < A.cols := hj
    rw [get_mul A (identity A.cols) hi hj, sumTo_eq_sum, Finset.sum_eq_single j]
    · rw [get_identity hj hj, if_pos rfl, mul_one]
    · intro k hk hkj
      rw [get_identity (Finset.mem_range.mp hk) hj, if_neg hkj, mul_zero]
    · intro hmem
      exact absurd (Finset.mem_range.mpr hj) hmem

theorem identity_mul (A : Dense R) : (identity A.rows).mul A = A :=
  ext_get rfl rfl fun i j hi hj => by
    have hi : i < A.rows := hi
    rw [get_mul (identity A.rows) A hi hj, sumTo_eq_sum, Finset.sum_eq_single i]
    · rw [get_identity hi hi, if_pos rfl, one_mul]
    · intro k hk hki
      rw [get_identity hi (Finset.mem_range.mp hk), if_neg (Ne.symm hki), zero_mul]
    · intro hmem
      exact absurd (Finset.mem_range.mpr hi) hmem

theorem transpose_identity (n : Nat) : (identity n : Dense R).transpose = identity n :=
  ext_get rfl rfl fun i j hi hj => by
    have hi : i < n := hi
    have hj : j < n := hj
    rw [get_transpose, get_identity hj hi, get_identity hi hj]
    simp only [eq_comm]

end Dense

/-! ## Sparse rows -/

namespace SparseRow

variable {α : Type}

/-- The columns of a row ascend, so that none of them is stored twice. -/
def Ascending (row : SparseRow α) : Prop := row.Pairwise fun a b => a.1 < b.1

theorem Ascending.tail {p : Nat × α} {row : SparseRow α} (h : Ascending (p :: row)) :
    Ascending row := (List.pairwise_cons.mp h).2

theorem Ascending.lt_of_mem {p q : Nat × α} {row : SparseRow α} (h : Ascending (p :: row))
    (hq : q ∈ row) : p.1 < q.1 := (List.pairwise_cons.mp h).1 q hq

/-- A column of a sum of rows is a column of one of them. -/
theorem exists_of_mem_addMultiple [Add α] [Mul α] {c : α} {xs ys : SparseRow α} {p : Nat × α}
    (h : p ∈ addMultiple c xs ys) : ∃ q, (q ∈ xs ∨ q ∈ ys) ∧ q.1 = p.1 := by
  fun_induction addMultiple c xs ys with
  | case1 ys => exact ⟨p, Or.inr h, rfl⟩
  | case2 j x xs ih =>
    rcases List.mem_cons.mp h with rfl | hp
    · exact ⟨(j, x), Or.inl List.mem_cons_self, rfl⟩
    · obtain ⟨q, hq | hq, heq⟩ := ih hp
      · exact ⟨q, Or.inl (List.mem_cons_of_mem _ hq), heq⟩
      · cases hq
  | case3 j x xs k y ys hjk ih =>
    rcases List.mem_cons.mp h with rfl | hp
    · exact ⟨(j, x), Or.inl List.mem_cons_self, rfl⟩
    · obtain ⟨q, hq | hq, heq⟩ := ih hp
      · exact ⟨q, Or.inl (List.mem_cons_of_mem _ hq), heq⟩
      · exact ⟨q, Or.inr hq, heq⟩
  | case4 j x xs k y ys hjk hkj ih =>
    rcases List.mem_cons.mp h with rfl | hp
    · exact ⟨(k, y), Or.inr List.mem_cons_self, rfl⟩
    · obtain ⟨q, hq | hq, heq⟩ := ih hp
      · exact ⟨q, Or.inl hq, heq⟩
      · exact ⟨q, Or.inr (List.mem_cons_of_mem _ hq), heq⟩
  | case5 j x xs k y ys hjk hkj ih =>
    rcases List.mem_cons.mp h with rfl | hp
    · exact ⟨(k, y), Or.inr List.mem_cons_self, rfl⟩
    · obtain ⟨q, hq | hq, heq⟩ := ih hp
      · exact ⟨q, Or.inl (List.mem_cons_of_mem _ hq), heq⟩
      · exact ⟨q, Or.inr (List.mem_cons_of_mem _ hq), heq⟩

/-- Sums of ascending rows ascend. -/
theorem Ascending.addMultiple [Add α] [Mul α] {c : α} {xs ys : SparseRow α} (hx : Ascending xs)
    (hy : Ascending ys) : Ascending (SparseRow.addMultiple c xs ys) := by
  fun_induction SparseRow.addMultiple c xs ys with
  | case1 ys => exact hy
  | case2 j x xs ih =>
    refine List.pairwise_cons.mpr ⟨?_, ih hx.tail hy⟩
    intro p hp
    obtain ⟨q, hq | hq, heq⟩ := exists_of_mem_addMultiple hp
    · rw [← heq]
      exact hx.lt_of_mem hq
    · cases hq
  | case3 j x xs k y ys hjk ih =>
    refine List.pairwise_cons.mpr ⟨?_, ih hx.tail hy⟩
    intro p hp
    obtain ⟨q, hq | hq, heq⟩ := exists_of_mem_addMultiple hp
    · rw [← heq]
      exact hx.lt_of_mem hq
    · rw [← heq]
      rcases List.mem_cons.mp hq with rfl | hq
      · exact hjk
      · exact Nat.lt_trans hjk (hy.lt_of_mem hq)
  | case4 j x xs k y ys hjk hkj ih =>
    refine List.pairwise_cons.mpr ⟨?_, ih hx hy.tail⟩
    intro p hp
    obtain ⟨q, hq | hq, heq⟩ := exists_of_mem_addMultiple hp
    · rw [← heq]
      rcases List.mem_cons.mp hq with rfl | hq
      · exact hkj
      · exact Nat.lt_trans hkj (hx.lt_of_mem hq)
    · rw [← heq]
      exact hy.lt_of_mem hq
  | case5 j x xs k y ys hjk hkj ih =>
    obtain rfl : j = k := by omega
    refine List.pairwise_cons.mpr ⟨?_, ih hx.tail hy.tail⟩
    intro p hp
    obtain ⟨q, hq | hq, heq⟩ := exists_of_mem_addMultiple hp
    · rw [← heq]
      exact hx.lt_of_mem hq
    · rw [← heq]
      exact hy.lt_of_mem hq

variable {R : Type} [CommRing R]

theorem foldl_entry (row : SparseRow R) (j : Nat) (acc : R) :
    row.foldl (fun acc p => if p.1 = j then acc + p.2 else acc) acc = acc + row.entry j := by
  unfold entry
  induction row generalizing acc with
  | nil => simp
  | cons p row ih =>
    rw [List.foldl_cons, List.foldl_cons, ih, ih (if p.1 = j then 0 + p.2 else 0)]
    split
    · ring
    · ring

@[simp] theorem entry_nil (j : Nat) : entry ([] : SparseRow R) j = 0 := rfl

theorem entry_cons (p : Nat × R) (row : SparseRow R) (j : Nat) :
    entry (p :: row) j = (if p.1 = j then p.2 else 0) + row.entry j := by
  have h := foldl_entry row j (if p.1 = j then 0 + p.2 else 0)
  rw [zero_add] at h
  rw [← h]
  unfold entry
  rw [List.foldl_cons, zero_add]

/-- Away from its columns a row is zero. -/
theorem entry_eq_zero {row : SparseRow R} {j : Nat} (h : ∀ p ∈ row, p.1 ≠ j) :
    row.entry j = 0 := by
  induction row with
  | nil => rfl
  | cons p row ih =>
    rw [entry_cons, if_neg (h p List.mem_cons_self), zero_add]
    exact ih fun q hq => h q (List.mem_cons_of_mem _ hq)

/-- In front of the rest of an ascending row, the rest is zero. -/
theorem Ascending.entry_rest {p : Nat × R} {row : SparseRow R} (h : Ascending (p :: row)) {j : Nat}
    (hj : j ≤ p.1) : row.entry j = 0 := by
  refine entry_eq_zero ?_
  intro q hq heq
  have := h.lt_of_mem hq
  omega

/-- Adding a multiple of a row adds the multiple of its entries. -/
theorem entry_addMultiple (c : R) (xs ys : SparseRow R) (j : Nat) :
    (SparseRow.addMultiple c xs ys).entry j = ys.entry j + c * xs.entry j := by
  fun_induction SparseRow.addMultiple c xs ys with
  | case1 ys => simp
  | case2 i x xs ih =>
    rw [entry_cons, ih, entry_cons]
    split <;> ring
  | case3 i x xs k y ys hik ih =>
    rw [entry_cons, ih, entry_cons (i, x)]
    split <;> ring
  | case4 i x xs k y ys hik hki ih =>
    rw [entry_cons, ih, entry_cons (k, y)]
    ring
  | case5 i x xs k y ys hik hki ih =>
    obtain rfl : i = k := by omega
    rw [entry_cons, ih, entry_cons (i, x), entry_cons (i, y)]
    split <;> ring

/-- A row made of the values of a function at ascending columns has these entries. -/
theorem entry_map (g : Nat → R) {columns : List Nat} (h : columns.Pairwise (· < ·)) {j : Nat}
    (hj : j ∈ columns) : entry (columns.map fun c => (c, g c)) j = g j := by
  induction columns with
  | nil => cases hj
  | cons c columns ih =>
    obtain ⟨hc, hrest⟩ := List.pairwise_cons.mp h
    rw [List.map_cons, entry_cons]
    by_cases hjc : c = j
    · have hzero : entry (columns.map fun c => (c, g c)) j = 0 := by
        refine entry_eq_zero ?_
        intro p hp
        obtain ⟨c', hc', rfl⟩ := List.mem_map.mp hp
        have := hc c' hc'
        show c' ≠ j
        omega
      rw [if_pos hjc, hzero, add_zero, hjc]
    · have hmem : j ∈ columns := (List.mem_cons.mp hj).resolve_left fun h => hjc h.symm
      rw [if_neg hjc, zero_add, ih hrest hmem]

end SparseRow

/-! ## Symmetric matrices -/

namespace Symmetric

variable {α : Type}

/-- Every row ascends, and its columns lie between the diagonal and the last column. -/
structure WellFormed (A : Symmetric α) : Prop where
  ascending : ∀ i, (A.row i).Ascending
  bounds : ∀ i, ∀ p ∈ A.row i, i ≤ p.1 ∧ p.1 < A.size

theorem row_of_size_le {A : Symmetric α} {i : Nat} (h : A.size ≤ i) : A.row i = [] := by
  have h : A.rows.size ≤ i := h
  simp [row, Array.getD_eq_getD_getElem?, h]

theorem row_zeros (n i : Nat) : (zeros n : Symmetric α).row i = [] := by
  unfold row zeros
  by_cases h : i < n
  · simp [Array.getD_eq_getD_getElem?, h]
  · simp [Array.getD_eq_getD_getElem?, h]

theorem wellFormed_zeros (n : Nat) : (zeros n : Symmetric α).WellFormed where
  ascending := by
    intro i
    rw [row_zeros]
    exact List.Pairwise.nil
  bounds := by
    intro i p hp
    rw [row_zeros] at hp
    cases hp

/-- Changing one row leaves the others as they are. -/
theorem row_modify (A : Symmetric α) (f : SparseRow α → SparseRow α) (i a : Nat)
    (ha : a < A.size) :
    (Symmetric.mk (A.rows.modify i f)).row a = if i = a then f (A.row a) else A.row a := by
  have ha : a < A.rows.size := ha
  simp only [row, Array.getD_eq_getD_getElem?, Array.getElem?_modify,
    Array.getElem?_eq_getElem ha, Option.map_some]
  split <;> rfl

/-- Outer products of ascending rows keep the rows ascending and above the diagonal. -/
theorem WellFormed.addOuter [Add α] [Mul α] {A : Symmetric α} (w : A.WellFormed) (weight : α → α)
    {v : SparseRow α} (hv : v.Ascending) (hlt : ∀ p ∈ v, p.1 < A.size) :
    (Symmetric.addOuter weight v A).WellFormed := by
  induction v generalizing A with
  | nil => exact w
  | cons p rest ih =>
    obtain ⟨i, x⟩ := p
    have hsize : (Symmetric.mk (A.rows.modify i
        (SparseRow.addMultiple (weight x) ((i, x) :: rest)))).size = A.size := by simp [size]
    apply ih _ hv.tail
    · intro q hq
      rw [hsize]
      exact hlt q (List.mem_cons_of_mem _ hq)
    · refine ⟨?_, ?_⟩
      · intro a
        rcases Nat.lt_or_ge a A.size with ha | ha
        · rw [row_modify A _ i a ha]
          split
          · exact hv.addMultiple (w.ascending a)
          · exact w.ascending a
        · rw [row_of_size_le (by rw [hsize]; exact ha)]
          exact List.Pairwise.nil
      · intro a p hp
        rw [hsize]
        rcases Nat.lt_or_ge a A.size with ha | ha
        · rw [row_modify A _ i a ha] at hp
          split at hp
          · rename_i hia
            subst hia
            obtain ⟨q, hq | hq, heq⟩ := SparseRow.exists_of_mem_addMultiple hp
            · rw [← heq]
              refine ⟨?_, hlt q hq⟩
              rcases List.mem_cons.mp hq with rfl | hq
              · exact Nat.le_refl _
              · exact Nat.le_of_lt (hv.lt_of_mem hq)
            · rw [← heq]
              exact w.bounds i q hq
          · exact w.bounds a p hp
        · rw [row_of_size_le (by rw [hsize]; exact ha)] at hp
          cases hp

variable {R : Type} [CommRing R]

/-- An outer product adds to every entry the product of its two factors, the first one weighted. -/
theorem entry_addOuter (weight : R → R) (hzero : weight 0 = 0) {v : SparseRow R}
    (hv : v.Ascending) (A : Symmetric R) {a b : Nat} (hab : a ≤ b) (ha : a < A.size) :
    ((addOuter weight v A).row a).entry b =
      (A.row a).entry b + weight (v.entry a) * v.entry b := by
  induction v generalizing A with
  | nil => simp [addOuter, hzero]
  | cons p rest ih =>
    obtain ⟨i, x⟩ := p
    have hsize : a < (Symmetric.mk (A.rows.modify i
        (SparseRow.addMultiple (weight x) ((i, x) :: rest)))).size := by simpa [size] using ha
    rw [addOuter, ih hv.tail _ hsize, row_modify A _ i a ha, SparseRow.entry_cons _ rest a]
    by_cases hia : i = a
    · -- the row of the first column is done in this step
      subst hia
      rw [if_pos rfl, if_pos rfl, SparseRow.entry_addMultiple, hv.entry_rest (Nat.le_refl _),
        hzero, add_zero, zero_mul, add_zero]
    · rw [if_neg hia, if_neg hia, zero_add, SparseRow.entry_cons]
      by_cases hib : i = b
      · -- a column that stands in front of `v` is met by no later step either
        have hlt : a ≤ i := by omega
        rw [hv.entry_rest hlt, hzero, zero_mul, zero_mul]
      · rw [if_neg hib, zero_add]

/-- The matrix with the entries of a symmetric one. -/
def toMatrix (A : Symmetric R) (n : Nat) : Matrix (Fin n) (Fin n) R :=
  Matrix.of fun i j => A.get i j

@[simp] theorem toMatrix_apply (A : Symmetric R) (n : Nat) (i j : Fin n) :
    A.toMatrix n i j = A.get i j := rfl

end Symmetric

/-! ## The normal matrix -/

namespace Compressed

variable {R : Type}

theorem map_fst_sparseRow [Zero R] (J : Compressed R) (i : Nat) :
    (J.sparseRow i).map Prod.fst = J.pattern.rowColumns i := by
  simp [sparseRow, Pattern.rowColumns, Function.comp_def]

/-- The rows of a matrix with an ascending pattern ascend. -/
theorem ascending_sparseRow [Zero R] {J : Compressed R} (a : J.pattern.Ascending) {i : Nat}
    (hi : i < J.pattern.numRows) : (J.sparseRow i).Ascending := by
  refine List.pairwise_map.mp ?_
  rw [map_fst_sparseRow]
  exact a i hi

theorem lt_of_mem_sparseRow [Zero R] {J : Compressed R} (w : J.pattern.WellFormed) {i : Nat}
    (hi : i < J.pattern.numRows) {p : Nat × R} (hp : p ∈ J.sparseRow i) :
    p.1 < J.pattern.numCols := by
  obtain ⟨k, hk, rfl⟩ := List.mem_map.mp hp
  exact w.column_lt _ (w.lt_size_of_mem_positions hi hk)

/-- A row of the values of a function lists them with the columns of its pattern. -/
theorem sparseRow_gather [Zero R] (f : Nat → Nat → R) {p : Pattern} (w : p.WellFormed) {i : Nat}
    (hi : i < p.numRows) : (Compressed.mk p (Truncation.gather f p)).sparseRow i =
      (p.rowColumns i).map fun c => (c, f i c) := by
  unfold sparseRow Pattern.rowColumns
  rw [List.map_map]
  refine List.map_congr_left fun k hk => ?_
  simp only [value, Truncation.getD_gather f w hi hk, Function.comp_apply]

theorem get_dense [Zero R] [Add R] {J : Compressed R} {i j : Nat} (hi : i < J.pattern.numRows)
    (hj : j < J.pattern.numCols) : J.dense.get i j = J.entry i j :=
  Dense.get_ofFn_of_lt J.entry hi hj

/-- Away from the stored entries there are zeros. -/
theorem entry_eq_zero_of_not_stores [Zero R] [Add R] (J : Compressed R) {i j : Nat}
    (h : j ∉ J.pattern.rowColumns i) : J.entry i j = 0 := by
  have hnone : ((J.pattern.positions i).filter fun k => J.pattern.column k == j) = [] := by
    refine List.filter_eq_nil_iff.mpr fun k hk hcolumn => h ?_
    exact List.mem_map.mpr ⟨k, hk, beq_iff_eq.mp hcolumn⟩
  rw [entry, hnone]
  rfl

variable [CommRing R]

/-- The entry of a matrix is that of its row. -/
theorem entry_eq (J : Compressed R) (i j : Nat) : J.entry i j = (J.sparseRow i).entry j := by
  have hfold : ∀ (ks : List Nat) (acc : R),
      (ks.filter fun k => J.pattern.column k == j).foldl (fun acc k => acc + J.value k) acc =
        (ks.map fun k => (J.pattern.column k, J.value k)).foldl
          (fun acc p => if p.1 = j then acc + p.2 else acc) acc := by
    intro ks
    induction ks with
    | nil =>
      intro acc
      rfl
    | cons k ks ih =>
      intro acc
      rw [List.filter_cons, List.map_cons, List.foldl_cons, ← ih]
      by_cases hk : J.pattern.column k = j
      · simp [hk]
      · simp [hk]
  exact hfold _ 0

/-- The matrix with the values of a function along its pattern has these entries. -/
theorem entry_gather (f : Nat → Nat → R) {p : Pattern} (w : p.WellFormed) (a : p.Ascending)
    {i j : Nat} (h : p.Stores i j) :
    (Compressed.mk p (Truncation.gather f p)).entry i j = f i j := by
  obtain ⟨hi, hj⟩ := h
  rw [entry_eq, sparseRow_gather f w hi]
  exact SparseRow.entry_map (f i) (a i hi) hj

/-- The matrix with the entries of a compressed one. -/
def toMatrix (J : Compressed R) :
    Matrix (Fin J.pattern.numRows) (Fin J.pattern.numCols) R :=
  Matrix.of fun i j => J.entry i j

@[simp] theorem toMatrix_apply (J : Compressed R) (i : Fin J.pattern.numRows)
    (j : Fin J.pattern.numCols) : J.toMatrix i j = J.entry i j := rfl

/-- The product of the transpose with the matrix. -/
def normalMatrix (J : Compressed R) : Matrix (Fin J.pattern.numCols) (Fin J.pattern.numCols) R :=
  J.toMatrixᵀ * J.toMatrix

/-- The sum of the outer products of the first `m` rows. -/
theorem foldl_addOuter {J : Compressed R} (w : J.pattern.WellFormed) (a : J.pattern.Ascending)
    {m : Nat} (hm : m ≤ J.pattern.numRows) :
    let N := (List.range m).foldl (fun N i => N.addOuter id (J.sparseRow i))
      (Symmetric.zeros J.pattern.numCols)
    N.size = J.pattern.numCols ∧ N.WellFormed ∧
      ∀ i j, i ≤ j → i < J.pattern.numCols →
        (N.row i).entry j = ∑ r ∈ Finset.range m, J.entry r i * J.entry r j := by
  induction m with
  | zero =>
    refine ⟨by simp, Symmetric.wellFormed_zeros _, ?_⟩
    intro i j _ _
    simp [Symmetric.row_zeros]
  | succ m ih =>
    obtain ⟨hsize, hformed, hentry⟩ := ih (by omega)
    have hrow := ascending_sparseRow a (i := m) (by omega)
    rw [List.range_succ, List.foldl_append, List.foldl_cons, List.foldl_nil]
    refine ⟨?_, ?_, ?_⟩
    · rw [Symmetric.size_addOuter]
      exact hsize
    · apply hformed.addOuter id hrow
      intro p hp
      rw [hsize]
      exact lt_of_mem_sparseRow w (by omega) hp
    · intro i j hij hi
      rw [Symmetric.entry_addOuter id rfl hrow _ hij (by rw [hsize]; exact hi), hentry i j hij hi,
        Finset.sum_range_succ, entry_eq J m i, entry_eq J m j]
      rfl

variable {J : Compressed R}

theorem size_normal (w : J.pattern.WellFormed) (a : J.pattern.Ascending) :
    J.normal.size = J.pattern.numCols := (foldl_addOuter w a (Nat.le_refl _)).1

/-- The sparse normal matrix keeps its rows ascending and above the diagonal. -/
theorem wellFormed_normal (w : J.pattern.WellFormed) (a : J.pattern.Ascending) :
    J.normal.WellFormed := (foldl_addOuter w a (Nat.le_refl _)).2.1

/-- **The normal equations.** The sparse normal matrix has the entries of `J'J`. -/
theorem toMatrix_normal (w : J.pattern.WellFormed) (a : J.pattern.Ascending) :
    J.normal.toMatrix J.pattern.numCols = J.normalMatrix := by
  ext i j
  have hentry := (foldl_addOuter w a (Nat.le_refl _)).2.2 (min i j : Nat) (max i j : Nat)
    (by omega) (by omega)
  rw [Symmetric.toMatrix_apply, Symmetric.get, normalMatrix, mul_apply]
  refine hentry.trans ?_
  rw [Finset.sum_range]
  refine Finset.sum_congr rfl fun r _ => ?_
  rw [transpose_apply, toMatrix_apply, toMatrix_apply]
  rcases Nat.le_total i j with hij | hij
  · rw [Nat.min_eq_left hij, Nat.max_eq_right hij]
  · rw [Nat.min_eq_right hij, Nat.max_eq_left hij, mul_comm]

end Compressed

end LeastSquares
