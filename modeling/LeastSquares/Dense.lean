/-
LeastSquares.Dense — dense matrices, stored by rows.

A matrix is made by `ofFn`, from a function of row and column, and read by `get`, which is
zero outside the matrix. Every operation is an `ofFn` of entries of its arguments, so
`get_ofFn` and `ext_get` say all there is to say about it; the `get_` lemma beside each
operation says it once more for the entries that exist.
-/
import LeastSquares.Scalar
import LeastSquares.Fault

namespace LeastSquares

/-- A matrix of `rows * cols` entries in row-major order. -/
structure Dense (α : Type) where
  rows : Nat
  cols : Nat
  data : Array α
  size_eq : data.size = rows * cols

namespace Dense

section Entries

variable {α : Type}

/-- The matrix with the entries `f i j`. -/
def ofFn (rows cols : Nat) (f : Nat → Nat → α) : Dense α where
  rows := rows
  cols := cols
  data := Array.ofFn fun (k : Fin (rows * cols)) => f (k.val / cols) (k.val % cols)
  size_eq := by simp

@[simp] theorem rows_ofFn (m n : Nat) (f : Nat → Nat → α) : (ofFn m n f).rows = m := rfl

@[simp] theorem cols_ofFn (m n : Nat) (f : Nat → Nat → α) : (ofFn m n f).cols = n := rfl

/-- The same matrix with every entry read by `f`. -/
def map {β : Type} (f : α → β) (A : Dense α) : Dense β :=
  ⟨A.rows, A.cols, A.data.map f, by rw [Array.size_map, A.size_eq]⟩

variable [Zero α]

/-- The entry in row `i` and column `j`; zero outside the matrix. -/
def get (A : Dense α) (i j : Nat) : α :=
  if j < A.cols then A.data.getD (i * A.cols + j) 0 else 0

theorem offset_lt {m n i j : Nat} (hi : i < m) (hj : j < n) : i * n + j < m * n :=
  calc i * n + j < i * n + n := by omega
    _ = (i + 1) * n := by rw [Nat.succ_mul]
    _ ≤ m * n := Nat.mul_le_mul_right n hi

theorem offset_inj {n i j i' j' : Nat} (hj : j < n) (hj' : j' < n)
    (h : i * n + j = i' * n + j') : i = i' ∧ j = j' := by
  have hpos : 0 < n := by omega
  have hdiv := congrArg (fun k => k / n) h
  have hmod := congrArg (fun k => k % n) h
  simp only [Nat.mul_comm _ n, Nat.mul_add_div hpos, Nat.div_eq_of_lt hj, Nat.div_eq_of_lt hj',
    Nat.mul_add_mod, Nat.mod_eq_of_lt hj, Nat.mod_eq_of_lt hj', Nat.add_zero] at hdiv hmod
  exact ⟨hdiv, hmod⟩

theorem get_ofFn (m n : Nat) (f : Nat → Nat → α) (i j : Nat) :
    (ofFn m n f).get i j = if i < m ∧ j < n then f i j else 0 := by
  unfold get
  simp only [cols_ofFn]
  by_cases hj : j < n
  · have hpos : 0 < n := by omega
    have hdiv : (i * n + j) / n = i := by
      rw [Nat.add_comm, Nat.add_mul_div_right _ _ hpos, Nat.div_eq_of_lt hj, Nat.zero_add]
    have hmod : (i * n + j) % n = j := by
      rw [Nat.add_comm, Nat.add_mul_mod_self_right, Nat.mod_eq_of_lt hj]
    by_cases hi : i < m
    · have hlt : i * n + j < m * n := offset_lt hi hj
      simp [ofFn, hj, hi, Array.getD_eq_getD_getElem?, hlt, hdiv, hmod]
    · have hge : m * n ≤ i * n + j :=
        Nat.le_trans (Nat.mul_le_mul_right n (by omega)) (Nat.le_add_right _ _)
      simp [ofFn, hj, hi, Array.getD_eq_getD_getElem?, hge]
  · simp [hj]

theorem get_ofFn_of_lt {m n : Nat} (f : Nat → Nat → α) {i j : Nat} (hi : i < m) (hj : j < n) :
    (ofFn m n f).get i j = f i j := by
  rw [get_ofFn, if_pos ⟨hi, hj⟩]

/-- Everything that a matrix stores is an entry. -/
theorem getElem_data (A : Dense α) {k : Nat} (hk : k < A.data.size) :
    k / A.cols < A.rows ∧ k % A.cols < A.cols ∧
      A.get (k / A.cols) (k % A.cols) = A.data[k] := by
  have hlt : k < A.rows * A.cols := by rw [← A.size_eq]; exact hk
  have hcol : k % A.cols < A.cols := Nat.mod_lt _ (Nat.pos_of_lt_mul_left hlt)
  refine ⟨Nat.div_lt_of_lt_mul (by rwa [Nat.mul_comm]), hcol, ?_⟩
  rw [get, if_pos hcol, Nat.div_add_mod', Array.getD_eq_getD_getElem?,
    Array.getElem?_eq_getElem hk, Option.getD_some]

theorem mem_data_iff {A : Dense α} {x : α} :
    x ∈ A.data ↔ ∃ i j, i < A.rows ∧ j < A.cols ∧ A.get i j = x := by
  constructor
  · intro hx
    obtain ⟨k, hk, rfl⟩ := Array.mem_iff_getElem.mp hx
    exact ⟨_, _, A.getElem_data hk⟩
  · rintro ⟨i, j, hi, hj, rfl⟩
    have hlt : i * A.cols + j < A.data.size := by
      rw [A.size_eq]
      exact offset_lt hi hj
    rw [get, if_pos hj, Array.getD_eq_getD_getElem?, Array.getElem?_eq_getElem hlt,
      Option.getD_some]
    exact Array.getElem_mem hlt

/-- A matrix is its shape and its entries. -/
theorem ext_get {A B : Dense α} (hr : A.rows = B.rows) (hc : A.cols = B.cols)
    (h : ∀ i j, i < A.rows → j < A.cols → A.get i j = B.get i j) : A = B := by
  have hdata : A.data = B.data := by
    apply Array.ext
    · rw [A.size_eq, B.size_eq, hr, hc]
    · intro k hk hk'
      obtain ⟨hi, hj, hget⟩ := A.getElem_data hk
      obtain ⟨-, -, hget'⟩ := B.getElem_data hk'
      rw [← hget, ← hget', h _ _ hi hj, hc]
  obtain ⟨m, n, data, hd⟩ := A
  obtain ⟨m', n', data', hd'⟩ := B
  simp only at hr hc hdata
  subst hr hc hdata
  rfl

theorem get_of_cols_le (A : Dense α) {j : Nat} (i : Nat) (h : A.cols ≤ j) : A.get i j = 0 := by
  simp [get, Nat.not_lt.mpr h]

theorem get_of_rows_le (A : Dense α) {i : Nat} (j : Nat) (h : A.rows ≤ i) : A.get i j = 0 := by
  unfold get
  split
  · have hle : A.data.size ≤ i * A.cols + j := by
      rw [A.size_eq]
      exact Nat.le_trans (Nat.mul_le_mul_right A.cols h) (Nat.le_add_right _ _)
    simp [Array.getD_eq_getD_getElem?, hle]
  · rfl

/-- The matrix of given rows; its width is asked for, because there may be no row. -/
def ofRows (cols : Nat) (rows : List (List α)) : Dense α :=
  let table := (rows.map List.toArray).toArray
  ofFn rows.length cols fun i j => (table.getD i #[]).getD j 0

/-- The matrix of given entries in row-major order. -/
def ofArray (rows cols : Nat) (data : Array α) : Dense α :=
  ofFn rows cols fun i j => data.getD (i * cols + j) 0

/-- A matrix is read back from what it stores. -/
theorem ofArray_data (A : Dense α) : ofArray A.rows A.cols A.data = A :=
  ext_get rfl rfl fun i j hi hj => by
    have hi : i < A.rows := hi
    have hj : j < A.cols := hj
    rw [ofArray, get_ofFn_of_lt _ hi hj, get, if_pos hj]

/-- Row `i`. -/
def row (A : Dense α) (i : Nat) : List α := (List.range A.cols).map (A.get i)

/-- The rows in order. -/
def toRows (A : Dense α) : List (List α) := (List.range A.rows).map A.row

/-- The matrix of zeros. -/
def zeros (rows cols : Nat) : Dense α := ofFn rows cols fun _ _ => 0

@[simp] theorem get_zeros (m n i j : Nat) : (zeros m n : Dense α).get i j = 0 := by
  simp [zeros, get_ofFn]

/-- Rows become columns. -/
def transpose (A : Dense α) : Dense α := ofFn A.cols A.rows fun i j => A.get j i

@[simp] theorem rows_transpose (A : Dense α) : A.transpose.rows = A.cols := rfl

@[simp] theorem cols_transpose (A : Dense α) : A.transpose.cols = A.rows := rfl

@[simp] theorem get_transpose (A : Dense α) (i j : Nat) : A.transpose.get i j = A.get j i := by
  rw [transpose, get_ofFn]
  split
  · rfl
  · rename_i h
    by_cases hi : i < A.cols
    · exact (A.get_of_rows_le i (by omega)).symm
    · exact (A.get_of_cols_le j (by omega)).symm

theorem transpose_transpose (A : Dense α) : A.transpose.transpose = A :=
  ext_get rfl rfl fun i j _ _ => by rw [get_transpose, get_transpose]

/-- Columns `start`, …, `start + count - 1`. -/
def columns (A : Dense α) (start count : Nat) : Dense α :=
  ofFn A.rows count fun i j => A.get i (start + j)

end Entries

section Products

variable {α : Type} [Zero α] [Add α] [Mul α]

/-- The matrix product; the inner sizes are those of the left factor. -/
def mul (A B : Dense α) : Dense α :=
  ofFn A.rows B.cols fun i j => sumTo A.cols fun k => A.get i k * B.get k j

@[simp] theorem rows_mul (A B : Dense α) : (A.mul B).rows = A.rows := rfl

@[simp] theorem cols_mul (A B : Dense α) : (A.mul B).cols = B.cols := rfl

theorem get_mul (A B : Dense α) {i j : Nat} (hi : i < A.rows) (hj : j < B.cols) :
    (A.mul B).get i j = sumTo A.cols fun k => A.get i k * B.get k j :=
  get_ofFn_of_lt _ hi hj

/-- The matrix product of factors whose inner sizes may differ. -/
def mul? (A B : Dense α) : Except Fault (Dense α) :=
  if A.cols = B.rows then .ok (A.mul B) else .error .shapes

theorem mul?_eq_ok {A B : Dense α} (h : A.cols = B.rows) : A.mul? B = .ok (A.mul B) := if_pos h

/-- The product with a column of numbers. -/
def mulVec (A : Dense α) (x : Array α) : Array α :=
  Array.ofFn fun (i : Fin A.rows) => sumTo A.cols fun j => A.get i j * x.getD j 0

@[simp] theorem size_mulVec (A : Dense α) (x : Array α) : (A.mulVec x).size = A.rows := by
  simp [mulVec]

theorem getD_mulVec (A : Dense α) (x : Array α) {i : Nat} (hi : i < A.rows) :
    (A.mulVec x).getD i 0 = sumTo A.cols fun j => A.get i j * x.getD j 0 := by
  simp [mulVec, Array.getD_eq_getD_getElem?, hi]

/-- The product of the transpose with the matrix itself. -/
def gram (A : Dense α) : Dense α :=
  ofFn A.cols A.cols fun i j => sumTo A.rows fun k => A.get k i * A.get k j

theorem get_gram (A : Dense α) {i j : Nat} (hi : i < A.cols) (hj : j < A.cols) :
    A.gram.get i j = sumTo A.rows fun k => A.get k i * A.get k j :=
  get_ofFn_of_lt _ hi hj

/-- The normal matrix is the product of the transpose with the matrix. -/
theorem gram_eq_mul (A : Dense α) : A.gram = A.transpose.mul A :=
  ext_get rfl rfl fun i j hi hj => by
    rw [get_gram A hi hj, get_mul A.transpose A hi hj]
    exact sumTo_congr fun k _ => by rw [get_transpose]

/-- The sum of products of two equally long columns of numbers. -/
def dot (x y : Array α) : α := sumTo x.size fun i => x.getD i 0 * y.getD i 0

end Products

section Scalars

variable {α : Type} [Zero α]

/-- Ones on the diagonal. -/
def identity [One α] (n : Nat) : Dense α := ofFn n n fun i j => if i = j then 1 else 0

theorem get_identity [One α] {n i j : Nat} (hi : i < n) (hj : j < n) :
    (identity n : Dense α).get i j = if i = j then 1 else 0 :=
  get_ofFn_of_lt _ hi hj

/-- Every entry multiplied by one number. -/
def scale [Mul α] (c : α) (A : Dense α) : Dense α := ofFn A.rows A.cols fun i j => c * A.get i j

theorem get_scale [Mul α] (c : α) (A : Dense α) {i j : Nat} (hi : i < A.rows)
    (hj : j < A.cols) : (scale c A).get i j = c * A.get i j :=
  get_ofFn_of_lt _ hi hj

/-- The mean of a square matrix and its transpose. -/
def symmetrized [One α] [Add α] [Mul α] [Div α] [NatCast α] (A : Dense α) : Dense α :=
  ofFn A.rows A.cols fun i j => half * (A.get i j + A.get j i)

theorem get_symmetrized [One α] [Add α] [Mul α] [Div α] [NatCast α] (A : Dense α) {i j : Nat}
    (hi : i < A.rows) (hj : j < A.cols) :
    A.symmetrized.get i j = half * (A.get i j + A.get j i) :=
  get_ofFn_of_lt _ hi hj

end Scalars

end Dense

end LeastSquares
