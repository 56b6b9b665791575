/-
LeastSquares.Proofs.Accumulation — a sparse product, added in place by several threads.

The threads share a `Workspace`: they read a matrix and an operand, and add to sums. A thread cuts its
rows out of the matrix (`Compressed.slice`), multiplies the slice by the operand, and adds the
products to the sums of its rows. A row of a slice is a row of the matrix, stored from another
position on (`rowDot_slice`), so one thread adds the products of its rows as they are
(`accumulate_eq`), and by induction over the parts all threads together add those of all rows
(`runAll_worker`). The parts hold every row once, in whatever order they run.

That the sums then are those of the dense matrix is a fact about one row, `rowDot_eq_dense`. An entry
of the dense matrix is the sum of all values stored for it (`entry_eq_sum`), so it makes no difference
in which order a row names its columns and how often.
-/
import LeastSquares.Proofs.Dispatch
import LeastSquares.Proofs.Involution
import LeastSquares.Proofs.Multiplication

namespace LeastSquares

namespace Span

/-- The numbers of a span in front of which there is no negative one. -/
theorem naturals_eq (part : Span) (h : 0 ≤ part.start) :
    part.naturals = (List.range part.size).map (part.start.toNat + ·) := by
  unfold naturals indices
  rw [List.map_map]
  refine List.map_congr_left fun k _ => ?_
  simp only [Function.comp_apply]
  omega

end Span

/-! ## Slices -/

/-- A piece of an array reads what stands there. -/
theorem getD_extract {β : Type} (xs : Array β) (d : β) {front back k : Nat} (hk : front + k < back) :
    (xs.extract front back).getD k d = xs.getD (front + k) d := by
  have hlt : k < back - front := by omega
  simp only [Array.getD_eq_getD_getElem?, Array.getElem?_extract]
  by_cases hsize : front + k < xs.size
  · rw [if_pos (by omega)]
  · rw [if_neg (by omega), Array.getElem?_eq_none (by omega)]

namespace Pattern

variable {p : Pattern}

/-- Rows start behind those before them, and inside the columns. -/
theorem WellFormed.start_mono (w : p.WellFormed) {i j : Nat} (hij : i ≤ j) (hj : j ≤ p.numRows) :
    p.start i ≤ p.start j := by
  rw [w.start_eq (Nat.le_trans hij hj), w.start_eq hj]
  exact offset_mono p.rowLength hij

end Pattern

namespace Compressed

section Slices

variable {α : Type}

/-- Rows from `first` on as a matrix of their own, whose positions count from zero. -/
def slice (A : Compressed α) (first count : Nat) : Compressed α :=
  let front := A.pattern.start first
  let back := A.pattern.start (first + count)
  { pattern :=
      { numRows := count
        numCols := A.pattern.numCols
        starts := Array.ofFn fun (i : Fin (count + 1)) => A.pattern.start (first + i) - front
        columns := A.pattern.columns.extract front back }
    values := A.values.extract front back }

theorem start_slice (A : Compressed α) {first count i : Nat} (hi : i ≤ count) :
    (A.slice first count).pattern.start i = A.pattern.start (first + i) - A.pattern.start first := by
  have hi : i < count + 1 := Nat.lt_succ_of_le hi
  simp [slice, Pattern.start, Array.getD_eq_getD_getElem?, hi]

/-- The positions of a row of a slice are those of the row, counted from another one on. -/
theorem positions_slice {A : Compressed α} (w : A.pattern.WellFormed) {first count i : Nat}
    (hrows : first + count ≤ A.pattern.numRows) (hi : i < count) :
    ((A.slice first count).pattern.positions i).map (A.pattern.start first + ·) =
      A.pattern.positions (first + i) := by
  have hfirst : A.pattern.start first ≤ A.pattern.start (first + i) :=
    w.start_mono (Nat.le_add_right first i) (by omega)
  have hlength : (A.slice first count).pattern.rowLength i = A.pattern.rowLength (first + i) := by
    unfold Pattern.rowLength
    rw [A.start_slice (Nat.le_of_lt hi), A.start_slice hi, Nat.add_assoc,
      Nat.sub_sub_sub_cancel_right hfirst]
  unfold Pattern.positions
  rw [List.map_add_range', A.start_slice (Nat.le_of_lt hi), Nat.add_sub_cancel' hfirst, hlength]

variable [Zero α]

/-- What is stored in a slice is what the matrix stores there. -/
theorem stored_slice (A : Compressed α) {first count k : Nat}
    (hk : A.pattern.start first + k < A.pattern.start (first + count)) :
    (A.slice first count).value k = A.value (A.pattern.start first + k) ∧
      (A.slice first count).pattern.column k = A.pattern.column (A.pattern.start first + k) :=
  ⟨getD_extract A.values 0 hk, getD_extract A.pattern.columns 0 hk⟩

/-- **A row of a slice** has the product of the row of the matrix. -/
theorem rowDot_slice [Add α] [Mul α] {A : Compressed α} (w : A.pattern.WellFormed)
    {first count i : Nat} (hrows : first + count ≤ A.pattern.numRows) (hi : i < count)
    (x : Array α) :
    (A.slice first count).rowDot x i = A.rowDot x (first + i) := by
  unfold rowDot
  rw [← positions_slice w hrows hi, sumOver, sumOver, List.foldl_map]
  refine List.foldl_ext _ _ _ fun acc k hk => ?_
  have hmem : A.pattern.start first + k ∈ A.pattern.positions (first + i) := by
    rw [← positions_slice w hrows hi]
    exact List.mem_map_of_mem hk
  have hlast := w.start_mono (show first + i + 1 ≤ first + count by omega) hrows
  have hlt := (Pattern.mem_positions.mp hmem).2
  rw [w.start_add_rowLength (by omega)] at hlt
  obtain ⟨hvalue, hcolumn⟩ := A.stored_slice (Nat.lt_of_lt_of_le hlt hlast)
  rw [hvalue, hcolumn]

end Slices

end Compressed

/-! ## Adding in place -/

/-- What the threads share: a matrix and an operand, which they read, and sums, which they add to. The
rows to whose sums was added are noted, one note for each time. -/
structure Workspace (α : Type) where
  matrix : Compressed α
  operand : Array α
  sums : Array α
  updated : List Nat

namespace Workspace

variable {α : Type} [Zero α] [Add α]

/-- Add to the sum of a row. -/
def add (s : Workspace α) (i : Nat) (v : α) : Workspace α :=
  { s with
    sums := s.sums.setIfInBounds i (s.sums.getD i 0 + v)
    updated := s.updated ++ [i] }

variable [Mul α]

/-- Multiply the slice of some rows by the operand and add the products to their sums. -/
def accumulate (part : Span) (s : Workspace α) : Workspace α :=
  let rows := s.matrix.slice part.start.toNat part.size
  (List.range part.size).foldl
    (fun s' k => s'.add (part.start.toNat + k) (rows.rowDot s.operand k)) s

/-- Add the products of some rows. -/
def addAll (s : Workspace α) (is : List Nat) : Workspace α :=
  { s with sums := s.matrix.addRows s.operand is s.sums, updated := s.updated ++ is }

theorem addAll_nil (s : Workspace α) : s.addAll [] = s := by simp [addAll, Compressed.addRows]

theorem addAll_append (s : Workspace α) (is js : List Nat) :
    s.addAll (is ++ js) = (s.addAll is).addAll js := by
  simp [addAll, Compressed.addRows_append]

theorem foldl_add (s : Workspace α) (is : List Nat) :
    is.foldl (fun s' i => s'.add i (s.matrix.rowDot s.operand i)) s = s.addAll is := by
  -- from the back, where the sums of all rows before have their products already
  induction is using List.reverseRecOn with
  | nil => exact s.addAll_nil.symm
  | append_singleton is i ih =>
    rw [List.foldl_append, ih, addAll_append]
    rfl

/-- **One thread** adds the products of its rows, each of them once. -/
theorem accumulate_eq {s : Workspace α} (w : s.matrix.pattern.WellFormed) {part : Span}
    (hstart : 0 ≤ part.start) (hle : part.start ≤ part.stop)
    (hstop : part.stop ≤ s.matrix.pattern.numRows) :
    s.accumulate part = s.addAll part.naturals := by
  have hrows : part.start.toNat + part.size ≤ s.matrix.pattern.numRows := by
    simp only [Span.size]
    omega
  calc s.accumulate part
      = (List.range part.size).foldl (fun s' k => s'.add (part.start.toNat + k)
          (s.matrix.rowDot s.operand (part.start.toNat + k))) s := by
        refine List.foldl_ext _ _ _ fun s' k hk => ?_
        rw [Compressed.rowDot_slice w hrows (List.mem_range.mp hk)]
    _ = part.naturals.foldl (fun s' i => s'.add i (s.matrix.rowDot s.operand i)) s := by
        rw [part.naturals_eq hstart, List.foldl_map]
    _ = s.addAll part.naturals := s.foldl_add part.naturals

/-- What a thread does with its part of the rows. -/
def worker : Parallel.Worker (Workspace α) Fault := fun part s => (s.accumulate part, none)

/-- **All threads** add the products of the rows of all parts, in the order in which these run. -/
theorem runAll_worker {s : Workspace α} (w : s.matrix.pattern.WellFormed) {order : List Span}
    (h : ∀ part ∈ order, 0 ≤ part.start ∧ part.start ≤ part.stop ∧
      part.stop ≤ s.matrix.pattern.numRows) :
    Parallel.runAll worker order s = (s.addAll (order.flatMap Span.naturals), []) := by
  induction order generalizing s with
  | nil => rw [Parallel.runAll, List.flatMap_nil, addAll_nil]
  | cons part rest ih =>
    obtain ⟨hstart, hle, hstop⟩ := h part List.mem_cons_self
    have hpart : worker part s = (s.addAll part.naturals, none) := by
      rw [worker, accumulate_eq w hstart hle hstop]
    have hrest : Parallel.runAll worker rest (s.addAll part.naturals) =
        ((s.addAll part.naturals).addAll (rest.flatMap Span.naturals), []) :=
      ih w fun q hq => h q (List.mem_cons_of_mem _ hq)
    rw [Parallel.runAll_cons, hpart, hrest, List.flatMap_cons, addAll_append]
    rfl

theorem run_worker (schedule : Schedule) (threads : Int) {s : Workspace α}
    (w : s.matrix.pattern.WellFormed) :
    Parallel.run schedule ⟨0, s.matrix.pattern.numRows⟩ threads worker s =
      (s.addAll (Parallel.scheduled schedule s.matrix.pattern.numRows threads), none) := by
  rw [Parallel.run_eq, runAll_worker w, Parallel.firstFailure_nil]
  · rfl
  intro part hpart
  have hbounds := Parallel.bounds_of_mem_parts ((schedule.perm _).mem_iff.mp hpart)
  dsimp only at hbounds
  omega

end Workspace

/-! ## The product -/

namespace Draft

/-- Parts of a draft that fit together are those of a matrix. -/
theorem matrix_eq {α : Type} {d : Draft α} {p : Pattern} (h : d.pattern? = some p)
    (w : p.WellFormed) (hvalues : d.values.size = p.columns.size) :
    d.matrix = .ok ⟨p, d.values⟩ := by
  simp only [matrix, h, hvalues, w.checkArrays_eq]
  rfl

/-- Whatever the schedule and the number of threads, a well-formed draft adds to every entry of `y`
the product of a row of its dense matrix with `x`, where the entries of the dense matrix are the sums
of all values stored for them. Threads that do this in place, each with its slice of the rows, leave
the matrix and `x` as they are and add to every entry of `y` once. -/
theorem multiplyAdd_dense {K : Type} [Field K] {d : Draft K} {p : Pattern}
    (h : d.pattern? = some p) (w : p.WellFormed) (hvalues : d.values.size = p.columns.size)
    {x y : Array K} (hx : (x.size : Int) = d.numCols) (hy : (y.size : Int) = d.numRows)
    (schedule : Schedule) (threads : Int) :
    ∃ A D z updated, d.matrix = .ok A ∧ d.toDense = .ok D ∧
      d.multiplyAdd schedule threads x y = .ok z ∧
      -- the dense matrix
      D.rows = y.size ∧ D.cols = x.size ∧
      (∀ i j, i < y.size → j < x.size → D.get i j =
        (((p.positions i).filter fun k => p.column k == j).map fun k => d.values.getD k 0).sum) ∧
      -- the sums
      z.size = y.size ∧
      (∀ i, i < y.size →
        z.getD i 0 = y.getD i 0 + ∑ j ∈ Finset.range x.size, D.get i j * x.getD j 0) ∧
      -- in place
      Parallel.run schedule ⟨0, d.numRows⟩ threads Workspace.worker ⟨A, x, y, []⟩ =
        (⟨A, x, z, updated⟩, none) ∧
      updated.Perm (List.range y.size) := by
  obtain ⟨hrows, hcols, -⟩ := shape_of_pattern? h
  have hx : x.size = p.numCols := by omega
  have hy : y.size = p.numRows := by omega
  have hmatrix := matrix_eq h w hvalues
  have hcheck : (Compressed.mk p d.values).check = .ok () := by
    rw [Compressed.check, hvalues]
    exact w.checkArrays_eq
  have hperm := Parallel.perm_range_scheduled schedule p.numRows threads
  have hsums := (Compressed.mk p d.values).addRows_of_perm x hy hperm
  have hrun := Workspace.run_worker schedule threads (s := ⟨⟨p, d.values⟩, x, y, []⟩) w
  simp only [Workspace.addAll, hsums, List.nil_append] at hrun
  rw [← hrows] at hrun
  refine ⟨_, (Compressed.mk p d.values).dense, _, _, hmatrix, ?_, ?_, hy.symm, hx.symm, ?_, ?_, ?_,
    hrun, ?_⟩
  · rw [toDense, hmatrix]
    rfl
  · rw [multiplyAdd, if_pos ⟨by omega, by omega⟩, hmatrix]
    exact Compressed.multiplyAdd_eq schedule threads hcheck hx hy
  · intro i j hi hj
    rw [Compressed.get_dense (hy ▸ hi) (hx ▸ hj), Compressed.entry_eq_sum]
    rfl
  · rw [Array.size_ofFn, hy]
  · intro i hi
    have hrow := Compressed.rowDot_eq_dense (A := ⟨p, d.values⟩) w x (hy ▸ hi)
    rw [hx, ← hrow]
    simp [Array.getD_eq_getD_getElem?, ← hy, hi]
  · rw [hy]
    exact hperm

/-- Three rows of two columns: one names a column twice and not in order, one is empty. -/
def scattered : Draft Rat := ⟨3, 2, #[0, 3, 3, 4], #[1, 0, 1, 1], #[2, 3, 4, 5]⟩

/-- More threads than rows, the last row first: the row with a repeated column adds
`3 * 1 + (2 + 4) * 2` to the first entry. -/
theorem multiplyAdd_dense_scattered :
    scattered.pattern? = some ⟨3, 2, #[0, 3, 3, 4], #[1, 0, 1, 1]⟩ ∧
      (⟨3, 2, #[0, 3, 3, 4], #[1, 0, 1, 1]⟩ : Pattern).WellFormed ∧
      ∃ z, scattered.multiplyAdd ⟨List.reverse, List.reverse_perm⟩ 7 #[1, 2] #[10, 20, 30] = .ok z ∧
        z.size = 3 ∧ z.getD 0 0 = 25 := by
  have hpattern : scattered.pattern? = some ⟨3, 2, #[0, 3, 3, 4], #[1, 0, 1, 1]⟩ := by
    simp [scattered, pattern?]
  have w : (⟨3, 2, #[0, 3, 3, 4], #[1, 0, 1, 1]⟩ : Pattern).WellFormed :=
    ⟨by decide, by decide, by decide, by decide, by decide⟩
  obtain ⟨A, D, z, updated, -, -, hz, -, -, hentries, hsize, hsums, -⟩ :=
    multiplyAdd_dense hpattern w rfl (x := #[1, 2]) (y := #[10, 20, 30]) (by decide) (by decide)
      ⟨List.reverse, List.reverse_perm⟩ 7
  have hfirst : D.get 0 0 = 3 := by
    simpa [Pattern.positions, Pattern.rowLength, Pattern.start, Pattern.column, scattered,
      List.range'] using hentries 0 0 (by decide) (by decide)
  have hsecond : D.get 0 1 = 2 + 4 := by
    simpa [Pattern.positions, Pattern.rowLength, Pattern.start, Pattern.column, scattered,
      List.range'] using hentries 0 1 (by decide) (by decide)
  refine ⟨hpattern, w, z, hz, hsize, ?_⟩
  calc z.getD 0 0 = 10 + (D.get 0 0 * 1 + D.get 0 1 * 2) := by
        simpa [Finset.sum_range_succ] using hsums 0 (by decide)
    _ = 25 := by
        rw [hfirst, hsecond]
        norm_num

end Draft

end LeastSquares
