/-
LeastSquares.Proofs.Filling — a pattern, filled in place by several threads.

The threads of a selected inversion share one array with a slot for every stored position
(`Filling`). A thread cuts its part of the stored rows into chunks, asks the solver for the unit
columns of a chunk, and writes the solution of each row to the positions of the row. Three kinds of
numbers meet here: those of the list of stored rows, which the threads share, those of the rows, and
those of the positions. A chunk is a list of the first kind; `chunkRows` are its rows.

The threads together go through the chunks of all parts, in the order in which these run
(`chunksOf`), so all that is needed is what one chunk does (`fillChunk_eq`) and, by induction, what
any chunks do (`foldl_fillChunk`): they write their positions and note each of them once. The chunks
hold every number of the list once (`perm_flatten_chunksOf`), hence every stored row and every
position.

`invert` keeps the entries of each row apart until the end. It asks the solver just as often and for
the same (`invert_congr`), and its values are those that are filled in (`run_fillPart`).
-/
import Mathlib.Algebra.Ring.Int.Defs
import LeastSquares.Proofs.Dispatch
import LeastSquares.Proofs.Selection

namespace LeastSquares.Selective

open Pattern

/-! ## Chunks -/

/-- A chunk is not empty and not larger than it may be. -/
theorem length_of_mem_chunks {β : Type} {size : Nat} {xs piece : List β}
    (h : piece ∈ chunks size xs) : 0 < piece.length ∧ piece.length ≤ size := by
  fun_induction chunks size xs with
  | case1 xs hnil => simp at h
  | case2 xs hnil ih =>
    rcases List.mem_cons.mp h with rfl | h
    · rw [List.length_take]
      omega
    · exact ih h

theorem length_of_mem_chunksOf {schedule : Schedule} {threads : Int} {n : Nat} {chunk : List Nat}
    (h : chunk ∈ chunksOf schedule threads n) : 0 < chunk.length ∧ chunk.length ≤ chunkSize := by
  obtain ⟨part, -, hchunk⟩ := List.mem_flatMap.mp h
  exact length_of_mem_chunks hchunk

/-- The rows of a chunk. -/
def chunkRows (rows : Array Nat) (chunk : List Nat) : List Nat := chunk.map fun i => rows.getD i 0

/-- The rows of all chunks are the stored rows, each of them once. -/
theorem perm_flatMap_chunkRows (schedule : Schedule) (threads : Int) (p : Pattern) :
    ((chunksOf schedule threads (storedRows p).length).flatMap
      (chunkRows (storedRows p).toArray)).Perm (storedRows p) := by
  have hperm := (perm_flatten_chunksOf schedule threads (storedRows p).length).map
    fun i => (storedRows p).toArray.getD i 0
  rwa [map_getD_storedRows, List.map_flatten] at hperm

theorem nodup_storedRows (p : Pattern) : (storedRows p).Nodup := List.nodup_range.filter _

/-- The positions of the stored rows are all positions. -/
theorem flatMap_positions_storedRows {p : Pattern} (w : p.WellFormed) :
    (storedRows p).flatMap p.positions = List.range p.columns.size := by
  have hnone : ∀ r, p.rowLength r = 0 → p.positions r = [] := by
    intro r hr
    simp [positions, hr]
  rw [flatMap_storedRows p hnone, w.flatMap_positions (Nat.le_refl _), w.start_last]

/-! ## Filling in place -/

/-- What the threads share: a value for every position, which they fill in. The positions that are
written and the right sides that are solved for are noted, one note for each time. -/
structure Filling (α : Type) where
  values : Array α
  written : List Nat
  asked : List (Dense α)

namespace Filling

variable {α : Type}

/-- Nothing is filled in yet. -/
def blank [Zero α] (n : Nat) : Filling α := ⟨Array.replicate n 0, [], []⟩

/-- Write a value to a position. -/
def put (s : Filling α) (k : Nat) (v : α) : Filling α :=
  { s with values := s.values.setIfInBounds k v, written := s.written ++ [k] }

/-- Note what the solver is asked. -/
def ask (s : Filling α) (B : Dense α) : Filling α := { s with asked := s.asked ++ [B] }

/-- Write to some positions the values that belong there. -/
def putAll (value : Nat → α) (s : Filling α) (ks : List Nat) : Filling α :=
  { s with values := Parallel.writeAll value s.values ks, written := s.written ++ ks }

theorem putAll_append (value : Nat → α) (s : Filling α) (ks ls : List Nat) :
    s.putAll value (ks ++ ls) = (s.putAll value ks).putAll value ls := by
  simp [putAll, Parallel.writeAll]

theorem foldl_put {value : Nat → α} {v : Nat → α} {ks : List Nat} (h : ∀ k ∈ ks, v k = value k)
    (s : Filling α) : ks.foldl (fun s k => s.put k (v k)) s = s.putAll value ks := by
  induction ks generalizing s with
  | nil => simp [putAll, Parallel.writeAll]
  | cons k ks ih =>
    rw [List.foldl_cons, ih fun l hl => h l (List.mem_cons_of_mem _ hl), h k List.mem_cons_self,
      ← List.singleton_append, putAll_append]
    rfl

end Filling

section Workers

variable {α : Type} [Zero α]

/-- Write the entries of a row, read from column `k` of a solution, to the positions of the row. -/
def fillRow (p : Pattern) (X : Dense α) (k row : Nat) (s : Filling α) : Filling α :=
  (p.positions row).foldl (fun s q => s.put q (X.get (p.column q) k)) s

/-- Write the rows of a chunk; the first of them is in column `k` of the solution. -/
def fillRows (p : Pattern) (X : Dense α) : Nat → List Nat → Filling α → Filling α
  | _, [], s => s
  | k, row :: rest, s => fillRows p X (k + 1) rest (fillRow p X k row s)

theorem fillRows_eq {p : Pattern} {X : Dense α} {value : Nat → α} {k : Nat} {rows : List Nat}
    (h : ∀ m row, rows[m]? = some row →
      ∀ q ∈ p.positions row, X.get (p.column q) (k + m) = value q) (s : Filling α) :
    fillRows p X k rows s = s.putAll value (rows.flatMap p.positions) := by
  induction rows generalizing k s with
  | nil => simp [fillRows, Filling.putAll, Parallel.writeAll]
  | cons row rest ih =>
    have hrest : ∀ m row', rest[m]? = some row' →
        ∀ q ∈ p.positions row', X.get (p.column q) (k + 1 + m) = value q := by
      intro m row' hm q hq
      rw [Nat.add_assoc, Nat.add_comm 1 m]
      exact h (m + 1) row' hm q hq
    have hfirst : ∀ q ∈ p.positions row, X.get (p.column q) k = value q := h 0 row rfl
    rw [fillRows, ih hrest, fillRow, Filling.foldl_put hfirst, List.flatMap_cons,
      Filling.putAll_append]

/-- Writing every position once leaves the values along the pattern. -/
theorem writeAll_gather {p : Pattern} (w : p.WellFormed) (f : Nat → Nat → α) {ks : List Nat}
    (h : ks.Perm (List.range p.nonzeros)) :
    Parallel.writeAll (fun k => (Truncation.gather f p).getD k 0) (Array.replicate p.nonzeros 0)
      ks = Truncation.gather f p :=
  Parallel.writeAll_getD _ (by rw [Truncation.size_gather f w, w.nonzeros_eq]) h

variable [One α]

/-- What the solver is asked for a chunk: the unit columns of its rows. -/
def question (p : Pattern) (rows : Array Nat) (chunk : List Nat) : Dense α :=
  unitColumns p.numRows (chunkRows rows chunk)

/-- Solve for the rows of one chunk and write them. -/
def fillChunk (solve : Dense α → Dense α) (p : Pattern) (rows : Array Nat) (s : Filling α)
    (chunk : List Nat) : Filling α :=
  fillRows p (solve (question p rows chunk)) 0 (chunkRows rows chunk)
    (s.ask (question p rows chunk))

/-- What a thread does with its part of the rows. -/
def fillPart (solve : Dense α → Dense α) (p : Pattern) (rows : Array Nat) :
    Parallel.Worker (Filling α) Fault :=
  fun part s => ((chunks chunkSize part.naturals).foldl (fillChunk solve p rows) s, none)

/-- What is filled in and noted after some chunks, where `value` tells what belongs to a
position. -/
def Filling.after (p : Pattern) (rows : Array Nat) (value : Nat → α) (s : Filling α)
    (pieces : List (List Nat)) : Filling α :=
  { s.putAll value ((pieces.flatMap (chunkRows rows)).flatMap p.positions) with
    asked := s.asked ++ pieces.map (question p rows) }

variable {p : Pattern} {f : Nat → Nat → α} {solve : Dense α → Dense α}

/-- **One chunk** writes the positions of its rows and asks once. -/
theorem fillChunk_eq (w : p.WellFormed) (square : p.numCols = p.numRows)
    (hsolve : SolvesUnits solve p.numRows f) {rows : Array Nat} {chunk : List Nat}
    (hrows : ∀ row ∈ chunkRows rows chunk, row < p.numRows) (s : Filling α) :
    fillChunk solve p rows s chunk =
      s.after p rows (fun k => (Truncation.gather f p).getD k 0) [chunk] := by
  have hvalue : ∀ m row, (chunkRows rows chunk)[m]? = some row → ∀ q ∈ p.positions row,
      (solve (question p rows chunk)).get (p.column q) (0 + m) =
        (Truncation.gather f p).getD q 0 := by
    intro m row hm q hq
    have hrow := hrows row (List.mem_of_getElem? hm)
    have hcolumn := w.column_lt q (w.lt_size_of_mem_positions hrow hq)
    rw [Nat.zero_add, Truncation.getD_gather f w hrow hq]
    exact hsolve _ hrows m row hm _ (square ▸ hcolumn)
  rw [fillChunk, fillRows_eq hvalue]
  simp [Filling.after, Filling.putAll, Filling.ask]

/-- **Some chunks** write the positions of their rows and ask once for each chunk. -/
theorem foldl_fillChunk (w : p.WellFormed) (square : p.numCols = p.numRows)
    (hsolve : SolvesUnits solve p.numRows f) {rows : Array Nat} {pieces : List (List Nat)}
    (hrows : ∀ row ∈ pieces.flatMap (chunkRows rows), row < p.numRows) (s : Filling α) :
    pieces.foldl (fillChunk solve p rows) s =
      s.after p rows (fun k => (Truncation.gather f p).getD k 0) pieces := by
  induction pieces generalizing s with
  | nil => simp [Filling.after, Filling.putAll, Parallel.writeAll]
  | cons chunk pieces ih =>
    rw [List.flatMap_cons] at hrows
    rw [List.foldl_cons, ih fun row hrow => hrows row (List.mem_append_right _ hrow),
      fillChunk_eq w square hsolve fun row hrow => hrows row (List.mem_append_left _ hrow)]
    simp [Filling.after, Filling.putAll, Parallel.writeAll]

/-- The values of a square pattern along which the solver is right. -/
theorem invert_of_square (w : p.WellFormed) (square : p.numCols = p.numRows)
    (hsolve : SolvesUnits solve p.numRows f) (schedule : Schedule) (threads : Int) :
    invert schedule threads solve p = Truncation.gather f p :=
  invert_eq_gather hsolve (fun _ hr _ hc => square ▸ w.lt_of_stores ⟨hr, hc⟩) schedule threads

/-- The chunks of all threads hold every position once. -/
theorem perm_positions (w : p.WellFormed) (schedule : Schedule) (threads : Int) :
    (((chunksOf schedule threads (storedRows p).length).flatMap
      (chunkRows (storedRows p).toArray)).flatMap p.positions).Perm (List.range p.nonzeros) := by
  rw [w.nonzeros_eq, ← flatMap_positions_storedRows w]
  exact (perm_flatMap_chunkRows schedule threads p).flatMap_right p.positions

/-- **All threads** together fill in the values along the pattern. -/
theorem run_fillPart (w : p.WellFormed) (square : p.numCols = p.numRows)
    (hsolve : SolvesUnits solve p.numRows f) (schedule : Schedule) (threads : Int) :
    let rows := (storedRows p).toArray
    let pieces := chunksOf schedule threads (storedRows p).length
    Parallel.run schedule ⟨0, (storedRows p).length⟩ threads (fillPart solve p rows)
        (Filling.blank p.nonzeros) =
      (⟨invert schedule threads solve p, (pieces.flatMap (chunkRows rows)).flatMap p.positions,
        pieces.map (question p rows)⟩, none) := by
  intro rows pieces
  have hrows : ∀ row ∈ pieces.flatMap (chunkRows rows), row < p.numRows := fun row hrow =>
    (mem_storedRows.mp ((perm_flatMap_chunkRows schedule threads p).mem_iff.mp hrow)).1
  refine (run_chunks (fillChunk solve p rows) schedule threads _ _).trans ?_
  rw [foldl_fillChunk w square hsolve hrows, invert_of_square w square hsolve]
  simp only [Filling.after, Filling.putAll, Filling.blank, List.nil_append, pieces, rows,
    writeAll_gather w f (perm_positions w schedule threads)]

/-- What a selected inversion finds depends on the answers to the questions of its chunks alone. -/
theorem invert_congr {solve' : Dense α → Dense α} (schedule : Schedule) (threads : Int)
    (h : ∀ B ∈ (chunksOf schedule threads (storedRows p).length).map
      (question p (storedRows p).toArray), solve' B = solve B) :
    invert schedule threads solve' p = invert schedule threads solve p := by
  have hchunks : (chunksOf schedule threads (storedRows p).length).foldl
      (solveChunk solve' p (storedRows p).toArray) (Array.replicate (storedRows p).length []) =
        (chunksOf schedule threads (storedRows p).length).foldl
          (solveChunk solve p (storedRows p).toArray)
          (Array.replicate (storedRows p).length []) := by
    refine List.foldl_ext _ _ _ fun slots chunk hchunk => ?_
    have hsame := h _ (List.mem_map_of_mem hchunk)
    rw [question, chunkRows] at hsame
    rw [solveChunk, solveChunk, hsame]
  have hrun : ∀ solve : Dense α → Dense α,
      Parallel.run schedule ⟨0, (storedRows p).length⟩ threads
        (solvePart solve p (storedRows p).toArray) (Array.replicate (storedRows p).length []) =
      ((chunksOf schedule threads (storedRows p).length).foldl
        (solveChunk solve p (storedRows p).toArray) (Array.replicate (storedRows p).length []),
          none) :=
    fun solve => run_chunks _ schedule threads _ _
  simp only [invert, List.size_toArray, hrun, hchunks]

end Workers

/-! ## Solvers -/

section Solvers

variable {α : Type} [Zero α]

/-- The columns of a matrix of `n` rows, in order. -/
def columnsOf (n : Nat) (B : Dense α) : List (Fin n → α) :=
  (List.range B.cols).map fun k i => B.get i k

theorem getElem?_columnsOf {n : Nat} {B : Dense α} {k : Nat} {v : Fin n → α} :
    (columnsOf n B)[k]? = some v ↔ k < B.cols ∧ (fun i : Fin n => B.get i k) = v := by
  rw [columnsOf, List.getElem?_map]
  rcases Nat.lt_or_ge k B.cols with hk | hk
  · simp [hk]
  · simp [Nat.not_lt.mpr hk]

/-- A solver that maps every column of its right sides by `S`, whatever stands beside it. -/
def MapsColumns (solve : Dense α → Dense α) (n : Nat) (S : (Fin n → α) → Fin n → α) : Prop :=
  ∀ B : Dense α, B.rows = n →
    (solve B).rows = n ∧ columnsOf n (solve B) = (columnsOf n B).map S

variable [One α]

/-- The unit column of a row. -/
def unitVector (n r : Nat) : Fin n → α := fun i => if (i : Nat) = r then 1 else 0

/-- The unit columns of some rows are just these. -/
theorem columnsOf_unitColumns (n : Nat) (rows : List Nat) :
    columnsOf n (unitColumns n rows : Dense α) = rows.map (unitVector n) := by
  apply List.ext_getElem?
  intro k
  rw [List.getElem?_map]
  cases hk : rows[k]? with
  | none =>
    rw [Option.map_none, List.getElem?_eq_none_iff]
    simpa [columnsOf, unitColumns] using hk
  | some r =>
    rw [Option.map_some, getElem?_columnsOf]
    refine ⟨(List.getElem?_eq_some_iff.mp hk).1, funext fun i => ?_⟩
    rw [get_unitColumns hk i.isLt, unitVector]

/-- The entry `c` of the image of the unit column `r`. -/
def imageEntry {n : Nat} (S : (Fin n → α) → Fin n → α) (r c : Nat) : α :=
  if hc : c < n then S (unitVector n r) ⟨c, hc⟩ else 0

theorem imageEntry_of_lt {n : Nat} (S : (Fin n → α) → Fin n → α) (r : Nat) {c : Nat} (hc : c < n) :
    imageEntry S r c = S (unitVector n r) ⟨c, hc⟩ := dif_pos hc

/-- Such a solver finds the image of each unit column. -/
theorem MapsColumns.solvesUnits {solve : Dense α → Dense α} {n : Nat}
    {S : (Fin n → α) → Fin n → α} (h : MapsColumns solve n S) :
    SolvesUnits solve n (imageEntry S) := by
  intro rows _ k r hk c hc
  have hcolumn : (columnsOf n (solve (unitColumns n rows)))[k]? = some (S (unitVector n r)) := by
    rw [(h _ rfl).2, columnsOf_unitColumns, List.getElem?_map, List.getElem?_map, hk]
    rfl
  have hentry := congrFun (getElem?_columnsOf.mp hcolumn).2 ⟨c, hc⟩
  rw [imageEntry_of_lt S r hc]
  exact hentry

/-- **Selected inversion fills in the pattern.** Take a well-formed square pattern and a solver that
maps every column of its right sides by `S`. Whatever the schedule and the number of threads, there
is one value for each stored position, and the position of row `r` and column `c` has the entry `c`
of the image of the unit column `r`. Threads that fill in these values in place write every position
once. The columns that they have solved for are the unit columns of the rows that store something,
each of them once; at most 128 of them are solved for together, and nothing else is asked. -/
theorem invert_fills_pattern {p : Pattern} (w : p.WellFormed) (square : p.numCols = p.numRows)
    {solve : Dense α → Dense α} {S : (Fin p.numRows → α) → Fin p.numRows → α}
    (h : MapsColumns solve p.numRows S) (schedule : Schedule) (threads : Int) :
    ∃ values written asked,
      invert schedule threads solve p = values ∧
      values.size = p.nonzeros ∧
      (∀ (r c : Fin p.numRows) k, k ∈ p.positions r → p.column k = c →
        values[k]? = some (S (unitVector p.numRows r) c)) ∧
      -- in place
      Parallel.run schedule ⟨0, (storedRows p).length⟩ threads
          (fillPart solve p (storedRows p).toArray) (Filling.blank p.nonzeros) =
        (⟨values, written, asked⟩, none) ∧
      written.Perm (List.range p.nonzeros) ∧
      -- the solver
      (storedRows p).Nodup ∧ (∀ r, r ∈ storedRows p ↔ ∃ c, p.Stores r c) ∧
      (asked.flatMap (columnsOf p.numRows)).Perm ((storedRows p).map (unitVector p.numRows)) ∧
      (∀ B ∈ asked, B.rows = p.numRows ∧ 0 < B.cols ∧ B.cols ≤ 128) ∧
      ∀ solve', (∀ B ∈ asked, solve' B = solve B) →
        invert schedule threads solve' p = invert schedule threads solve p := by
  have hsolve := h.solvesUnits
  have hvalues := invert_of_square w square hsolve schedule threads
  refine ⟨_, _, _, rfl, ?_, fun r c k hk hc => ?_,
    run_fillPart w square hsolve schedule threads, perm_positions w schedule threads,
    nodup_storedRows p, fun r => mem_storedRows_iff_stores, ?_, fun B hB => ?_,
    fun solve' hsame => invert_congr schedule threads hsame⟩
  · rw [hvalues, Truncation.size_gather _ w, w.nonzeros_eq]
  · rw [hvalues, Truncation.getElem?_gather _ w r.isLt hk, hc, imageEntry_of_lt S r c.isLt]
  · have hasked : ((chunksOf schedule threads (storedRows p).length).map
        (question p (storedRows p).toArray)).flatMap (columnsOf p.numRows) =
          ((chunksOf schedule threads (storedRows p).length).flatMap
            (chunkRows (storedRows p).toArray)).map (unitVector (α := α) p.numRows) := by
      rw [List.flatMap_map, List.map_flatMap]
      exact congrArg (List.flatMap · _) (funext fun chunk => columnsOf_unitColumns _ _)
    rw [hasked]
    exact (perm_flatMap_chunkRows schedule threads p).map _
  · obtain ⟨chunk, hchunk, rfl⟩ := List.mem_map.mp hB
    have hlength := length_of_mem_chunksOf hchunk
    simpa [question, chunkRows, unitColumns, chunkSize] using hlength

end Solvers

/-! ## An empty row between two others -/

/-- Three rows: the first one does not ascend, and the second one is empty. -/
def parted : Pattern := .ofRows 3 [[2, 0], [], [2]]

/-- Add the first row of the right sides to every row. -/
def addFirst (B : Dense Int) : Dense Int := .ofFn B.rows B.cols fun i k => B.get 0 k + B.get i k

theorem mapsColumns_addFirst : MapsColumns addFirst 3 fun v i => v 0 + v i := by
  intro B hB
  refine ⟨hB, ?_⟩
  rw [columnsOf, columnsOf, List.map_map]
  refine List.map_congr_left fun k hk => funext fun i => ?_
  exact Dense.get_ofFn_of_lt _ (by rw [hB]; exact i.isLt) (List.mem_range.mp hk)

/-- Two threads, the last one first: position zero holds the entry of row `0` and column `2`, and
position two that of row `2` and column `2`. -/
theorem invert_fills_parted :
    parted.WellFormed ∧ parted.numCols = parted.numRows ∧
      MapsColumns addFirst 3 (fun v i => v 0 + v i) ∧
      (invert ⟨List.reverse, List.reverse_perm⟩ 2 addFirst parted)[0]? = some (1 + 0) ∧
      (invert ⟨List.reverse, List.reverse_perm⟩ 2 addFirst parted)[2]? = some (0 + 1) := by
  have w : parted.WellFormed := wellFormed_ofRows (by decide)
  obtain ⟨values, written, asked, hvalues, -, hentry, -⟩ := invert_fills_pattern w rfl
    mapsColumns_addFirst ⟨List.reverse, List.reverse_perm⟩ 2
  have hfirst := hentry (0 : Fin 3) (2 : Fin 3) 0 (by decide) (by decide)
  have hlast := hentry (2 : Fin 3) (2 : Fin 3) 2 (by decide) (by decide)
  rw [hvalues]
  exact ⟨w, rfl, mapsColumns_addFirst, hfirst, hlast⟩

end LeastSquares.Selective
