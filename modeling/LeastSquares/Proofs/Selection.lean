/-
LeastSquares.Proofs.Selection — selected columns of an inverse, found in pieces.

The rows of a pattern that store something are shared among threads, each thread solves for its rows
in chunks, and the entries of a row go into the slot of the row. A solver that is right about unit
columns, that is, whose solution for the unit column `r` has the entries `f r 0`, `f r 1`, …, makes
every slot right (`run_solvePart`), and the slots one behind the other are the values of `f` along
the pattern: `invert_eq_gather`. Nothing depends on the threads, their order or the chunks.
-/
import LeastSquares.Proofs.Layout
import LeastSquares.Proofs.Partition

namespace LeastSquares.Selective

open Pattern

variable {α : Type} {p : Pattern}

theorem mem_storedRows {r : Nat} : r ∈ storedRows p ↔ r < p.numRows ∧ p.rowLength r ≠ 0 := by
  simp [storedRows]

/-- A stored row is one that stores something. -/
theorem mem_storedRows_iff_stores {r : Nat} : r ∈ storedRows p ↔ ∃ c, p.Stores r c := by
  rw [mem_storedRows]
  constructor
  · rintro ⟨hr, hlength⟩
    have hfirst : p.start r ∈ p.positions r := mem_positions.mpr (by omega)
    exact ⟨p.column (p.start r), hr, List.mem_map_of_mem hfirst⟩
  · rintro ⟨c, hr, hc⟩
    obtain ⟨q, hq, -⟩ := List.mem_map.mp hc
    have hbounds := mem_positions.mp hq
    exact ⟨hr, by omega⟩

/-- Rows that store nothing may be left out where they add nothing. -/
theorem flatMap_storedRows {β : Type} {g : Nat → List β} (p : Pattern)
    (h : ∀ r, p.rowLength r = 0 → g r = []) :
    (storedRows p).flatMap g = (List.range p.numRows).flatMap g := by
  unfold storedRows
  induction List.range p.numRows with
  | nil => rfl
  | cons r rest ih =>
    rw [List.filter_cons, List.flatMap_cons]
    by_cases hr : p.rowLength r = 0
    · rw [h r hr, List.nil_append, if_neg (by simp [hr]), ih]
    · rw [if_pos (by simp [hr]), List.flatMap_cons, ih]

/-- The stored rows, one by one. -/
theorem map_getD_storedRows (p : Pattern) :
    (List.range (storedRows p).length).map (fun i => (storedRows p).toArray.getD i 0) =
      storedRows p := by
  apply List.ext_getElem
  · simp
  · intro i hi hi'
    simp [Array.getD_eq_getD_getElem?, hi']

/-- What is at a number below the size is a row. -/
theorem getD_storedRows_lt {i : Nat} (h : i < (storedRows p).length) :
    (storedRows p).toArray.getD i 0 < p.numRows := by
  have hmem : (storedRows p).toArray.getD i 0 ∈ storedRows p := by
    simp [Array.getD_eq_getD_getElem?, h]
  exact (mem_storedRows.mp hmem).1

variable {f : Nat → Nat → α} {rows : Array Nat}

/-- What belongs into the slot of a row. -/
def slotValue (p : Pattern) (f : Nat → Nat → α) (rows : Array Nat) (i : Nat) : List α :=
  (p.rowColumns (rows.getD i 0)).map (f (rows.getD i 0))

variable [Zero α]

/-- Scattering columns that hold the entries of their rows writes these rows. -/
theorem scatter_eq {X : Dense α} {k : Nat} {is : List Nat} (slots : Array (List α))
    (h : ∀ m i, is[m]? = some i →
      readColumn p X (rows.getD i 0) (k + m) = slotValue p f rows i) :
    scatter p rows X k is slots = Parallel.writeAll (slotValue p f rows) slots is := by
  induction is generalizing k slots with
  | nil => rfl
  | cons i is ih =>
    have hfirst := h 0 i rfl
    have hrest : ∀ m j, is[m]? = some j →
        readColumn p X (rows.getD j 0) (k + 1 + m) = slotValue p f rows j := by
      intro m j hj
      have := h (m + 1) j hj
      rwa [Nat.add_comm m 1, ← Nat.add_assoc] at this
    rw [Nat.add_zero] at hfirst
    rw [scatter, ih _ hrest, hfirst]
    rfl

variable [One α]

/-- The solution for the unit column `r` has the entries `f r c`, whichever unit columns are
solved for together. -/
def SolvesUnits (solve : Dense α → Dense α) (n : Nat) (f : Nat → Nat → α) : Prop :=
  ∀ rows : List Nat, (∀ r ∈ rows, r < n) → ∀ k r, rows[k]? = some r → ∀ c, c < n →
    (solve (unitColumns n rows)).get c k = f r c

theorem get_unitColumns {n : Nat} {rows : List Nat} {k r i : Nat} (hk : rows[k]? = some r)
    (hi : i < n) : (unitColumns n rows).get i k = if i = r then (1 : α) else 0 := by
  obtain ⟨hlen, _⟩ := List.getElem?_eq_some_iff.mp hk
  have htable : rows.toArray[k]? = some r := by rw [List.getElem?_toArray, hk]
  simp only [unitColumns]
  rw [Dense.get_ofFn_of_lt _ hi hlen, htable]
  by_cases hir : i = r
  · rw [if_pos hir, if_pos (by rw [hir])]
  · rw [if_neg hir, if_neg fun h => hir (Option.some.inj h).symm]

/-- A chunk writes the rows it is made of. -/
theorem solveChunk_eq {solve : Dense α → Dense α} (hsolve : SolvesUnits solve p.numRows f)
    (hrows : ∀ i, i < rows.size → rows.getD i 0 < p.numRows)
    (hcolumns : ∀ r, r < p.numRows → ∀ c ∈ p.rowColumns r, c < p.numRows)
    {chunk : List Nat} (hchunk : ∀ i ∈ chunk, i < rows.size) (slots : Array (List α)) :
    solveChunk solve p rows slots chunk =
      Parallel.writeAll (slotValue p f rows) slots chunk := by
  refine scatter_eq slots ?_
  intro m i hm
  rw [Nat.zero_add]
  have hi := hrows i (hchunk i (List.mem_of_getElem? hm))
  unfold readColumn slotValue
  refine List.map_congr_left fun c hc => ?_
  apply hsolve
  · intro r hr
    obtain ⟨j, hj, rfl⟩ := List.mem_map.mp hr
    exact hrows j (hchunk j hj)
  · rw [List.getElem?_map, hm]
    rfl
  · exact hcolumns _ hi c hc

/-- Some chunks write the rows they are made of. -/
theorem foldl_solveChunk {solve : Dense α → Dense α} (hsolve : SolvesUnits solve p.numRows f)
    (hrows : ∀ i, i < rows.size → rows.getD i 0 < p.numRows)
    (hcolumns : ∀ r, r < p.numRows → ∀ c ∈ p.rowColumns r, c < p.numRows)
    {pieces : List (List Nat)} (hpieces : ∀ i ∈ pieces.flatten, i < rows.size)
    (slots : Array (List α)) :
    pieces.foldl (solveChunk solve p rows) slots =
      Parallel.writeAll (slotValue p f rows) slots pieces.flatten := by
  induction pieces generalizing slots with
  | nil => rfl
  | cons piece pieces ih =>
    rw [List.flatten_cons] at hpieces ⊢
    rw [List.foldl_cons,
      solveChunk_eq hsolve hrows hcolumns fun i hi => hpieces i (List.mem_append_left _ hi),
      ih fun i hi => hpieces i (List.mem_append_right _ hi)]
    unfold Parallel.writeAll
    rw [List.foldl_append]

/-- **All threads** write the rows that store something. -/
theorem run_solvePart {solve : Dense α → Dense α} (hsolve : SolvesUnits solve p.numRows f)
    (hcolumns : ∀ r, r < p.numRows → ∀ c ∈ p.rowColumns r, c < p.numRows)
    (schedule : Schedule) (threads : Int) :
    Parallel.run schedule ⟨0, (storedRows p).length⟩ threads
        (solvePart solve p (storedRows p).toArray) (Array.replicate (storedRows p).length []) =
      (((List.range (storedRows p).length).map (slotValue p f (storedRows p).toArray)).toArray,
        none) := by
  have hperm := perm_flatten_chunksOf schedule threads (storedRows p).length
  refine (run_chunks (solveChunk solve p (storedRows p).toArray) schedule threads _ _).trans ?_
  rw [foldl_solveChunk hsolve (fun i hi => getD_storedRows_lt (by simpa using hi)) hcolumns,
    Parallel.writeAll_of_perm _ (by rwa [Array.size_replicate]), Array.size_replicate]
  intro i hi
  simpa using hperm.mem_iff.mp hi

/-- **Selected inversion.** With a solver that is right about unit columns, the values found are
those of `f` along the pattern, for every schedule and every number of threads. -/
theorem invert_eq_gather {solve : Dense α → Dense α} (hsolve : SolvesUnits solve p.numRows f)
    (hcolumns : ∀ r, r < p.numRows → ∀ c ∈ p.rowColumns r, c < p.numRows)
    (schedule : Schedule) (threads : Int) :
    invert schedule threads solve p = Truncation.gather f p := by
  have hslots : ((List.range (storedRows p).length).map
      (slotValue p f (storedRows p).toArray)).flatten =
        ((List.range (storedRows p).length).map fun i => (storedRows p).toArray.getD i 0).flatMap
          fun r => (p.rowColumns r).map (f r) := by
    rw [List.flatMap_def, List.map_map]
    rfl
  have hnone : ∀ r, p.rowLength r = 0 → (p.rowColumns r).map (f r) = [] := by
    intro r hr
    simp [rowColumns, positions, hr]
  simp only [invert, List.size_toArray, run_solvePart hsolve hcolumns schedule threads]
  rw [hslots, map_getD_storedRows, flatMap_storedRows p hnone]
  rfl

end LeastSquares.Selective
