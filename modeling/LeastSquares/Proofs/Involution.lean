/-
LeastSquares.Proofs.Involution — which patterns have a transposing permutation.

Transposing a matrix keeps its entries with their values and sorts every row. Of a well-formed
pattern whose rows repeat no column there is one transpose with these properties, labels included
(`IsTranspose.unique`): sorted lists with the same members are equal. The pattern that is built by
going through the columns has them (`isTranspose_transposed`).

A pattern has a transposing permutation when it equals its transpose. That makes its rows ascend,
because those of the transpose do, and makes it symmetric, because the transpose stores `(j, i)`
where the pattern stores `(i, j)`; the other direction is `Regular.transposed_eq`. Together they are
`transposePermutation_eq_ok_iff`. The permutation that is found sends a position to that of the
mirrored entry, so applying it twice changes nothing, and values along it are those of the
transposed matrix.
-/
import LeastSquares.Proofs.Normal
import LeastSquares.Proofs.Transposition
import LeastSquares.Sparse.Draft

namespace LeastSquares

namespace Pattern

variable {p t : Pattern}

/-! ## Coordinates -/

/-- The coordinates, position by position. -/
theorem WellFormed.coordinates_eq (w : p.WellFormed) :
    p.coordinates = (List.range p.columns.size).map fun k => (p.rowAt k, p.column k) := by
  apply List.ext_getElem?
  intro k
  rcases Nat.lt_or_ge k p.columns.size with hk | hk
  · rw [w.getElem?_coordinates_of_lt hk, List.getElem?_map, List.getElem?_range hk]
    rfl
  · rw [List.getElem?_eq_none (by rwa [w.length_coordinates]),
      List.getElem?_eq_none (by simpa using hk)]

/-- Positions with the same coordinates are the same. -/
theorem Distinct.eq_of_getElem? (d : p.Distinct) {k k' : Nat} {c : Nat × Nat}
    (h : p.coordinates[k]? = some c) (h' : p.coordinates[k']? = some c) : k = k' := by
  obtain ⟨hlt, -⟩ := List.getElem?_eq_some_iff.mp h
  exact (List.getElem?_inj hlt d.nodup_coordinates).mp (h.trans h'.symm)

/-- Ascending patterns of one shape are equal when their coordinates are. -/
theorem WellFormed.ext_coordinates (w : p.WellFormed) (w' : t.WellFormed) (a : p.Ascending)
    (a' : t.Ascending) (hrows : p.numRows = t.numRows) (hcols : p.numCols = t.numCols)
    (h : p.coordinates = t.coordinates) : p = t := by
  have hrowColumns : (List.range p.numRows).map p.rowColumns =
      (List.range t.numRows).map t.rowColumns := by
    rw [hrows]
    refine List.map_congr_left fun i hi => ?_
    have hi := List.mem_range.mp hi
    apply eq_of_pairwise_lt (a i (by rwa [hrows])) (a' i hi)
    intro j
    have hmem : (i, j) ∈ p.coordinates ↔ (i, j) ∈ t.coordinates := by rw [h]
    simpa only [mem_coordinates, Stores, hrows, hi, true_and] using hmem
  rw [w.eq_ofRows, w'.eq_ofRows, hcols, hrowColumns]

/-! ## The transposed pattern -/

theorem transposed_eq_ofRows (p : Pattern) :
    p.transposed = ofRows p.numRows
      ((List.range p.numCols).map fun j => (p.columnPositions j).map p.rowAt) := by
  simp only [transposed, toList_columnTable, List.map_map]
  rfl

@[simp] theorem numRows_transposed (p : Pattern) : p.transposed.numRows = p.numCols := by
  simp [transposed_eq_ofRows, ofRows]

@[simp] theorem numCols_transposed (p : Pattern) : p.transposed.numCols = p.numRows := rfl

/-- A row of the transposed pattern lists the rows down a column. -/
theorem rowColumns_transposed (p : Pattern) {j : Nat} (hj : j < p.numCols) :
    p.transposed.rowColumns j = (p.columnPositions j).map p.rowAt := by
  rw [transposed_eq_ofRows, rowColumns_ofRows _ _ (by simpa using hj)]
  simp

theorem WellFormed.wellFormed_transposed (w : p.WellFormed) : p.transposed.WellFormed := by
  rw [transposed_eq_ofRows]
  refine wellFormed_ofRows fun row hrow i hi => ?_
  obtain ⟨j, -, rfl⟩ := List.mem_map.mp hrow
  exact (w.mem_map_rowAt.mp hi).1

theorem WellFormed.ascending_transposed (w : p.WellFormed) (d : p.Distinct) :
    p.transposed.Ascending := by
  intro j hj
  rw [numRows_transposed] at hj
  rw [rowColumns_transposed p hj]
  exact w.pairwise_rowAt d j

/-- The transposed pattern stores the mirrored entries. -/
theorem WellFormed.stores_transposed (w : p.WellFormed) {i j : Nat} :
    p.transposed.Stores j i ↔ p.Stores i j := by
  unfold Stores
  rw [numRows_transposed]
  constructor
  · rintro ⟨hj, hi⟩
    rw [rowColumns_transposed p hj] at hi
    exact w.mem_map_rowAt.mp hi
  · intro h
    have hj := w.lt_of_stores h
    rw [rowColumns_transposed p hj]
    exact ⟨hj, w.mem_map_rowAt.mpr h⟩

/-- Going through the columns meets every position once. -/
theorem WellFormed.perm_transposedOrder (w : p.WellFormed) :
    p.transposedOrder.Perm (List.range p.columns.size) := by
  rw [transposedOrder_eq]
  refine (List.perm_ext_iff_of_nodup ?_ List.nodup_range).mpr fun k => ?_
  · refine List.pairwise_flatMap.mpr ⟨fun j _ => List.nodup_range.filter _, ?_⟩
    apply List.pairwise_lt_range.imp
    intro j j' hlt k hk k' hk' heq
    subst heq
    have hcol := (mem_columnPositions.mp hk).2
    have hcol' := (mem_columnPositions.mp hk').2
    omega
  · rw [List.mem_flatMap, List.mem_range]
    constructor
    · rintro ⟨j, -, hk⟩
      exact (mem_columnPositions.mp hk).1
    · intro hk
      exact ⟨p.column k, List.mem_range.mpr (w.column_lt k hk), mem_columnPositions.mpr ⟨hk, rfl⟩⟩

/-- The coordinates of the transposed pattern, in its order of the positions. -/
theorem coordinates_transposed (p : Pattern) :
    p.transposed.coordinates = p.transposedOrder.map fun k => (p.column k, p.rowAt k) := by
  rw [coordinates, numRows_transposed, transposedOrder_eq, List.map_flatMap, List.flatMap_def,
    List.flatMap_def]
  refine congrArg List.flatten (List.map_congr_left fun j hj => ?_)
  rw [rowColumns_transposed p (List.mem_range.mp hj), List.map_map]
  refine List.map_congr_left fun k hk => ?_
  rw [(mem_columnPositions.mp hk).2]
  rfl

/-! ## Transposes -/

/-- The coordinates of a pattern with the labels that stand at its positions. -/
def triples (p : Pattern) (labels : List Nat) : List ((Nat × Nat) × Nat) :=
  p.coordinates.zip labels

theorem WellFormed.map_fst_triples (w : p.WellFormed) {labels : List Nat}
    (h : labels.length = p.columns.size) : (p.triples labels).map Prod.fst = p.coordinates :=
  List.map_fst_zip (by rw [h, w.length_coordinates])

theorem WellFormed.map_snd_triples (w : p.WellFormed) {labels : List Nat}
    (h : labels.length = p.columns.size) : (p.triples labels).map Prod.snd = labels :=
  List.map_snd_zip (by rw [h, w.length_coordinates])

/-- A pattern with labels and sorted rows that holds the mirrored coordinates of a pattern, each
labelled with the position that it had there. -/
structure IsTranspose (p t : Pattern) (labels : List Nat) : Prop where
  wellFormed : t.WellFormed
  numRows_eq : t.numRows = p.numCols
  numCols_eq : t.numCols = p.numRows
  sorted : ∀ j, j < t.numRows → (t.rowColumns j).Pairwise (· ≤ ·)
  length_eq : labels.length = t.columns.size
  triples_perm : (t.triples labels).Perm
    ((p.triples (List.range p.columns.size)).map fun e => (e.1.swap, e.2))

namespace IsTranspose

variable {labels : List Nat}

theorem perm_coordinates (h : IsTranspose p t labels) (w : p.WellFormed) :
    t.coordinates.Perm (p.coordinates.map Prod.swap) := by
  have hperm := h.triples_perm.map Prod.fst
  rw [h.wellFormed.map_fst_triples h.length_eq, List.map_map] at hperm
  have hswap : (p.triples (List.range p.columns.size)).map
      (Prod.fst ∘ fun e : (Nat × Nat) × Nat => (e.1.swap, e.2)) =
        ((p.triples (List.range p.columns.size)).map Prod.fst).map Prod.swap := by
    rw [List.map_map]
    rfl
  rwa [hswap, w.map_fst_triples List.length_range] at hperm

/-- Sorted rows ascend when no entry is there twice. -/
theorem ascending (h : IsTranspose p t labels) (w : p.WellFormed) (d : p.Distinct) :
    t.Ascending := by
  have hnodup : t.coordinates.Nodup :=
    (h.perm_coordinates w).nodup_iff.mpr (d.nodup_coordinates.map Prod.swap_injective)
  intro j hj
  have hboth := (h.sorted j hj).and (distinct_of_nodup_coordinates hnodup j hj)
  exact hboth.imp fun hlt => Nat.lt_of_le_of_ne hlt.1 hlt.2

/-- A pattern that repeats no entry has one transpose. -/
theorem unique {t' : Pattern} {labels' : List Nat} (w : p.WellFormed) (d : p.Distinct)
    (h : IsTranspose p t labels) (h' : IsTranspose p t' labels') : t = t' ∧ labels = labels' := by
  have hfst := h.wellFormed.map_fst_triples h.length_eq
  have hfst' := h'.wellFormed.map_fst_triples h'.length_eq
  have a := h.ascending w d
  have a' := h'.ascending w d
  have hsorted : (t.triples labels).Pairwise fun x y => Before x.1 y.1 :=
    List.pairwise_map.mp (hfst ▸ a.pairwise_coordinates)
  have hsorted' : (t'.triples labels').Pairwise fun x y => Before x.1 y.1 :=
    List.pairwise_map.mp (hfst' ▸ a'.pairwise_coordinates)
  have htriples : t.triples labels = t'.triples labels' := by
    refine (h.triples_perm.trans h'.triples_perm.symm).eq_of_pairwise ?_ hsorted hsorted'
    intro x y _ _ hxy hyx
    unfold Before at hxy hyx
    omega
  have hcoordinates : t.coordinates = t'.coordinates := by rw [← hfst, ← hfst', htriples]
  have hrows : t.numRows = t'.numRows := by rw [h.numRows_eq, h'.numRows_eq]
  have hcols : t.numCols = t'.numCols := by rw [h.numCols_eq, h'.numCols_eq]
  refine ⟨h.wellFormed.ext_coordinates h'.wellFormed a a' hrows hcols hcoordinates, ?_⟩
  rw [← h.wellFormed.map_snd_triples h.length_eq, htriples,
    h'.wellFormed.map_snd_triples h'.length_eq]

end IsTranspose

/-- The pattern that is built by going through the columns is the transpose. -/
theorem WellFormed.isTranspose_transposed (w : p.WellFormed) (d : p.Distinct) :
    IsTranspose p p.transposed p.transposedOrder where
  wellFormed := w.wellFormed_transposed
  numRows_eq := numRows_transposed p
  numCols_eq := numCols_transposed p
  sorted := fun j hj => (w.ascending_transposed d j hj).imp Nat.le_of_lt
  length_eq := by
    rw [← w.wellFormed_transposed.length_coordinates, coordinates_transposed, List.length_map]
  triples_perm := by
    have hzip : ∀ (ks : List Nat) (f : Nat → Nat × Nat),
        (ks.map f).zip ks = ks.map fun k => (f k, k) := by
      intro ks f
      have hmap : (ks.map f).zip (ks.map id) = ks.map fun k => (f k, id k) := List.zip_map'
      rwa [List.map_id] at hmap
    rw [triples, triples, coordinates_transposed, w.coordinates_eq, hzip, hzip, List.map_map]
    exact w.perm_transposedOrder.map _

/-! ## Which patterns equal their transposes -/

/-- A pattern that equals its transpose is regular. -/
theorem WellFormed.regular_of_transposed_eq (w : p.WellFormed) (d : p.Distinct)
    (h : p.transposed = p) : p.Regular where
  toWellFormed := w
  square := by rw [← numRows_transposed, h]
  ascending := h ▸ w.ascending_transposed d
  mirrored := fun i j hij => by
    rw [← w.stores_transposed, h] at hij
    exact hij

theorem WellFormed.regular_iff (w : p.WellFormed) (square : p.numRows = p.numCols) :
    p.Regular ↔ p.Ascending ∧ ∀ i j, p.Stores i j ↔ p.Stores j i :=
  ⟨fun r => ⟨r.ascending, fun i j => ⟨r.mirrored i j, r.mirrored j i⟩⟩,
    fun ⟨a, h⟩ => ⟨w, square, a, fun i j => (h i j).mp⟩⟩

/-- Patterns of one shape are equal when their arrays are. -/
theorem transposed_eq_iff (square : p.numRows = p.numCols) :
    p.transposed = p ↔ p.transposed.starts = p.starts ∧ p.transposed.columns = p.columns := by
  constructor
  · intro h
    exact ⟨congrArg starts h, congrArg columns h⟩
  · rintro ⟨hstarts, hcolumns⟩
    rw [mk.injEq]
    exact ⟨(numRows_transposed p).trans square.symm, square, hstarts, hcolumns⟩

/-- What is compared is the pattern with its transpose. -/
theorem WellFormed.transposePermutation_eq_ite (w : p.WellFormed)
    (square : p.numRows = p.numCols) :
    p.transposePermutation =
      if p.transposed.starts = p.starts ∧ p.transposed.columns = p.columns then
        .ok p.transposedOrder
      else .error .asymmetric := by
  have hcheck : p.checkArrays p.nonzeros = .ok () := by
    rw [w.nonzeros_eq]
    exact w.checkArrays_eq
  unfold transposePermutation
  rw [if_pos square, hcheck]
  rfl

/-- The transposing permutation is found for the regular patterns. -/
theorem WellFormed.transposePermutation_eq_ok_iff (w : p.WellFormed) (d : p.Distinct)
    (square : p.numRows = p.numCols) {order : List Nat} :
    p.transposePermutation = .ok order ↔ p.Regular ∧ p.transposedOrder = order := by
  constructor
  · intro h
    rw [w.transposePermutation_eq_ite square] at h
    split at h
    · rename_i heq
      exact ⟨w.regular_of_transposed_eq d ((transposed_eq_iff square).mpr heq), Except.ok.inj h⟩
    · cases h
  · rintro ⟨r, rfl⟩
    exact r.transposePermutation_eq

/-! ## Values along the permutation -/

/-- A list that sends every position to that of the mirrored entry, and back. -/
structure Transposes (p : Pattern) (order : List Nat) : Prop where
  perm : order.Perm (List.range p.columns.size)
  involutive : ∀ k, k < p.columns.size → ∃ m : Nat, order[k]? = some m ∧ order[m]? = some k
  mirrors : ∀ k i j : Nat, p.coordinates[k]? = some (i, j) →
    ∃ m : Nat, order[k]? = some m ∧ p.coordinates[m]? = some (j, i)

theorem Regular.transposes (r : p.Regular) : p.Transposes p.transposedOrder where
  perm := r.toWellFormed.perm_transposedOrder
  involutive := by
    intro k hk
    have hc := r.toWellFormed.getElem?_coordinates_of_lt hk
    obtain ⟨m, hm, hcm⟩ := r.getElem?_transposedOrder hc
    obtain ⟨k', hk', hck'⟩ := r.getElem?_transposedOrder hcm
    -- mirrored twice, an entry is itself
    obtain rfl : k' = k := r.ascending.distinct.eq_of_getElem? hck' hc
    exact ⟨m, hm, hk'⟩
  mirrors := fun _ _ _ => r.getElem?_transposedOrder

/-- The positions of a row that store the column of one of them are that one. -/
theorem WellFormed.filter_positions (w : p.WellFormed) (d : p.Distinct) {k i j : Nat}
    (h : p.coordinates[k]? = some (i, j)) :
    (p.positions i).filter (fun m => p.column m == j) = [k] := by
  have hi : i < p.numRows := (mem_coordinates.mp (List.mem_of_getElem? h)).1
  have hk : k ∈ p.positions i ∧ p.column k = j := by
    have hlt : k < p.columns.size := by
      rw [← w.length_coordinates]
      exact (List.getElem?_eq_some_iff.mp h).1
    obtain ⟨i', hi', hk'⟩ := w.exists_mem_positions hlt
    rw [w.getElem?_coordinates hi' hk', Option.some.injEq, Prod.mk.injEq] at h
    obtain ⟨rfl, rfl⟩ := h
    exact ⟨hk', rfl⟩
  have hpositions : (p.positions i).Pairwise (· < ·) := List.pairwise_lt_range'
  refine eq_of_pairwise_lt (hpositions.filter _) (List.pairwise_singleton _ _) ?_
  intro m
  rw [List.mem_filter, beq_iff_eq, List.mem_singleton]
  constructor
  · rintro ⟨hm, rfl⟩
    exact d.eq_of_getElem? (w.getElem?_coordinates hi hm) h
  · rintro rfl
    exact hk

end Pattern

namespace Compressed

open Pattern

variable {α : Type} [Zero α]

/-- The values that stand at some positions. -/
def gathered (values : Array α) (order : List Nat) : Array α :=
  (order.map fun k => values.getD k 0).toArray

theorem getD_gathered (values : Array α) {order : List Nat} {k m : Nat} (h : order[k]? = some m) :
    (gathered values order).getD k 0 = values.getD m 0 := by
  simp [gathered, Array.getD_eq_getD_getElem?, h]

variable [Add α]

/-- Where an entry is stored once, it is the value that stands there. -/
theorem entry_of_getElem? {A : Compressed α} (w : A.pattern.WellFormed) (d : A.pattern.Distinct)
    {k i j : Nat} (h : A.pattern.coordinates[k]? = some (i, j)) : A.entry i j = 0 + A.value k := by
  rw [entry, w.filter_positions d h]
  rfl

/-- Values along the permutation are those of the transposed matrix. -/
theorem dense_gathered {p : Pattern} (r : p.Regular) (values : Array α) :
    (Compressed.mk p (gathered values p.transposedOrder)).dense =
      (Compressed.mk p values).dense.transpose := by
  have w := r.toWellFormed
  have d := r.ascending.distinct
  refine Dense.ext_get r.square r.square.symm fun i j hi hj => ?_
  have hi : i < p.numRows := hi
  have hj : j < p.numCols := hj
  have hi' : i < p.numCols := by rwa [← r.square]
  have hj' : j < p.numRows := by rwa [r.square]
  rw [Dense.get_transpose, get_dense hi hj, get_dense hj' hi']
  by_cases hij : p.Stores i j
  · obtain ⟨k, hk⟩ := List.mem_iff_getElem?.mp (mem_coordinates.mpr hij)
    obtain ⟨m, hm, hcm⟩ := r.getElem?_transposedOrder hk
    rw [entry_of_getElem? w d hk, entry_of_getElem? w d hcm]
    exact congrArg (0 + ·) (getD_gathered values hm)
  · have hji : ¬ p.Stores j i := fun h => hij (r.mirrored j i h)
    rw [entry_eq_zero_of_not_stores _ fun h => hij ⟨hi, h⟩,
      entry_eq_zero_of_not_stores _ fun h => hji ⟨by rwa [r.square], h⟩]

end Compressed

/-! ## Drafts -/

namespace Draft

variable {α : Type} {d : Draft α} {p : Pattern}

theorem shape_of_pattern? (h : d.pattern? = some p) :
    d.numRows = p.numRows ∧ d.numCols = p.numCols ∧ d.starts.size = p.starts.size := by
  unfold pattern? at h
  split at h
  · rename_i hnonneg
    obtain rfl := Option.some.inj h
    obtain ⟨hrows, hcols, -⟩ := hnonneg
    exact ⟨(Int.toNat_of_nonneg hrows).symm, (Int.toNat_of_nonneg hcols).symm,
      (Array.size_map).symm⟩
  · cases h

/-- Starts that are there have a last one. -/
theorem exists_nonzeros (h : 0 < d.starts.size) : ∃ n, d.nonzeros = .ok n := by
  have hlast : (-1 + (d.starts.size : Int)).toNat < d.starts.size := by omega
  refine ⟨d.starts[(-1 + (d.starts.size : Int)).toNat], ?_⟩
  have hneg : (-1 : Int) < 0 := by decide
  have hle : ¬ (-1 + (d.starts.size : Int) < 0) := by omega
  unfold nonzeros startAt
  simp only [if_pos hneg, if_neg hle, Array.getElem?_eq_getElem hlast]

/-- The permutation of a draft is that of its pattern. -/
theorem transposePermutation_eq (w : p.WellFormed) (h : d.pattern? = some p) :
    d.transposePermutation = p.transposePermutation := by
  obtain ⟨hrows, hcols, hstarts⟩ := shape_of_pattern? h
  obtain ⟨n, hn⟩ := d.exists_nonzeros (by rw [hstarts, w.size_starts]; omega)
  have hsquare : d.numRows = d.numCols ↔ p.numRows = p.numCols := by omega
  unfold transposePermutation
  by_cases square : p.numRows = p.numCols
  · rw [if_pos (hsquare.mpr square), hn, h]
    rfl
  · rw [if_neg (mt hsquare.mp square), Pattern.transposePermutation, if_neg square]

end Draft

namespace Pattern

variable {p : Pattern}

/-- Of a square pattern that repeats no column in a row, the transposing permutation is found
exactly when the rows ascend and the pattern is symmetric, whichever way its transpose is made. It
is its own inverse and transposes the matrices of that pattern. -/
theorem transposePermutation_spec {α : Type} [Zero α] [Add α] (w : p.WellFormed)
    (square : p.numRows = p.numCols) (distinct : p.Distinct) :
    -- the answer is a comparison with the transpose, of which there is one
    (∀ t labels, IsTranspose p t labels → p.transposePermutation =
        if t.starts = p.starts ∧ t.columns = p.columns then .ok labels else .error .asymmetric) ∧
      (∃ t labels, IsTranspose p t labels) ∧
      (∀ d : Draft α, d.pattern? = some p → d.transposePermutation = p.transposePermutation) ∧
      -- when it is found
      ((∃ order, p.transposePermutation = .ok order) ↔
        p.Ascending ∧ ∀ i j, p.Stores i j ↔ p.Stores j i) ∧
      (∀ fault, p.transposePermutation = .error fault → fault = .asymmetric) ∧
      -- what it is
      ∀ order, p.transposePermutation = .ok order →
        p.Transposes order ∧ ∀ values : Array α, values.size = p.columns.size →
          (Compressed.mk p (Compressed.gathered values order)).dense =
            (Compressed.mk p values).dense.transpose := by
  have hfound : ∀ order, p.transposePermutation = .ok order ↔
      p.Regular ∧ p.transposedOrder = order :=
    fun order => w.transposePermutation_eq_ok_iff distinct square
  have hmade := w.isTranspose_transposed distinct
  refine ⟨?_, ⟨_, _, hmade⟩, fun d h => Draft.transposePermutation_eq w h, ?_, ?_, ?_⟩
  · intro t labels ht
    obtain ⟨rfl, rfl⟩ := ht.unique w distinct hmade
    exact w.transposePermutation_eq_ite square
  · rw [← w.regular_iff square]
    constructor
    · rintro ⟨order, h⟩
      exact ((hfound order).mp h).1
    · intro r
      exact ⟨_, r.transposePermutation_eq⟩
  · intro fault h
    rw [w.transposePermutation_eq_ite square] at h
    split at h
    · cases h
    · exact (Except.error.inj h).symm
  · intro order h
    obtain ⟨r, rfl⟩ := (hfound order).mp h
    exact ⟨r.transposes, fun values _ => Compressed.dense_gathered r values⟩

/-- A diagonal with a corner on either side. -/
def cornered : Pattern := ofRows 3 [[0, 2], [1], [0]]

/-- The corners change places, and with them their values. -/
theorem transposePermutation_cornered :
    cornered.WellFormed ∧ cornered.numRows = cornered.numCols ∧ cornered.Distinct ∧
      cornered.transposePermutation = .ok [0, 3, 2, 1] ∧ cornered.Transposes [0, 3, 2, 1] ∧
      (Compressed.mk cornered (#[5, 8, 7, 6] : Array Int)).dense =
        (Compressed.mk cornered #[5, 6, 7, 8]).dense.transpose := by
  have w : cornered.WellFormed := wellFormed_ofRows (by decide)
  have distinct : cornered.Distinct := by
    show ∀ i, i < 3 → (cornered.rowColumns i).Nodup
    decide
  have hfound : cornered.transposePermutation = .ok [0, 3, 2, 1] := by cbv
  obtain ⟨-, -, -, -, -, hspec⟩ := transposePermutation_spec (α := Int) w rfl distinct
  obtain ⟨htransposes, hdense⟩ := hspec _ hfound
  exact ⟨w, rfl, distinct, hfound, htransposes, hdense #[5, 6, 7, 8] rfl⟩

end Pattern

end LeastSquares
