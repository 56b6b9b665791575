/-
LeastSquares.Proofs.Preconditioning — a computed covariance undoes the normal equations.

A request for all pairs of free blocks is planned with every entry (`stores_of_requested`), and what
is stored is the inverse of the normal matrix, entry by entry. Multiplied on threads, a matrix that
is stored with all its entries is applied as it is (`applyMatrix_gather`); the columns of numbers
are then vectors, and what remains is that a matrix and its inverse undo each other.

The preconditioner of diagonal blocks is told the sizes of the free blocks and nothing else. Blocks
without columns have no size there, and leave no gap between the spans of the others
(`adjacent_freeSizes`), so that the spans are the columns of the free blocks again. A residual block
that uses one free block adds to the normal matrix on the diagonal only (`gram_eq_diagonal`), and a
diagonal is inverted block by block.
-/
import LeastSquares.Proofs.Diagonal
import LeastSquares.Proofs.Multiplication
import LeastSquares.Proofs.Rebasing

namespace LeastSquares

open Matrix

/-! ## Columns of numbers as vectors -/

section Vectors

variable {K : Type} [Field K] {n : Nat}

/-- The first numbers of a column. -/
def vectorOf (n : Nat) (x : Array K) : Fin n → K := fun i => x.getD i 0

theorem ofFn_vectorOf {x : Array K} (hx : x.size = n) : Array.ofFn (vectorOf n x) = x := by
  apply Array.ext
  · simp [hx]
  · intro i _ hi
    simp [vectorOf, Array.getD_eq_getD_getElem?, hi]

theorem vectorOf_ofFn (v : Fin n → K) : vectorOf n (Array.ofFn v) = v := by
  funext i
  simp [vectorOf, Array.getD_eq_getD_getElem?]

theorem Dense.mulVec_eq {A : Dense K} (hrows : A.rows = n) (hcols : A.cols = n) (x : Array K) :
    A.mulVec x = Array.ofFn (A.toSquare n *ᵥ vectorOf n x) := by
  subst hrows
  apply Array.ext
  · simp
  · intro i hi _
    have hi : i < A.rows := by simpa using hi
    have hrow := A.getD_mulVec x hi
    rw [sumTo_eq_sum, hcols, Finset.sum_range] at hrow
    rw [Array.getElem_ofFn]
    refine Eq.trans ?_ hrow
    simp [Array.getD_eq_getD_getElem?, hi]

/-- The normal equations of the dense Jacobian are those of the compressed one. -/
theorem Compressed.mulVec_gram_dense (J : Compressed K) (x : Array K) :
    J.dense.gram.mulVec x =
      Array.ofFn (J.normalMatrix *ᵥ vectorOf J.pattern.numCols x) := by
  have hnormal : J.dense.gram.toSquare J.pattern.numCols = J.normalMatrix := by
    ext i j
    have hrows : J.dense.rows = J.pattern.numRows := rfl
    rw [Dense.toSquare_apply, Dense.get_gram J.dense i.isLt j.isLt, sumTo_eq_sum, normalMatrix,
      mul_apply, hrows, Finset.sum_range]
    exact Finset.sum_congr rfl fun r _ => by
      rw [get_dense r.isLt i.isLt, get_dense r.isLt j.isLt]
      rfl
  rw [← hnormal]
  exact Dense.mulVec_eq rfl rfl x

/-- A matrix that is stored along a pattern with all its entries is applied as it is. -/
theorem Preconditioner.applyMatrix_gather {p : Pattern} (r : p.Regular) (hrows : p.numRows = n)
    (hstored : ∀ i j, i < n → j < n → p.Stores i j) (P : Matrix (Fin n) (Fin n) K)
    (schedule : Schedule) (threads : Int) {x : Array K} (hx : x.size = n) :
    applyMatrix schedule threads ⟨p, Truncation.gather (entryAt P) p⟩ x =
      .ok (Array.ofFn (P *ᵥ vectorOf n x)) := by
  subst hrows
  have hcheck : (Compressed.mk p (Truncation.gather (entryAt P) p)).check = .ok () := by
    rw [Compressed.check, Truncation.size_gather _ r.toWellFormed]
    exact r.toWellFormed.checkArrays_eq
  rw [applyMatrix, Compressed.multiplyAdd_eq schedule threads hcheck (hx.trans r.square) (by simp)]
  refine congrArg _ (congrArg _ (funext fun i => ?_))
  have hentry : ∀ j : Fin p.numRows,
      (Compressed.mk p (Truncation.gather (entryAt P) p)).entry i j = P i j := fun j => by
    rw [Compressed.entry_gather _ r.toWellFormed r.ascending (hstored i j i.isLt j.isLt),
      entryAt_of_lt P i.isLt j.isLt]
  rw [Compressed.rowDot_eq_sum r.toWellFormed x i.isLt, ← r.square, Finset.sum_range, mulVec,
    dotProduct]
  simp [hentry, vectorOf, Array.getD_eq_getD_getElem?]

end Vectors

/-! ## Diagonals of blocks -/

namespace ColumnBounds

section Diagonals

variable {K : Type} [Field K] {b : ColumnBounds} {T I : Nat → Dense K}

/-- The blocks of an invertible diagonal are invertible. -/
theorem isUnit_of_diagonal (h : IsUnit (b.diagonal T)) (i : Fin b.ranges.size) :
    IsUnit ((T i).toSquare (b.widthAt i)) := by
  have hinverse := mul_nonsing_inv _ ((isUnit_iff_isUnit_det _).mp h)
  refine IsUnit.of_mul_eq_one
    (Matrix.of fun u v => (b.diagonal T)⁻¹ (⟨i, u⟩ : b.Place) ⟨i, v⟩) ?_
  ext u v
  have hentry := congrFun (congrFun hinverse (⟨i, u⟩ : b.Place)) ⟨i, v⟩
  rw [mul_apply, b.sum_diagonal_row] at hentry
  refine Eq.trans hentry ?_
  simp [one_apply]

/-- A diagonal is inverted block by block. -/
theorem inv_diagonal
    (h : ∀ i : Fin b.ranges.size,
      (T i).toSquare (b.widthAt i) * (I i).toSquare (b.widthAt i) = 1) :
    (b.diagonal T)⁻¹ = b.diagonal I := by
  refine inv_eq_right_inv ?_
  ext ⟨i, u⟩ ⟨j, v⟩
  rw [mul_apply, b.sum_diagonal_row]
  by_cases hij : i = j
  · subst hij
    refine Eq.trans ?_ ((congrFun (congrFun (h i) u) v).trans ?_)
    · simp [diagonal, mul_apply]
    · simp [one_apply]
  · simp [diagonal, hij, one_apply]

end Diagonals

/-! ## Spans of columns -/

/-- The span of the columns of a block. -/
def spanAt (b : ColumnBounds) (i : Nat) : Span :=
  ⟨((b.rangeAt i).first : Nat), ((b.rangeAt i).first + b.widthAt i : Nat)⟩

@[simp] theorem size_spanAt (b : ColumnBounds) (i : Nat) : (b.spanAt i).size = b.widthAt i := by
  simp [spanAt, Span.size]

@[simp] theorem toNat_start_spanAt (b : ColumnBounds) (i : Nat) :
    (b.spanAt i).start.toNat = (b.rangeAt i).first := rfl

theorem mem_spanAt {b : ColumnBounds} {i k : Nat} :
    (k : Int) ∈ b.spanAt i ↔ k ∈ (b.rangeAt i).columns := by
  simp only [Span.mem_def, ColumnRange.mem_columns, spanAt, widthAt]
  omega

namespace Tiled

variable {b : ColumnBounds}

theorem inside_spanAt (t : b.Tiled) {i : Nat} (hi : i < b.ranges.size) :
    (b.spanAt i).Inside b.numCols.toNat where
  start_nonneg := Int.natCast_nonneg _
  start_le_stop := Int.ofNat_le.mpr (Nat.le_add_right _ _)
  stop_le := by
    have := offset_add_le b.widthAt hi
    rw [spanAt, t.first_eq hi, t.toNat_numCols]
    exact Int.ofNat_le.mpr this

/-- The column of a direction lies in the span of its own block. -/
theorem columnOf_mem_spanAt_iff (t : b.Tiled) (c : b.Place) {i : Nat} :
    (b.columnOf c : Int) ∈ b.spanAt i ↔ i = c.1 := by
  have hmem : b.columnOf c ∈ (b.rangeAt c.1).columns := first_add_mem_columns c.2.isLt
  rw [mem_spanAt]
  constructor
  · intro h
    exact t.eq_of_mem_columns h hmem
  · rintro rfl
    exact hmem

/-- Every column is that of a direction. -/
theorem exists_columnOf (t : b.Tiled) {k : Nat} (hk : k < b.numCols.toNat) :
    ∃ c : b.Place, b.columnOf c = k := by
  obtain ⟨c, hc⟩ := t.bijective_columnOf.2 ⟨k, hk⟩
  exact ⟨c, congrArg Fin.val hc⟩

/-- Columns of numbers are equal if they are so at all directions. -/
theorem ext_columnOf {α : Type} [Zero α] (t : b.Tiled) {x y : Array α}
    (hx : x.size = b.numCols.toNat) (hy : y.size = b.numCols.toNat)
    (h : ∀ c : b.Place, x.getD (b.columnOf c) 0 = y.getD (b.columnOf c) 0) : x = y := by
  apply Array.ext
  · rw [hx, hy]
  · intro k hk hk'
    obtain ⟨c, rfl⟩ := t.exists_columnOf (k := k) (by omega)
    simpa [Array.getD_eq_getD_getElem?, hk, hk'] using h c

/-- A sum over the columns is a sum over the directions. -/
theorem sum_columnOf {K : Type} [AddCommMonoid K] (t : b.Tiled) (f : Nat → K) :
    ∑ c : b.Place, f (b.columnOf c) = ∑ k ∈ Finset.range b.numCols.toNat, f k := by
  rw [Finset.sum_range, ← Equiv.sum_comp t.columnEquiv]
  rfl

end Tiled

end ColumnBounds

/-! ## The diagonal blocks of a Jacobian over tiled columns -/

namespace BlockJacobi

variable {K : Type} [Field K] {b : ColumnBounds}

/-- What a block makes of a column of numbers, at a direction of the block. -/
theorem blockProduct_spanAt (x : Array K) (B : Dense K) (c : b.Place) :
    blockProduct x (b.spanAt c.1) B (b.columnOf c) =
      ∑ s : Fin (b.widthAt c.1), B.get c.2 s * x.getD (b.columnOf ⟨c.1, s⟩) 0 := by
  have hplace : b.columnOf c - (b.spanAt c.1).start.toNat = c.2 := by
    rw [ColumnBounds.columnOf, ColumnBounds.toNat_start_spanAt, Nat.add_sub_cancel_left]
  rw [blockProduct, hplace, sumTo_eq_sum, ColumnBounds.size_spanAt, Finset.sum_range]
  rfl

variable {blocks : List Nat} {I : Nat → Dense K}

/-- Inverses of all blocks with columns are applied as the diagonal that they stand on. -/
theorem exists_apply (jacobi : BlockJacobi K) (t : b.Tiled)
    (hextent : Extent.check [b.numCols] = .ok ())
    (hspans : jacobi.spans = blocks.map b.spanAt) (hrows : jacobi.numRows = b.numCols)
    (hinverses : jacobi.inverses = some (blocks.map I))
    (successive : Span.Successive b.numCols.toNat (blocks.map b.spanAt))
    (hsizes : ∀ i ∈ blocks, (I i).rows = b.widthAt i ∧ (I i).cols = b.widthAt i)
    (hall : ∀ i, 0 < b.widthAt i → i ∈ blocks) {x : Array K} (hx : x.size = b.numCols.toNat) :
    ∃ z, jacobi.apply x = .ok z ∧ z.size = b.numCols.toNat ∧ ∀ c : b.Place,
      z.getD (b.columnOf c) 0 =
        ∑ s : Fin (b.widthAt c.1), (I c.1).get c.2 s * x.getD (b.columnOf ⟨c.1, s⟩) 0 := by
  have hzip : jacobi.spans.zip (blocks.map I) = blocks.map fun i => (b.spanAt i, I i) := by
    rw [hspans, List.zip_map']
  have hsuccessive : Span.Successive b.numCols.toNat
      ((blocks.map fun i => (b.spanAt i, I i)).map Prod.fst) := by
    rw [List.map_map]
    exact successive
  have hshapes : ∀ e ∈ blocks.map fun i => (b.spanAt i, I i),
      e.2.rows = e.1.size ∧ e.2.cols = e.1.size := by
    intro e he
    obtain ⟨i, hi, rfl⟩ := List.mem_map.mp he
    rw [ColumnBounds.size_spanAt]
    exact hsizes i hi
  have hempty : (Array.replicate b.numCols.toNat (0 : K)).size = b.numCols.toNat :=
    Array.size_replicate
  obtain ⟨z, hz, hsize, hentries⟩ := exists_applyBlocks hx hsuccessive hshapes hempty
  refine ⟨z, ?_, hsize, fun c => ?_⟩
  · unfold apply multiplyAdd
    rw [hrows, hextent, hinverses]
    simp only [hzip]
    exact hz
  · have hc := t.columnOf_lt c
    have hmem : ((c.1 : Nat)) ∈ blocks := hall c.1 (Nat.zero_lt_of_lt c.2.isLt)
    have hentry := (hentries _ hc).1 _ (List.mem_map_of_mem hmem)
      ((t.columnOf_mem_spanAt_iff c).mpr rfl)
    rw [hentry, blockProduct_spanAt]
    simp [Array.getD_eq_getD_getElem?, hc]

variable [LinearOrder K] [IsStrictOrderedRing K] {J : Compressed K}

/-- Where the normal matrix is invertible and has nothing beside its diagonal blocks, an update of
the spans of some blocks succeeds, and what it keeps stands on the diagonal of the inverse. -/
theorem exists_update (jacobi : BlockJacobi K) (t : b.Tiled)
    (hcols : J.pattern.numCols = b.numCols.toNat)
    (hcheck : J.check = .ok ()) (hunit : IsUnit (b.diagonal fun i => gramBlock J (b.spanAt i)))
    (hblocks : ∀ i ∈ blocks, i < b.ranges.size) (hspans : jacobi.spans = blocks.map b.spanAt)
    (hrows : jacobi.numRows = b.numCols) :
    ∃ I : Nat → Dense K, (b.diagonal fun i => gramBlock J (b.spanAt i))⁻¹ = b.diagonal I ∧
      (∀ i ∈ blocks, (I i).rows = b.widthAt i ∧ (I i).cols = b.widthAt i) ∧
      jacobi.update J none =
        { answer := .ok true, state := { jacobi with inverses := some (blocks.map I) } } := by
  have hinverse : ∀ i, ∃ I, i < b.ranges.size →
      finiteInverse? (gramBlock J (b.spanAt i)) = some I ∧ I.rows = b.widthAt i ∧
        I.cols = b.widthAt i ∧ (gramBlock J (b.spanAt i)).toSquare (b.widthAt i) *
          I.toSquare (b.widthAt i) = 1 := by
    intro i
    by_cases hi : i < b.ranges.size
    · obtain ⟨hrows, hcols, -⟩ := gramBlock_spec (A := J) (s := b.spanAt i)
        (by rw [hcols]; exact t.inside_spanAt hi)
      rw [ColumnBounds.size_spanAt] at hrows hcols
      have hblock := ColumnBounds.isUnit_of_diagonal hunit ⟨i, hi⟩
      obtain ⟨I, hI, hIrows, hIcols, heq⟩ := exists_finiteInverse? hrows hcols hblock
      refine ⟨I, fun _ => ⟨hI, hIrows, hIcols, ?_⟩⟩
      rw [heq]
      exact mul_nonsing_inv _ ((isUnit_iff_isUnit_det _).mp hblock)
    · exact ⟨Dense.zeros 0 0, fun h => absurd h hi⟩
  choose I hI using hinverse
  refine ⟨I, ColumnBounds.inv_diagonal fun i => (hI i i.isLt).2.2.2, fun i hi => ?_, ?_⟩
  · obtain ⟨-, hIrows, hIcols, -⟩ := hI i (hblocks i hi)
    exact ⟨hIrows, hIcols⟩
  · have hwidth : (J.pattern.numCols : Int) = jacobi.numRows := by
      rw [hrows, hcols, t.numCols_eq, Int.toNat_natCast]
    refine update_eq hcheck hwidth ?_
    rw [hspans, List.forall₂_map_left_iff, List.forall₂_map_right_iff, List.forall₂_same]
    exact fun i hi => ⟨_, rfl, (hI i (hblocks i hi)).1⟩

end BlockJacobi

/-! ## Free blocks -/

namespace Extent

/-- What is no larger than an array that finds a place is held by sixty-four bits. -/
theorem isWord_of_check {d i : Int} (h : check [d] = .ok ()) (hi : 0 ≤ i) (hle : i ≤ d) :
    isWord i = true := by
  have hbytes : bytes [d] ≤ maxBytes := by
    unfold check at h
    split at h
    · cases h
    · split at h
      · cases h
      · rename_i hle
        exact Nat.le_of_not_lt hle
  have hd : d.natAbs * 8 ≤ 2 ^ 36 := by
    unfold bytes at hbytes
    split at hbytes
    · rename_i hzero
      simp [hzero]
    · exact hbytes
  have hword : (2 : Int) ^ 36 ≤ Nat.pow 2 63 := by decide
  simp only [isWord, Bool.and_eq_true, decide_eq_true_eq]
  constructor
  · omega
  · omega

end Extent

namespace Problem

variable {α : Type}

/-- The blocks that can move and that some residual block uses, in the order of their handles. -/
def freeBlocks (p : Problem α) : List Nat :=
  (List.range p.blocks.size).filter fun i => !(p.blockAt i).isConstant && p.uses i

/-- The tangent sizes of the free blocks, in the order of their handles. -/
def freeSizes (p : Problem α) : List Int := p.freeBlocks.map fun i => (p.blockAt i).tangentSize

end Problem

namespace Covariance

section Planned

variable {α : Type} {p : Problem α} {request : List Item} {plan : Plan}

/-- The free blocks of a planned request are those with columns. -/
theorem mem_freeBlocks_iff (h : planOf p request = .ok plan) {i : Nat} :
    i ∈ p.freeBlocks ↔ 0 < plan.bounds.widthAt i := by
  have t := (regular_of_planOf h).2.1
  rw [bounds_of_planOf h] at t ⊢
  have hlt : 0 < (ColumnBounds.make p true).widthAt i → i < p.blocks.size := fun hpos => by
    rw [← ColumnBounds.size_ranges_make p true]
    exact ColumnBounds.lt_size_of_widthAt_pos hpos
  rw [Problem.freeBlocks, List.mem_filter, List.mem_range]
  by_cases hi : i < p.blocks.size
  · have hnonneg := t.size_nonneg i
    rw [ColumnBounds.rangeAt_make p true hi] at hnonneg
    have hkeep : (!(p.blockAt i).isConstant && p.uses i) =
        !((p.blockAt i).isConstant || !p.uses i) := by simp
    rw [ColumnBounds.widthAt_make p true hi, hkeep]
    simp only [ColumnBounds.width, if_true] at hnonneg ⊢
    cases hfree : (p.blockAt i).isConstant || !p.uses i with
    | true => simp
    | false =>
      have hmoves : (p.blockAt i).tangentSize ≠ 0 := by
        simp only [ParameterBlock.isConstant, Bool.or_eq_false_iff, beq_eq_false_iff_ne] at hfree
        exact hfree.1.2
      simp only [hfree, Bool.false_eq_true, if_false] at hnonneg ⊢
      simp only [Bool.not_false, and_true, hi, true_iff]
      omega
  · constructor
    · rintro ⟨hi', -⟩
      exact absurd hi' hi
    · intro hpos
      exact absurd (hlt hpos) hi

theorem freeSizes_eq (h : planOf p request = .ok plan) :
    p.freeSizes = p.freeBlocks.map fun i => (plan.bounds.widthAt i : Int) :=
  List.map_congr_left fun _ hi => (widthAt_eq_tangentSize h ((mem_freeBlocks_iff h).mp hi)).symm

/-- The sizes of the free blocks are adjacent spans over the columns. -/
theorem adjacent_freeSizes (h : planOf p request = .ok plan) :
    totalExtent p.freeSizes = plan.bounds.numCols ∧
      Span.adjacent 0 p.freeSizes = p.freeBlocks.map plan.bounds.spanAt := by
  have t := (regular_of_planOf h).2.1
  have hsize : plan.bounds.ranges.size = p.blocks.size := by
    rw [bounds_of_planOf h, ColumnBounds.size_ranges_make]
  obtain ⟨htotal, hadjacent⟩ := Span.adjacent_filter (n := p.blocks.size) plan.bounds.widthAt
    (fun i => !(p.blockAt i).isConstant && p.uses i) (by
      intro i hi hkeep
      by_contra hwidth
      have hmem := (mem_freeBlocks_iff h).mpr (Nat.pos_of_ne_zero hwidth)
      rw [Problem.freeBlocks, List.mem_filter, hkeep] at hmem
      exact absurd hmem.2 (by decide))
  rw [freeSizes_eq h]
  refine ⟨htotal.trans (by rw [t.numCols_eq, hsize]), hadjacent.trans ?_⟩
  refine List.map_congr_left fun i hi => ?_
  have hlt : i < plan.bounds.ranges.size :=
    ColumnBounds.lt_size_of_widthAt_pos ((mem_freeBlocks_iff h).mp hi)
  rw [ColumnBounds.spanAt, t.first_eq hlt]

/-- The spans of the free blocks follow each other. -/
theorem successive_freeBlocks (h : planOf p request = .ok plan) :
    Span.Successive plan.bounds.numCols.toNat (p.freeBlocks.map plan.bounds.spanAt) := by
  have hsuccessive := Span.successive_adjacent 0 (p.freeBlocks.map plan.bounds.widthAt)
  obtain ⟨htotal, hadjacent⟩ := adjacent_freeSizes h
  have hsizes : (p.freeBlocks.map plan.bounds.widthAt).map (fun (n : Nat) => (n : Int)) =
      p.freeSizes := by
    rw [freeSizes_eq h, List.map_map]
    rfl
  have hcols : 0 + totalSize (p.freeBlocks.map plan.bounds.widthAt) =
      plan.bounds.numCols.toNat := by
    rw [← htotal, ← hsizes, totalExtent_map_natCast, Int.toNat_natCast, Nat.zero_add]
  rw [hcols, hsizes] at hsuccessive
  rw [← hadjacent]
  exact hsuccessive

/-- The columns of a planned request are those of an array. -/
theorem extent_of_planOf (h : planOf p request = .ok plan) :
    Extent.check [plan.bounds.numCols] = .ok () :=
  check_of_planOf h

/-- A preconditioner of the sizes of the free blocks is made. -/
theorem make_freeSizes (h : planOf p request = .ok plan) (β : Type) :
    BlockJacobi.make (p.freeSizes.map Atom.integer) =
      .ok (⟨p.freeSizes, none⟩ : BlockJacobi β) := by
  obtain ⟨-, hadjacent⟩ := adjacent_freeSizes h
  have t := (regular_of_planOf h).2.1
  have hwhole : (p.freeSizes.map Atom.integer).mapM Atom.whole = .ok p.freeSizes := by
    rw [mapM_eq_ok_iff, List.map_map]
    rfl
  have hwords : Extent.checkWords
      ((BlockJacobi.spans (⟨p.freeSizes, none⟩ : BlockJacobi β)).map Span.stop) = .ok () := by
    rw [BlockJacobi.spans, hadjacent]
    refine if_pos (List.all_eq_true.mpr fun stop hstop => ?_)
    obtain ⟨s, hs, rfl⟩ := List.mem_map.mp hstop
    obtain ⟨hstart, hle, hstop⟩ := (successive_freeBlocks h).inside s hs
    have hnumCols := t.numCols_eq
    exact Extent.isWord_of_check (extent_of_planOf h) (by omega) (by omega)
  unfold BlockJacobi.make
  rw [hwhole]
  show (Extent.checkWords _ >>= fun _ => _) = _
  rw [hwords]
  rfl

end Planned

/-! ## Residual blocks of one free block -/

section Apart

variable {K : Type} [Field K] [BEq K] [LE K] [DecidableLE K] [Elementary K] {p : Problem K}
  {bounds : ColumnBounds} {Ps : Array (Option (Dense K))} {applyLoss : Bool} {J : Compressed K}

/-- Where no residual block uses two blocks with columns, the normal matrix has nothing beside its
diagonal blocks. -/
theorem gram_eq_diagonal (t : bounds.Tiled) (hcols : J.pattern.numCols = bounds.numCols.toNat)
    (hgram : ∀ c d, ∑ k ∈ Finset.range J.pattern.numRows,
      J.entry k (bounds.columnOf c) * J.entry k (bounds.columnOf d) =
        p.gram bounds Ps applyLoss c d)
    (happart : ∀ r ∈ p.residuals, ∀ i ∈ r.blocks, ∀ j ∈ r.blocks,
      0 < bounds.widthAt i → 0 < bounds.widthAt j → i = j) :
    p.gram bounds Ps applyLoss =
      bounds.diagonal fun i => BlockJacobi.gramBlock J (bounds.spanAt i) := by
  ext ⟨i, u⟩ ⟨j, v⟩
  by_cases hij : i = j
  · subst hij
    obtain ⟨-, -, hentry⟩ := BlockJacobi.gramBlock_spec (A := J) (s := bounds.spanAt i)
      (by rw [hcols]; exact t.inside_spanAt i.isLt)
    rw [← hgram, ColumnBounds.diagonal, of_apply, if_pos rfl,
      hentry u v (by simp) (by simp)]
    rfl
  · rw [ColumnBounds.diagonal, of_apply, if_neg hij]
    refine List.sum_eq_zero fun x hx => ?_
    obtain ⟨r, hr, rfl⟩ := List.mem_map.mp hx
    have hused : ∀ {k : Nat} {G : Dense K}, p.jacobianOf Ps applyLoss r k = some G →
        k ∈ r.blocks := by
      intro k G hG
      unfold Problem.jacobianOf at hG
      split at hG
      · exact (List.of_mem_zip (mem_of_lookup_eq_some hG)).1
      · cases hG
    refine Finset.sum_eq_zero fun w _ => ?_
    simp only [Problem.entryOf]
    cases hi : p.jacobianOf Ps applyLoss r i with
    | none => simp
    | some G =>
      cases hj : p.jacobianOf Ps applyLoss r j with
      | none => simp
      | some H =>
        -- a residual block with Jacobians for both blocks would use both
        have heq := happart r (Array.mem_toList_iff.mp hr) i (hused hi) j (hused hj)
          (Nat.zero_lt_of_lt u.isLt) (Nat.zero_lt_of_lt v.isLt)
        exact absurd (Fin.ext heq) hij

end Apart

/-! ## Preconditioning -/

/-- A matrix is applied to a column of numbers by directions. -/
theorem getD_mulVec_columnOf {K : Type} [Field K] {bounds : ColumnBounds} (t : bounds.Tiled)
    {n : Nat} (hn : n = bounds.numCols.toNat) {P : Matrix (Fin n) (Fin n) K}
    {Q : Matrix bounds.Place bounds.Place K}
    (hentry : ∀ a d, entryAt P (bounds.columnOf a) (bounds.columnOf d) = Q a d) (x : Array K)
    (a : bounds.Place) :
    (Array.ofFn (P *ᵥ vectorOf n x)).getD (bounds.columnOf a) 0 =
      ∑ d, Q a d * x.getD (bounds.columnOf d) 0 := by
  subst hn
  have ha := t.columnOf_lt a
  have hrow : ∀ k : Fin bounds.numCols.toNat,
      entryAt P (bounds.columnOf a) k = P ⟨bounds.columnOf a, ha⟩ k :=
    fun k => entryAt_of_lt P ha k.isLt
  simp only [← hentry]
  rw [t.sum_columnOf fun k => entryAt P (bounds.columnOf a) k * x.getD k 0, Finset.sum_range]
  simp only [hrow]
  simp [Array.getD_eq_getD_getElem?, ha, mulVec, dotProduct, vectorOf]

/-- A request for all pairs of free blocks is planned with all entries. -/
theorem stores_of_requested {α : Type} {p : Problem α} {request : List Item} {plan : Plan}
    (h : planOf p request = .ok plan)
    (hrequested : ∀ i ∈ p.freeBlocks, ∀ j ∈ p.freeBlocks, Requested request i j) {k l : Nat}
    (hk : k < plan.bounds.numCols.toNat) (hl : l < plan.bounds.numCols.toNat) :
    plan.pattern.Stores k l := by
  have t := (regular_of_planOf h).2.1
  have hfree : ∀ {k : Nat}, k < plan.bounds.numCols.toNat →
      ∃ i ∈ p.freeBlocks, k ∈ (plan.bounds.rangeAt i).columns := fun hk => by
    obtain ⟨i, -, hmem⟩ := t.exists_mem_columns hk
    exact ⟨i, (mem_freeBlocks_iff h).mpr (ColumnBounds.widthAt_pos_of_mem_columns hmem), hmem⟩
  obtain ⟨i, hi, hki⟩ := hfree hk
  obtain ⟨j, hj, hlj⟩ := hfree hl
  exact (stores_iff_requested h hki hlj).mpr (hrequested i hi j hj)

section Preconditions

variable {K : Type} [Field K] [LinearOrder K] [IsStrictOrderedRing K] [Elementary K]
  {engine : Engine K} {c : Covariance K} {problem : Problem K} {request : List Item}
  {plan : Plan} {J : Compressed K} {schedule : Schedule} {applyLoss : Bool} {threads : Int}

/-- Where no residual block uses two free blocks and the normal matrix is invertible, its diagonal
blocks are inverted and applied as the inverse of the whole. -/
theorem exists_jacobi (hplan : planOf problem request = .ok plan) (s : problem.Sound)
    (hJ : (problem.jacobian schedule plan.bounds applyLoss threads).answer = .ok J)
    (hunit : IsUnit J.normalMatrix)
    (happart : ∀ r ∈ problem.residuals, ∀ i ∈ r.blocks, ∀ j ∈ r.blocks,
      i ∈ problem.freeBlocks → j ∈ problem.freeBlocks → i = j) :
    ∃ jacobi : BlockJacobi K,
      BlockJacobi.make (problem.freeSizes.map Atom.integer) = .ok jacobi ∧
      (jacobi.update J none).answer = .ok true ∧
      ∀ x : Array K, x.size = J.pattern.numCols →
        (jacobi.update J none).state.apply x =
          .ok (Array.ofFn (J.normalMatrix⁻¹ *ᵥ vectorOf J.pattern.numCols x)) := by
  have t := (regular_of_planOf hplan).2.1
  have hcols : J.pattern.numCols = plan.bounds.numCols.toNat := (Problem.pattern_jacobian t hJ).1
  have hsize : plan.bounds.ranges.size = problem.blocks.size := by
    rw [bounds_of_planOf hplan, ColumnBounds.size_ranges_make]
  have hlt : ∀ i ∈ problem.freeBlocks, i < plan.bounds.ranges.size := fun i hi =>
    ColumnBounds.lt_size_of_widthAt_pos ((mem_freeBlocks_iff hplan).mp hi)
  obtain ⟨htotal, hadjacent⟩ := adjacent_freeSizes hplan
  obtain ⟨Ps, -, -, hgram⟩ := Problem.sum_entries_eq_gram s t hsize hJ
  obtain ⟨hiff, hinverse⟩ := entryAt_inv_normalMatrix t hcols hgram
  have hdiagonal := gram_eq_diagonal t hcols hgram fun r hr i hi j hj hwi hwj =>
    happart r hr i hi j hj ((mem_freeBlocks_iff hplan).mpr hwi) ((mem_freeBlocks_iff hplan).mpr hwj)
  rw [hdiagonal] at hiff hinverse
  obtain ⟨I, hI, hsizes, hupdate⟩ := BlockJacobi.exists_update
    ⟨problem.freeSizes, none⟩ t hcols (Problem.check_jacobian t hJ) (hiff.mp hunit)
    hlt hadjacent htotal
  rw [hI] at hinverse
  refine ⟨_, make_freeSizes hplan K, by rw [hupdate], fun x hx => ?_⟩
  obtain ⟨z, hz, hzsize, hentry⟩ := BlockJacobi.exists_apply
    ⟨problem.freeSizes, some (problem.freeBlocks.map I)⟩ t (extent_of_planOf hplan)
    hadjacent htotal rfl (successive_freeBlocks hplan) hsizes
    (fun i hi => (mem_freeBlocks_iff hplan).mpr hi) (hx.trans hcols)
  rw [hupdate, hz]
  refine congrArg _ (t.ext_columnOf hzsize (by simpa using hcols) fun d => ?_)
  rw [hentry, getD_mulVec_columnOf t hcols hinverse, plan.bounds.sum_diagonal_row]

/-- **A computed covariance is an exact preconditioner.** Take exact factorisations, and a
computation by elimination that succeeds on a request for all pairs of free blocks, of which there
is one at least. Multiplying by the stored covariance undoes multiplying by `J'J`, and the other way
round, for every column of numbers and on any threads. If no residual block uses two free blocks,
the preconditioner of the tangent sizes of the free blocks is made, its update by `J` without
damping succeeds, and it does the same to every column of numbers. -/
theorem preconditions_exactly (exact : engine.FactorsExactly)
    (halgorithm : c.options.algorithm = .sparseQr) (hlibrary : c.options.library = .elimination)
    (s : problem.Sound) (hfree : problem.freeBlocks ≠ [])
    (hrequested : ∀ i ∈ problem.freeBlocks, ∀ j ∈ problem.freeBlocks, Requested request i j)
    (h : (compute engine c problem request).answer = .ok true) :
    ∃ J M, (∀ schedule threads, (problem.jacobian schedule (ColumnBounds.make problem true)
        c.options.applyLoss threads).answer = .ok J) ∧
      (compute engine c problem request).state.estimate.matrix? = some M ∧
      (∀ schedule threads (x : Array K), x.size = J.pattern.numCols →
        Preconditioner.applyMatrix schedule threads M (J.dense.gram.mulVec x) = .ok x ∧
        (Preconditioner.applyMatrix schedule threads M x).map J.dense.gram.mulVec = .ok x) ∧
      ((∀ r ∈ problem.residuals, ∀ i ∈ r.blocks, ∀ j ∈ r.blocks,
          i ∈ problem.freeBlocks → j ∈ problem.freeBlocks → i = j) →
        ∃ jacobi : BlockJacobi K,
          BlockJacobi.make (problem.freeSizes.map Atom.integer) = .ok jacobi ∧
          (jacobi.update J none).answer = .ok true ∧
          ∀ schedule threads (x : Array K), x.size = J.pattern.numCols →
            (jacobi.update J none).state.apply x =
              Preconditioner.applyMatrix schedule threads M x) := by
  obtain ⟨plan, -, hplan, -, -⟩ := exists_of_compute h
  obtain ⟨i, hi⟩ := List.exists_mem_of_ne_nil _ hfree
  have hwidth := (mem_freeBlocks_iff hplan).mp hi
  have hnonzeros := nonzeros_ne_zero_of_requested hplan (hrequested i hi i hi) hwidth hwidth
  obtain ⟨J, hJ, hunit, hstate⟩ :=
    exists_inverse_of_compute exact halgorithm hlibrary hplan hnonzeros h
  obtain ⟨r, hp, -, -⟩ := shapes_of_jacobian hplan hJ
  have hdet := (isUnit_iff_isUnit_det _).mp hunit
  have hcols : J.pattern.numCols = plan.bounds.numCols.toNat := by
    rw [← hp, (regular_of_planOf hplan).2.2]
  have happly := fun schedule threads {x : Array K} (hx : x.size = J.pattern.numCols) =>
    Preconditioner.applyMatrix_gather r hp (fun k l hk hl =>
      stores_of_requested hplan hrequested (hcols ▸ hk) (hcols ▸ hl)) J.normalMatrix⁻¹ schedule
      threads hx
  refine ⟨J, _, fun schedule threads => ?_, by rw [hstate]; rfl, fun schedule threads x hx => ?_,
    fun happart => ?_⟩
  · rw [← bounds_of_planOf hplan, problem.jacobian_eq_of_threads schedule engine.schedule _ _
      threads c.options.threads]
    exact hJ
  · constructor
    · rw [J.mulVec_gram_dense, happly schedule threads (by simp), vectorOf_ofFn, mulVec_mulVec,
        nonsing_inv_mul _ hdet, one_mulVec, ofFn_vectorOf hx]
    · rw [happly schedule threads hx]
      show Except.ok (J.dense.gram.mulVec _) = _
      rw [J.mulVec_gram_dense, vectorOf_ofFn, mulVec_mulVec, mul_nonsing_inv _ hdet, one_mulVec,
        ofFn_vectorOf hx]
  · obtain ⟨jacobi, hmake, hanswer, happlied⟩ := exists_jacobi hplan s hJ hunit happart
    refine ⟨jacobi, hmake, hanswer, fun schedule threads x hx => ?_⟩
    rw [happlied x hx, happly schedule threads hx]

end Preconditions

/-! ## Two free blocks that do not meet

Three blocks of one parameter each, the second of which is held. The first two are used by one
residual block and the third by another one, so that the covariance is diagonal. -/

/-- The residuals `2x + y` and `3z`, where `y` is held. -/
def separate : Problem ℚ where
  blocks := #[{ values := #[1] }, { values := #[1], held := true }, { values := #[1] }]
  residuals := #[
    ⟨[0, 1], [.integer 0, .integer 1],
      ⟨fun _ => .ok #[0], fun _ => .ok [⟨[1, 1], #[2]⟩, ⟨[1, 1], #[1]⟩], none⟩⟩,
    ⟨[2], [.integer 2], ⟨fun _ => .ok #[0], fun _ => .ok [⟨[1, 1], #[3]⟩], none⟩⟩]

/-- The first block and the third one. -/
def separateRequest : List Item := [.atom (.integer 0), .atom (.integer 2)]

/-- The columns of the three blocks. -/
def separateBounds : ColumnBounds := ⟨#[⟨0, 1⟩, ⟨1, 0⟩, ⟨1, 1⟩], 2, true⟩

/-- The derivative of the two residuals by the blocks that can move. -/
def separateJacobian : Compressed ℚ := ⟨Pattern.ofRows 2 [[0], [1]], #[2, 3]⟩

theorem bounds_separate : ColumnBounds.make separate true = separateBounds := by cbv

theorem prepared_separate : Prepared Engine.exact (plain .sparseQr).options separate separateRequest
    (Plan.ofPairs separateBounds [(0, 0), (0, 2), (2, 2)]) separateJacobian where
  planned := by
    have hpairs : Request.pairs separateRequest = .ok [(0, 0), (0, 2), (2, 2)] := by cbv
    have haccept : Plan.accept separate (itemsOf [(0, 0), (0, 2), (2, 2)]) =
        .ok [(0, 0), (0, 2), (2, 2)] := by cbv
    have hcheck : separateBounds.check = .ok () := by
      simp [ColumnBounds.check, separateBounds, Extent.check, Extent.bytes, Extent.maxBytes]
    exact planOf_eq hpairs haccept bounds_separate hcheck
  free := by
    refine ⟨0, 0, ⟨[(0, 0), (0, 2), (2, 2)], by cbv, Or.inl List.mem_cons_self⟩, ?_, ?_⟩ <;> decide
  jacobian := by cbv

theorem answer_separate :
    (compute Engine.exact (plain .sparseQr) separate separateRequest).answer = .ok true := by
  have hvalues : (estimateValues Engine.exact (plain .sparseQr).options separateJacobian
      (Plan.ofPairs separateBounds [(0, 0), (0, 2), (2, 2)]).pattern).answer =
        .ok (some #[1 / 4, 0, 0, 1 / 9]) := by cbv
  rw [prepared_separate.compute_eq.1, hvalues]
  rfl

theorem reachable_separate : separate.Reachable := by
  have hedits : separate = Edit.runAll .empty
      [.addBlock #[1] none, .addBlock #[1] none, .setHeld (.integer 1) true, .addBlock #[1] none,
        .addResidual [.integer 0, .integer 1]
          ⟨fun _ => .ok #[0], fun _ => .ok [⟨[1, 1], #[2]⟩, ⟨[1, 1], #[1]⟩], none⟩,
        .addResidual [.integer 2] ⟨fun _ => .ok #[0], fun _ => .ok [⟨[1, 1], #[3]⟩], none⟩] := rfl
  rw [hedits]
  exact .run _ (.run _ (.run _ (.run _ (.run _ (.run _ .empty)))))

/-- With the variances `1/4` and `1/9`, both preconditioners take the column `4`, `9` to ones. -/
theorem preconditions_exactly_separate :
    ∃ M, (compute Engine.exact (plain .sparseQr) separate separateRequest).state.estimate.matrix? =
        some M ∧
      Preconditioner.applyMatrix .inOrder 3 M #[4, 9] = .ok #[1, 1] ∧
      ∃ jacobi : BlockJacobi ℚ, BlockJacobi.make [.integer 1, .integer 1] = .ok jacobi ∧
        (jacobi.update separateJacobian none).answer = .ok true ∧
        (jacobi.update separateJacobian none).state.apply #[4, 9] = .ok #[1, 1] := by
  have hfree : separate.freeBlocks = [0, 2] := by cbv
  have hpairs : Request.pairs separateRequest = .ok [(0, 0), (0, 2), (2, 2)] := by cbv
  obtain ⟨J, M, hJ, hM, hexact, hjacobi⟩ := preconditions_exactly Engine.factorsExactly_exact
    (c := plain .sparseQr) rfl rfl reachable_separate.sound (by rw [hfree]; decide)
    (by
      rw [hfree]
      intro i hi j hj
      refine ⟨_, hpairs, ?_⟩
      fin_cases hi <;> fin_cases hj <;> decide)
    answer_separate
  have hevaluated : J = separateJacobian := by
    have h := hJ .inOrder 1
    rw [bounds_separate] at h
    exact Except.ok.inj (h.symm.trans prepared_separate.jacobian)
  subst hevaluated
  have happart : ∀ r ∈ separate.residuals, ∀ i ∈ r.blocks, ∀ j ∈ r.blocks,
      i ∈ separate.freeBlocks → j ∈ separate.freeBlocks → i = j := by
    rw [hfree]
    simp [separate]
  have hgram : separateJacobian.dense.gram.mulVec #[1, 1] = #[4, 9] := by cbv
  have hone := (hexact .inOrder 3 #[1, 1] rfl).1
  rw [hgram] at hone
  obtain ⟨jacobi, hmake, hanswer, happly⟩ := hjacobi happart
  have hsizes : separate.freeSizes = [1, 1] := by
    rw [Problem.freeSizes, hfree]
    rfl
  rw [hsizes] at hmake
  exact ⟨M, hM, hone, jacobi, hmake, hanswer, (happly .inOrder 3 #[4, 9] rfl).trans hone⟩

end Covariance

end LeastSquares
