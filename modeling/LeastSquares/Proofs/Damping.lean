/-
LeastSquares.Proofs.Damping — the diagonal blocks of a damped matrix are inverted.

Spans of sizes that are not negative cover all columns, and no column twice
(`Span.covering_adjacent`); a matrix for every span is then an operator on all columns
(`Span.blockwise`), and properties of the matrices are those of the operator: where they are
inverses it finds the one solution in every span (`Covering.eq_blockwise_inv_iff`), and it is
symmetric and positive definite where they are.

A diagonal block of `A'A + diag(D)^2` is the normal matrix of some columns of `A` with the damping
below them (`Compressed.block_dampedMatrix`). That there may be fewer rows than columns does not
matter then: without zeros the damping alone makes the columns independent
(`isUnit_block_of_damping`), and where the block is invertible its inverse is positive definite
(`inv_transpose_mul_self_pos`).

A block that the preconditioner inverts is counted from the start of its span, that of the matrix
by columns; `Span.Inside.equiv` takes the one to the other.
-/
import Mathlib.Data.Matrix.ColumnRowPartitioned
import Mathlib.LinearAlgebra.Matrix.ToLin
import LeastSquares.Proofs.Preconditioning

namespace LeastSquares

open Matrix

/-! ## Gram matrices -/

section Gram

variable {K m p : Type} [Field K] [Fintype m] [Fintype p]

/-- A transpose times its matrix gives the product of two vectors that the matrix makes. -/
theorem dotProduct_transpose_mul_self (G : Matrix m p K) (v w : p → K) :
    v ⬝ᵥ ((Gᵀ * G) *ᵥ w) = (G *ᵥ v) ⬝ᵥ (G *ᵥ w) := by
  rw [← mulVec_mulVec, dotProduct_mulVec, vecMul_transpose]

variable [DecidableEq p]

/-- The inverse of a symmetric matrix is symmetric as an operator. -/
theorem dotProduct_inv_mulVec {B : Matrix p p K} (h : B.IsSymm) (v w : p → K) :
    v ⬝ᵥ (B⁻¹ *ᵥ w) = (B⁻¹ *ᵥ v) ⬝ᵥ w := by
  rw [dotProduct_mulVec, ← mulVec_transpose, transpose_nonsing_inv, h.eq]

variable [LinearOrder K] [IsStrictOrderedRing K]

/-- The inverse of a product of a transpose with its matrix is positive definite. -/
theorem inv_transpose_mul_self_pos {G : Matrix m p K} (h : IsUnit (Gᵀ * G)) {v : p → K}
    (hv : v ≠ 0) : 0 < v ⬝ᵥ ((Gᵀ * G)⁻¹ *ᵥ v) := by
  obtain ⟨w, rfl⟩ : ∃ w, v = (Gᵀ * G) *ᵥ w :=
    ⟨(Gᵀ * G)⁻¹ *ᵥ v, by
      rw [mulVec_mulVec, mul_nonsing_inv _ ((isUnit_iff_isUnit_det _).mp h), one_mulVec]⟩
  have hG : G *ᵥ w ≠ 0 := by
    intro hzero
    apply hv
    rw [← mulVec_mulVec, hzero, mulVec_zero]
  have hback : (Gᵀ * G)⁻¹ *ᵥ ((Gᵀ * G) *ᵥ w) = w := by
    rw [mulVec_mulVec, nonsing_inv_mul _ ((isUnit_iff_isUnit_det _).mp h), one_mulVec]
  rw [hback, dotProduct_comm, dotProduct_transpose_mul_self]
  refine lt_of_le_of_ne (Finset.sum_nonneg fun k _ => mul_self_nonneg _) fun hzero => hG ?_
  exact dotProduct_self_eq_zero.mp hzero.symm

end Gram

/-! ## Spans that leave out no position -/

namespace Span

/-- The positions of a span among the first `n`. -/
abbrev Positions (s : Span) (n : Nat) : Type := {i : Fin n // ((i : Nat) : Int) ∈ s}

/-- Spans that follow each other and leave out none of the first `n` positions. -/
structure Covering (n : Nat) (spans : List Span) : Prop extends Successive n spans where
  exists_mem : ∀ i, i < n → ∃ s ∈ spans, ((i : Nat) : Int) ∈ s

/-- A position belongs to one span only. -/
theorem Successive.eq_of_mem {n : Nat} {spans : List Span} (h : Successive n spans) {s s' : Span}
    (hs : s ∈ spans) (hs' : s' ∈ spans) {j : Int} (hj : j ∈ s) (hj' : j ∈ s') : s = s' := by
  induction spans with
  | nil => cases hs
  | cons first rest ih =>
    rcases List.mem_cons.mp hs with heq | hrest <;> rcases List.mem_cons.mp hs' with heq' | hrest'
    · rw [heq, heq']
    · exact absurd hj' (h.not_mem hrest' (heq ▸ hj))
    · exact absurd hj (h.not_mem hrest (heq' ▸ hj'))
    · exact ih h.tail hrest hrest'

theorem exists_mem_adjacent {start : Int} {sizes : List Int} {i : Int} (h : start ≤ i)
    (hi : i < start + totalExtent sizes) : ∃ s ∈ adjacent start sizes, i ∈ s := by
  induction sizes generalizing start with
  | nil =>
    rw [totalExtent_nil] at hi
    omega
  | cons size rest ih =>
    rw [totalExtent_cons] at hi
    rcases lt_or_ge i (start + size) with hlt | hge
    · exact ⟨⟨start, start + size⟩, List.mem_cons_self, h, hlt⟩
    · obtain ⟨s, hs, hmem⟩ := ih hge (by omega)
      exact ⟨s, List.mem_cons_of_mem _ hs, hmem⟩

/-- Adjacent spans of sizes that are not negative leave out nothing. -/
theorem covering_adjacent {sizes : List Int} (h : ∀ k ∈ sizes, 0 ≤ k) {n : Nat}
    (hn : (n : Int) = totalExtent sizes) : Covering n (adjacent 0 sizes) := by
  have hsizes : (sizes.map Int.toNat).map (fun (k : Nat) => (k : Int)) = sizes := by
    rw [List.map_map]
    exact (List.map_congr_left fun k hk => Int.toNat_of_nonneg (h k hk)).trans (List.map_id _)
  have hsuccessive := successive_adjacent 0 (sizes.map Int.toNat)
  have htotal := totalExtent_map_natCast (sizes.map Int.toNat)
  rw [hsizes] at hsuccessive htotal
  have hn' : 0 + totalSize (sizes.map Int.toNat) = n := by omega
  rw [hn'] at hsuccessive
  exact ⟨hsuccessive, fun i hi => exists_mem_adjacent (by omega) (by omega)⟩

theorem Inside.start_add_lt {n : Nat} {s : Span} (h : s.Inside n) {u : Nat} (hu : u < s.size) :
    s.start.toNat + u < n := by
  obtain ⟨hstart, hle, hstop⟩ := h
  rw [size] at hu
  omega

/-- The positions of a span inside the first `n`, counted from its start. -/
def Inside.equiv {n : Nat} {s : Span} (h : s.Inside n) : Fin s.size ≃ s.Positions n where
  toFun u := ⟨⟨s.start.toNat + u, h.start_add_lt u.isLt⟩,
    h.mem_iff.mpr ⟨Nat.le_add_right _ _, Nat.add_lt_add_left u.isLt _⟩⟩
  invFun i := ⟨i.1 - s.start.toNat, by
    have := h.mem_iff.mp i.2
    omega⟩
  left_inv u := Fin.ext (Nat.add_sub_cancel_left _ _)
  right_inv i := Subtype.ext (Fin.ext (Nat.add_sub_cancel' (h.mem_iff.mp i.2).1))

/-! ## Operators on spans -/

/-- The diagonal block of a matrix in a span. -/
def block {R : Type} {n : Nat} (s : Span) (M : Matrix (Fin n) (Fin n) R) :
    Matrix (s.Positions n) (s.Positions n) R :=
  M.submatrix Subtype.val Subtype.val

@[simp] theorem block_apply {R : Type} {n : Nat} (s : Span) (M : Matrix (Fin n) (Fin n) R)
    (i j : s.Positions n) : s.block M i j = M i j := rfl

/-- The numbers of a vector in a span. -/
def part {R : Type} {n : Nat} (s : Span) (x : Fin n → R) : s.Positions n → R := fun i => x i

section Operators

variable {K : Type} [Field K] {n : Nat}

/-- An operator on every span, applied to the part of a vector in it. -/
noncomputable def blockwise (spans : List Span)
    (C : (s : Span) → Matrix (s.Positions n) (s.Positions n) K) :
    (Fin n → K) →ₗ[K] Fin n → K :=
  ∑ s ∈ spans.toFinset, (Function.ExtendByZero.linearMap K Subtype.val).comp
    ((C s).mulVecLin.comp (LinearMap.funLeft K K Subtype.val))

variable {spans : List Span} {C : (s : Span) → Matrix (s.Positions n) (s.Positions n) K}

theorem blockwise_eq_sum (spans : List Span)
    (C : (s : Span) → Matrix (s.Positions n) (s.Positions n) K) (x : Fin n → K) :
    blockwise spans C x =
      ∑ s ∈ spans.toFinset, Function.extend Subtype.val (C s *ᵥ s.part x) 0 := by
  rw [blockwise, LinearMap.sum_apply]
  rfl

/-- At a position of a span the operator of the span decides. -/
theorem Successive.part_blockwise (h : Successive n spans) {s : Span} (hs : s ∈ spans)
    (x : Fin n → K) : s.part (blockwise spans C x) = C s *ᵥ s.part x := by
  funext i
  rw [part, blockwise_eq_sum, Finset.sum_apply, Finset.sum_eq_single s]
  · exact Subtype.val_injective.extend_apply _ _ i
  · intro s' hs' hne
    refine Function.extend_apply' _ _ _ ?_
    rintro ⟨j, hj⟩
    have hmem : ((i.1 : Nat) : Int) ∈ s' := hj ▸ j.2
    exact hne (h.eq_of_mem (List.mem_toFinset.mp hs') hs hmem i.2)
  · intro hmem
    exact absurd (List.mem_toFinset.mpr hs) hmem

/-- Outside its span a part has nothing to give to a product. -/
theorem dotProduct_extend (s : Span) (x : Fin n → K) (v : s.Positions n → K) :
    x ⬝ᵥ Function.extend Subtype.val v 0 = s.part x ⬝ᵥ v := by
  refine (Fintype.sum_of_injective Subtype.val Subtype.val_injective _ _ (fun i hi => ?_)
    fun i => ?_).symm
  · rw [Function.extend_apply' _ _ _ hi, Pi.zero_apply, mul_zero]
  · rw [Subtype.val_injective.extend_apply, part]

theorem dotProduct_blockwise (x x' : Fin n → K) :
    x ⬝ᵥ blockwise spans C x' = ∑ s ∈ spans.toFinset, s.part x ⬝ᵥ (C s *ᵥ s.part x') := by
  rw [blockwise_eq_sum, dotProduct_sum]
  exact Finset.sum_congr rfl fun s _ => s.dotProduct_extend x _

/-- What inverts a matrix on every span finds the one vector that the matrices take there. -/
theorem Covering.eq_blockwise_inv_iff (h : Covering n spans)
    {B : (s : Span) → Matrix (s.Positions n) (s.Positions n) K}
    (hunit : ∀ s ∈ spans, IsUnit (B s)) (x z : Fin n → K) :
    z = blockwise spans (fun s => (B s)⁻¹) x ↔ ∀ s ∈ spans, B s *ᵥ s.part z = s.part x := by
  have hdet := fun s hs => (isUnit_iff_isUnit_det _).mp (hunit s hs)
  constructor
  · rintro rfl s hs
    rw [h.part_blockwise hs, mulVec_mulVec, mul_nonsing_inv _ (hdet s hs), one_mulVec]
  · intro hsolves
    funext i
    obtain ⟨s, hs, hmem⟩ := h.exists_mem i i.isLt
    have hpart : s.part z = s.part (blockwise spans (fun s => (B s)⁻¹) x) := by
      rw [h.part_blockwise hs, ← hsolves s hs, mulVec_mulVec, nonsing_inv_mul _ (hdet s hs),
        one_mulVec]
    exact congrFun hpart ⟨i, hmem⟩

theorem dotProduct_blockwise_inv {B : (s : Span) → Matrix (s.Positions n) (s.Positions n) K}
    (hsymm : ∀ s, (B s).IsSymm) (x x' : Fin n → K) :
    x ⬝ᵥ blockwise spans (fun s => (B s)⁻¹) x' = blockwise spans (fun s => (B s)⁻¹) x ⬝ᵥ x' := by
  rw [dotProduct_comm (blockwise _ _ x), dotProduct_blockwise, dotProduct_blockwise]
  refine Finset.sum_congr rfl fun s _ => ?_
  rw [dotProduct_inv_mulVec (hsymm s), dotProduct_comm]

/-- Operators that are positive definite on every span are so together. -/
theorem Covering.dotProduct_blockwise_pos [LinearOrder K] [IsStrictOrderedRing K]
    (h : Covering n spans)
    (hpos : ∀ s ∈ spans, ∀ v : s.Positions n → K, v ≠ 0 → 0 < v ⬝ᵥ (C s *ᵥ v))
    {x : Fin n → K} (hx : x ≠ 0) : 0 < x ⬝ᵥ blockwise spans C x := by
  rw [dotProduct_blockwise]
  obtain ⟨i, hi⟩ := Function.ne_iff.mp hx
  obtain ⟨s, hs, hmem⟩ := h.exists_mem i i.isLt
  refine Finset.sum_pos' (fun s' hs' => ?_)
    ⟨s, List.mem_toFinset.mpr hs, hpos s hs _ fun hzero => ?_⟩
  · by_cases hzero : s'.part x = 0
    · rw [hzero, zero_dotProduct]
    · exact (hpos s' (List.mem_toFinset.mp hs') _ hzero).le
  · exact hi (congrFun hzero ⟨i, hmem⟩)

/-- An operator that inverts the diagonal blocks of a matrix in some spans. -/
structure BlockInverse [LinearOrder K] (spans : List Span) (M : Matrix (Fin n) (Fin n) K)
    (L : (Fin n → K) →ₗ[K] Fin n → K) : Prop where
  eq_iff : ∀ x z, z = L x ↔ ∀ s ∈ spans, s.block M *ᵥ s.part z = s.part x
  symmetric : ∀ x x', x ⬝ᵥ L x' = L x ⬝ᵥ x'
  positive : ∀ x, x ≠ 0 → 0 < x ⬝ᵥ L x

end Operators

end Span

/-! ## Damped matrices -/

namespace Compressed

section Damped

variable {K : Type} [Field K]

/-- What a damping adds in a column, before it is squared. -/
def dampingAt (D : Option (Array K)) (i : Nat) : K :=
  match D with
  | none => 0
  | some d => d.getD i 0

/-- The matrix `A'A + diag(D) ^ 2`. -/
def dampedMatrix (A : Compressed K) (D : Option (Array K)) :
    Matrix (Fin A.pattern.numCols) (Fin A.pattern.numCols) K :=
  A.normalMatrix + Matrix.diagonal fun i : Fin A.pattern.numCols => dampingAt D i ^ 2

theorem dampedMatrix_apply (A : Compressed K) (D : Option (Array K))
    (i j : Fin A.pattern.numCols) :
    A.dampedMatrix D i j = A.normalMatrix i j + if i = j then dampingAt D i ^ 2 else 0 := by
  rw [dampedMatrix, Matrix.add_apply, diagonal_apply]

/-- The columns in a span, and the damping below them. -/
def stacked (A : Compressed K) (D : Option (Array K)) (s : Span) :
    Matrix (Fin A.pattern.numRows ⊕ s.Positions A.pattern.numCols)
      (s.Positions A.pattern.numCols) K :=
  fromRows (A.toMatrix.submatrix id Subtype.val)
    (Matrix.diagonal fun i : s.Positions A.pattern.numCols => dampingAt D i.1)

/-- A damped diagonal block is a normal matrix itself. -/
theorem block_dampedMatrix (A : Compressed K) (D : Option (Array K)) (s : Span) :
    s.block (A.dampedMatrix D) = (A.stacked D s)ᵀ * A.stacked D s := by
  rw [stacked, transpose_fromRows, fromCols_mul_fromRows, diagonal_transpose, diagonal_mul_diagonal]
  ext i j
  rw [Span.block_apply, dampedMatrix_apply, Matrix.add_apply, diagonal_apply, normalMatrix,
    mul_apply, mul_apply]
  simp only [transpose_apply, submatrix_apply, id_eq, Subtype.ext_iff, sq]

theorem isSymm_block_dampedMatrix (A : Compressed K) (D : Option (Array K)) (s : Span) :
    (s.block (A.dampedMatrix D)).IsSymm := by
  rw [block_dampedMatrix, IsSymm, transpose_mul, transpose_transpose]

variable [LinearOrder K] [IsStrictOrderedRing K]

/-- A damping without zeros makes every block invertible. -/
theorem isUnit_block_of_damping (A : Compressed K) {D : Option (Array K)} (s : Span)
    (h : ∀ i, i < A.pattern.numCols → dampingAt D i ≠ 0) :
    IsUnit (s.block (A.dampedMatrix D)) := by
  rw [block_dampedMatrix, isUnit_transpose_mul_self_iff]
  intro v w hvw
  funext i
  have hentry := congrFun hvw (Sum.inr i)
  simp only [stacked, fromRows_mulVec, Sum.elim_inr, mulVec_diagonal] at hentry
  exact mul_left_cancel₀ (h i.1 i.1.isLt) hentry

/-- The inverses of the diagonal blocks, each in its span, are one operator on all columns. -/
theorem blockInverse_dampedMatrix (A : Compressed K) {D : Option (Array K)} {spans : List Span}
    (covering : Span.Covering A.pattern.numCols spans)
    (hunit : ∀ s ∈ spans, IsUnit (s.block (A.dampedMatrix D))) :
    Span.BlockInverse spans (A.dampedMatrix D)
      (Span.blockwise spans fun s => (s.block (A.dampedMatrix D))⁻¹) where
  eq_iff := covering.eq_blockwise_inv_iff hunit
  symmetric := Span.dotProduct_blockwise_inv fun s => A.isSymm_block_dampedMatrix D s
  positive := fun x hx => by
    refine covering.dotProduct_blockwise_pos (fun s hs v hv => ?_) hx
    have hs := hunit s hs
    rw [block_dampedMatrix] at hs ⊢
    exact inv_transpose_mul_self_pos hs hv

end Damped

end Compressed

namespace BlockJacobi

section Damped

variable {K : Type} [Field K] {A : Compressed K} {D : Option (Array K)} {s : Span}

/-- Damping the diagonal block of a span gives that of the damped matrix. -/
theorem exists_damp (inside : s.Inside A.pattern.numCols)
    (hD : ∀ d, D = some d → d.size = A.pattern.numCols) :
    ∃ B, damp D s (gramBlock A s) = .ok B ∧ B.rows = s.size ∧ B.cols = s.size ∧
      B.toSquare s.size = (s.block (A.dampedMatrix D)).submatrix inside.equiv inside.equiv := by
  obtain ⟨hrows, hcols, hentry⟩ := gramBlock_spec inside
  have hgram : ∀ u v : Fin s.size,
      (gramBlock A s).get u v = A.normalMatrix (inside.equiv u).1 (inside.equiv v).1 := by
    intro u v
    rw [hentry u v u.isLt v.isLt, Compressed.normalMatrix, mul_apply, Finset.sum_range]
    rfl
  cases D with
  | none =>
    refine ⟨gramBlock A s, rfl, hrows, hcols, ?_⟩
    ext u v
    simp [hgram, Compressed.dampedMatrix_apply, Compressed.dampingAt]
  | some d =>
    have hd : s.Inside d.size := by rwa [hD d rfl]
    have hsize : (slice d s).size = s.size := size_slice hd
    have hfits : Stretch.fits (gramBlock A s).rows (slice d s).size = true := by
      simp [Stretch.fits, hsize, hrows]
    refine ⟨_, if_pos hfits, hrows, hcols, ?_⟩
    ext u v
    have hdamping : (slice d s).getD u 0 = Compressed.dampingAt (some d) (inside.equiv u).1 :=
      getD_slice hd u.isLt
    have hsame : (inside.equiv u).1 = (inside.equiv v).1 ↔ (u : Nat) = v := by
      rw [← Subtype.ext_iff, inside.equiv.injective.eq_iff, Fin.ext_iff]
    rw [Dense.toSquare_apply, Dense.get_ofFn_of_lt _ (by rw [hrows]; exact u.isLt)
      (by rw [hcols]; exact v.isLt), submatrix_apply, Span.block_apply,
      Compressed.dampedMatrix_apply, ← hgram]
    simp only [hsize, Stretch.index_of_lt u.isLt, Stretch.index_of_lt v.isLt, hdamping, hsame, sq]

variable [LinearOrder K] [IsStrictOrderedRing K]

/-- An invertible damped block is inverted. -/
theorem exists_inverted (inside : s.Inside A.pattern.numCols)
    (hD : ∀ d, D = some d → d.size = A.pattern.numCols)
    (h : IsUnit (s.block (A.dampedMatrix D))) : ∃ I, Inverted A D s I := by
  obtain ⟨B, hB, hrows, hcols, hsquare⟩ := exists_damp inside hD
  have hunit : IsUnit (B.toSquare s.size) := by
    rw [hsquare]
    exact (isUnit_submatrix_equiv _ _).mpr h
  obtain ⟨I, hI, -⟩ := exists_finiteInverse? hrows hcols hunit
  exact ⟨I, B, hB, hI⟩

/-- What a damped block is inverted to is its inverse. -/
theorem Inverted.spec {I : Dense K} (h : Inverted A D s I) (inside : s.Inside A.pattern.numCols)
    (hD : ∀ d, D = some d → d.size = A.pattern.numCols) :
    IsUnit (s.block (A.dampedMatrix D)) ∧ I.rows = s.size ∧ I.cols = s.size ∧
      I.toSquare s.size = (s.block (A.dampedMatrix D))⁻¹.submatrix inside.equiv inside.equiv := by
  obtain ⟨B, hB, hI⟩ := h
  obtain ⟨B', hB', hrows, hcols, hsquare⟩ := exists_damp inside hD
  obtain rfl : B' = B := Except.ok.inj (hB'.symm.trans hB)
  obtain ⟨hIrows, hIcols, hunit, heq⟩ :=
    Elimination.toSquare_of_inverse? hrows hcols (inverse?_of_finiteInverse? hI)
  rw [hsquare] at hunit heq
  exact ⟨(isUnit_submatrix_equiv _ _).mp hunit, hIrows, hIcols, by rw [heq, inv_submatrix_equiv]⟩

/-- An inverted block takes the part of a column of numbers in its span to what the inverse makes
of it. -/
theorem Inverted.blockProduct_eq {I : Dense K} (h : Inverted A D s I)
    (inside : s.Inside A.pattern.numCols) (hD : ∀ d, D = some d → d.size = A.pattern.numCols)
    (x : Array K) (i : s.Positions A.pattern.numCols) :
    blockProduct x s I i.1 =
      ((s.block (A.dampedMatrix D))⁻¹ *ᵥ s.part fun j : Fin A.pattern.numCols => x.getD j 0) i := by
  obtain ⟨-, -, -, heq⟩ := h.spec inside hD
  obtain ⟨u, rfl⟩ := inside.equiv.surjective i
  have hplace : ((inside.equiv u).1 : Nat) - s.start.toNat = u := Nat.add_sub_cancel_left _ _
  rw [blockProduct, hplace, sumTo_eq_sum, Finset.sum_range, mulVec, dotProduct,
    ← inside.equiv.sum_comp]
  refine Finset.sum_congr rfl fun v _ => ?_
  have hentry := congrFun (congrFun heq u) v
  rw [Dense.toSquare_apply, submatrix_apply] at hentry
  rw [hentry]
  rfl

end Damped

/-! ## Updates -/

section Update

variable {K : Type} [Field K] [LinearOrder K] {b : BlockJacobi K} {A : Compressed K}
  {D : Option (Array K)}

/-- A damping of as many numbers as there are columns fits every block, so that inverting them
comes to an answer. -/
theorem exists_invertFrom (hD : ∀ d, D = some d → d.size = A.pattern.numCols) {spans : List Span}
    (inside : ∀ s ∈ spans, s.Inside A.pattern.numCols) (index : Nat) :
    ∃ r, invertFrom A D index spans = .ok r := by
  induction spans generalizing index with
  | nil => exact ⟨_, rfl⟩
  | cons s rest ih =>
    obtain ⟨B, hB, -⟩ := exists_damp (inside s List.mem_cons_self) hD
    obtain ⟨r, hr⟩ := ih (fun s hs => inside s (List.mem_cons_of_mem _ hs)) (index + 1)
    rw [invertFrom, hB]
    simp only [hr]
    cases finiteInverse? B with
    | none => exact ⟨_, rfl⟩
    | some I =>
      cases r with
      | error k => exact ⟨_, rfl⟩
      | ok inverses => exact ⟨_, rfl⟩

/-- Every span has its inverse beside it. -/
theorem exists_mem_zip {spans : List Span} {inverses : List (Dense K)}
    (h : List.Forall₂ (Inverted A D) spans inverses) {s : Span} (hs : s ∈ spans) :
    ∃ I, (s, I) ∈ spans.zip inverses ∧ Inverted A D s I := by
  obtain ⟨hlength, hinverted⟩ := List.forall₂_iff_zip.mp h
  rw [← List.map_fst_zip hlength.le] at hs
  obtain ⟨⟨s, I⟩, hmem, rfl⟩ := List.mem_map.mp hs
  exact ⟨I, hmem, hinverted hmem⟩

variable [IsStrictOrderedRing K]

/-- Whether all blocks of the damped matrix are invertible is the answer of an update, and if they
are, their inverses are kept. -/
theorem exists_answer (hcheck : A.check = .ok ()) (hwidth : (A.pattern.numCols : Int) = b.numRows)
    (hD : ∀ d, D = some d → d.size = A.pattern.numCols)
    (inside : ∀ s ∈ b.spans, s.Inside A.pattern.numCols) :
    ∃ found, (b.update A D).answer = .ok found ∧
      (found = true ↔ ∀ s ∈ b.spans, IsUnit (s.block (A.dampedMatrix D))) ∧
      (found = true → ∃ inverses, List.Forall₂ (Inverted A D) b.spans inverses ∧
        (b.update A D).state = { b with inverses := some inverses }) := by
  by_cases hunit : ∀ s ∈ b.spans, IsUnit (s.block (A.dampedMatrix D))
  · obtain ⟨inverses, hall⟩ := exists_forall₂_inverted_iff.mpr fun s hs =>
      exists_inverted (inside s hs) hD (hunit s hs)
    have hupdate := update_eq hcheck hwidth hall
    rw [hupdate]
    exact ⟨true, rfl, ⟨fun _ => hunit, fun _ => rfl⟩, fun _ => ⟨_, hall, rfl⟩⟩
  · obtain ⟨r, hr⟩ := exists_invertFrom hD inside 0
    cases r with
    | ok inverses =>
      refine absurd (fun s hs => ?_) hunit
      obtain ⟨I, hI⟩ :=
        exists_forall₂_inverted_iff.mp ⟨inverses, (invertFrom_eq_ok_iff 0).mp hr⟩ s hs
      exact (hI.spec (inside s hs) hD).1
    | error k =>
      have hanswer : (b.update A D).answer = .ok false := by
        rw [update, hcheck]
        simp only [if_pos hwidth, hr]
      exact ⟨false, hanswer, by simp [hunit], by simp⟩

/-- Inverses of all blocks add, to a column of numbers, what the inverses of the blocks of the
damped matrix make of another one. -/
theorem multiplyAdd_eq {inverses : List (Dense K)} (hinverses : b.inverses = some inverses)
    (h : List.Forall₂ (Inverted A D) b.spans inverses)
    (hD : ∀ d, D = some d → d.size = A.pattern.numCols)
    (covering : Span.Covering A.pattern.numCols b.spans) {x y : Array K}
    (hx : x.size = A.pattern.numCols) (hy : y.size = A.pattern.numCols) :
    b.multiplyAdd x y = .ok (Array.ofFn (vectorOf A.pattern.numCols y +
      Span.blockwise b.spans (fun s => (s.block (A.dampedMatrix D))⁻¹)
        (vectorOf A.pattern.numCols x))) := by
  obtain ⟨hlength, hinverted⟩ := List.forall₂_iff_zip.mp h
  have hsuccessive : Span.Successive A.pattern.numCols ((b.spans.zip inverses).map Prod.fst) := by
    rw [List.map_fst_zip hlength.le]
    exact covering.toSuccessive
  have hshapes : ∀ e ∈ b.spans.zip inverses, e.2.rows = e.1.size ∧ e.2.cols = e.1.size := by
    intro e he
    have inside := covering.inside e.1 (List.of_mem_zip he).1
    obtain ⟨-, hrows, hcols, -⟩ := (hinverted he).spec inside hD
    exact ⟨hrows, hcols⟩
  obtain ⟨z, hz, hsize, hentries⟩ := exists_applyBlocks hx hsuccessive hshapes hy
  rw [multiplyAdd, hinverses]
  refine hz.trans (congrArg _ ?_)
  rw [← ofFn_vectorOf hsize]
  refine congrArg _ (funext fun i => ?_)
  obtain ⟨s, hs, hi⟩ := covering.exists_mem i i.isLt
  obtain ⟨I, he, hI⟩ := exists_mem_zip h hs
  have hproduct := hI.blockProduct_eq (covering.inside s hs) hD x ⟨i, hi⟩
  have hentry := (hentries i i.isLt).1 (s, I) he hi
  have hpart := covering.part_blockwise (C := fun s => (s.block (A.dampedMatrix D))⁻¹) hs
    (vectorOf A.pattern.numCols x)
  rw [vectorOf, hentry, Pi.add_apply, hproduct]
  exact congrArg (y.getD i 0 + ·) (congrFun hpart ⟨i, hi⟩).symm

/-- **The preconditioner of diagonal blocks inverts them.** Blocks of sizes that are not negative,
among them empty ones, and a damping of the right length: an update answers whether every diagonal
block of `A'A + diag(D) ^ 2` is invertible, which a damping without zeros makes all of them. After
it what is added to a column of numbers is the one vector that the blocks take to the other column,
and it depends on that column as by a symmetric and positive definite operator. -/
theorem update_inverts_blocks (b : BlockJacobi K) (hsizes : ∀ k ∈ b.blockSizes, 0 ≤ k)
    (A : Compressed K) (hcheck : A.check = .ok ()) (hwidth : (A.pattern.numCols : Int) = b.numRows)
    (D : Option (Array K)) (hD : ∀ d, D = some d → d.size = A.pattern.numCols) :
    ∃ found, (b.update A D).answer = .ok found ∧
      (found = true ↔ ∀ s ∈ b.spans, IsUnit (s.block (A.dampedMatrix D))) ∧
      ((∃ d, D = some d ∧ ∀ u ∈ d, u ≠ 0) → found = true) ∧
      (found = true → ∃ L : (Fin A.pattern.numCols → K) →ₗ[K] Fin A.pattern.numCols → K,
        Span.BlockInverse b.spans (A.dampedMatrix D) L ∧
        ∀ x y, x.size = A.pattern.numCols → y.size = A.pattern.numCols →
          (b.update A D).state.multiplyAdd x y =
            .ok (Array.ofFn
              (vectorOf A.pattern.numCols y + L (vectorOf A.pattern.numCols x)))) := by
  have covering : Span.Covering A.pattern.numCols b.spans := Span.covering_adjacent hsizes hwidth
  obtain ⟨found, hanswer, hfound, hstate⟩ := exists_answer hcheck hwidth hD covering.inside
  refine ⟨found, hanswer, hfound, ?_, fun hyes => ?_⟩
  · rintro ⟨d, rfl, hd⟩
    refine hfound.mpr fun s _ => A.isUnit_block_of_damping s fun i hi => ?_
    have hi : i < d.size := by rwa [hD d rfl]
    simpa [Compressed.dampingAt, Array.getD_eq_getD_getElem?, hi] using
      hd d[i] (Array.getElem_mem hi)
  · obtain ⟨inverses, hall, hkept⟩ := hstate hyes
    refine ⟨_, A.blockInverse_dampedMatrix covering (hfound.mp hyes), fun x y hx hy => ?_⟩
    rw [hkept]
    exact multiplyAdd_eq (b := { b with inverses := some inverses }) rfl hall hD covering hx hy

/-- One row of three numbers. -/
def oneRow : Compressed ℚ := ⟨Pattern.ofRows 3 [[0, 1, 2]], #[1, 2, 3]⟩

/-- An empty block between two others, and fewer rows than columns. -/
theorem update_inverts_blocks_oneRow :
    ∃ b : BlockJacobi ℚ, make [.integer 2, .integer 0, .integer 1] = .ok b ∧
      (b.update oneRow (some #[1, 1, 2])).answer = .ok true ∧
      (b.update oneRow (some #[1, 1, 2])).state.multiplyAdd #[4, 7, 13] #[1, 0, 0] =
        .ok #[2, 1, 1] := by
  have hmake : (make [.integer 2, .integer 0, .integer 1] : Except Fault (BlockJacobi ℚ)) =
    .ok ⟨[2, 0, 1], none⟩ := rfl
  obtain ⟨found, hanswer, -, hdamped, happly⟩ := update_inverts_blocks (K := ℚ) ⟨[2, 0, 1], none⟩
    (by decide) oneRow rfl rfl (some #[1, 1, 2]) (by rintro d ⟨⟩; rfl)
  have hfound := hdamped ⟨_, rfl, by decide⟩
  obtain ⟨L, hL, hadd⟩ := happly hfound
  have hone : (fun _ => 1) = L (vectorOf oneRow.pattern.numCols #[4, 7, 13]) := by
    refine (hL.eq_iff _ _).mpr fun s hs => ?_
    revert s
    decide +kernel
  refine ⟨_, hmake, hfound ▸ hanswer, (hadd _ _ rfl rfl).trans ?_⟩
  rw [← hone]
  exact congrArg _ (by decide +kernel)

end Update

end BlockJacobi

end LeastSquares
