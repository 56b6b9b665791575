/-
LeastSquares.Proofs.Positivity — no joint covariance has a negative variance.

A function of row and column that is a sum of products `w k * (g k p * g k q)` with weights that are
not negative (`SquareSum`) is a quadratic form without negative values: the form is the same sum of
squares (`SquareSum.nonneg`). What an exact computation finds is such a sum, by either algorithm
(`exists_squares_of_compute`): the inverse of `J'J` is the sum over the rows of `J (J'J)⁻¹`, and the
weighted sum of singular directions is one as it stands, because no weight is negative, however many
directions are dropped.

Reading blocks, laying them between their frames and putting them together keeps this form, because
each of these works on rows and on columns in the same way. Every place of a joint matrix stands for
a combination of the columns of its block (`combined`), and its entries are the sums for these
combinations (`stretched_answerAt`). Blocks without columns have empty combinations, and zeros.
-/
import LeastSquares.Proofs.Rational
import LeastSquares.Proofs.Spectrum
import LeastSquares.Proofs.Symmetry

namespace LeastSquares

open Matrix

/-! ## Sums of squares -/

section Squares

variable {K : Type} [Field K]

/-- A form of sums of products is a sum of products of forms. -/
theorem form_eq_sum {m a b : Nat} {w : Nat → K} {F G H : Nat → Nat → K}
    (hF : ∀ s t, s < a → t < b → F s t = ∑ k ∈ Finset.range m, w k * (G k s * H k t))
    (x y : Nat → K) :
    ∑ s ∈ Finset.range a, ∑ t ∈ Finset.range b, x s * F s t * y t =
      ∑ k ∈ Finset.range m, w k *
        ((∑ s ∈ Finset.range a, x s * G k s) * ∑ t ∈ Finset.range b, y t * H k t) := by
  calc ∑ s ∈ Finset.range a, ∑ t ∈ Finset.range b, x s * F s t * y t
      = ∑ s ∈ Finset.range a, ∑ t ∈ Finset.range b, ∑ k ∈ Finset.range m,
          w k * (x s * G k s * (y t * H k t)) := by
        refine Finset.sum_congr rfl fun s hs => Finset.sum_congr rfl fun t ht => ?_
        rw [hF s t (Finset.mem_range.mp hs) (Finset.mem_range.mp ht), Finset.mul_sum,
          Finset.sum_mul]
        exact Finset.sum_congr rfl fun k _ => by ring
    _ = ∑ s ∈ Finset.range a, ∑ k ∈ Finset.range m, ∑ t ∈ Finset.range b,
          w k * (x s * G k s * (y t * H k t)) :=
        Finset.sum_congr rfl fun s _ => Finset.sum_comm
    _ = ∑ k ∈ Finset.range m, ∑ s ∈ Finset.range a, ∑ t ∈ Finset.range b,
          w k * (x s * G k s * (y t * H k t)) := Finset.sum_comm
    _ = _ := by
        refine Finset.sum_congr rfl fun k _ => ?_
        rw [Finset.sum_mul_sum, Finset.mul_sum]
        exact Finset.sum_congr rfl fun s _ => by rw [Finset.mul_sum]

variable [LinearOrder K]

/-- Below a bound, a function of row and column is a sum of squares with weights that are not
negative. -/
def SquareSum (n : Nat) (f : Nat → Nat → K) : Prop :=
  ∃ (m : Nat) (w : Nat → K) (g : Nat → Nat → K), (∀ k, 0 ≤ w k) ∧
    ∀ p q, p < n → q < n → f p q = ∑ k ∈ Finset.range m, w k * (g k p * g k q)

/-- A sum of directions with weights that are not negative is a sum of squares. -/
theorem squareSum_weighted (s : Singular K) (q n : Nat) {weight : Nat → K}
    (h : ∀ k, 0 ≤ weight k) : SquareSum n (entryAt (s.weighted q n weight)) := by
  refine ⟨q, weight, s.right.get, h, fun i j hi hj => ?_⟩
  rw [entryAt_of_lt _ hi hj, Singular.weighted_apply]
  exact Finset.sum_congr rfl fun k _ => by ring

variable [IsStrictOrderedRing K]

/-- The quadratic form of a sum of squares has no negative value. -/
theorem SquareSum.nonneg {n : Nat} {f : Nat → Nat → K} (h : SquareSum n f) (v : Nat → K) :
    0 ≤ ∑ p ∈ Finset.range n, ∑ q ∈ Finset.range n, v p * f p q * v q := by
  obtain ⟨m, w, g, hw, hf⟩ := h
  rw [form_eq_sum hf]
  exact Finset.sum_nonneg fun k _ => mul_nonneg (hw k) (mul_self_nonneg _)

/-- The inverse of the normal matrix is the sum over the rows of `J (J'J)⁻¹`. -/
theorem squareSum_inverse (J : Compressed K) (h : IsUnit J.normalMatrix) :
    SquareSum J.pattern.numCols (entryAt J.normalMatrix⁻¹) := by
  have hinverse : J.normalMatrix⁻¹ =
      (J.toMatrix * J.normalMatrix⁻¹)ᵀ * (J.toMatrix * J.normalMatrix⁻¹) := by
    have hdet := (isUnit_iff_isUnit_det _).mp h
    have hsymm : (J.normalMatrix⁻¹)ᵀ = J.normalMatrix⁻¹ := by
      rw [transpose_nonsing_inv, J.isSymm_normalMatrix.eq]
    calc J.normalMatrix⁻¹ = J.normalMatrix⁻¹ * (J.normalMatrix * J.normalMatrix⁻¹) := by
          rw [mul_nonsing_inv _ hdet, Matrix.mul_one]
      _ = _ := by rw [transpose_mul, hsymm, Compressed.normalMatrix]; simp only [Matrix.mul_assoc]
  refine ⟨J.pattern.numRows, fun _ => 1, entryAt (J.toMatrix * J.normalMatrix⁻¹),
    fun _ => zero_le_one, fun p q hp hq => ?_⟩
  rw [entryAt_of_lt _ hp hq, hinverse, mul_apply, ← hinverse, Finset.sum_range]
  refine Finset.sum_congr rfl fun k _ => ?_
  rw [transpose_apply, one_mul, entryAt_of_lt _ k.isLt hp, entryAt_of_lt _ k.isLt hq]

/-- No weight is negative. -/
theorem Truncation.weights_nonneg [Elementary K] {options : Options K} {values weights : List K}
    (h : Truncation.weights options values = some weights) (k : Nat) : 0 ≤ weights.getD k 0 := by
  obtain ⟨kept, hkept, rfl, -⟩ := exists_keeping h
  by_cases hk : k < kept
  · rw [getD_keeping_of_lt hk (hkept.trans (leading_le options values))]
    exact one_div_nonneg.mpr (mul_self_nonneg _)
  · rw [getD_keeping_of_le values (Nat.le_of_not_lt hk)]

end Squares

/-! ## What is computed -/

section Algorithms

variable {K : Type} [Field K] [LinearOrder K]

/-- The services of an engine that a computation with given options uses are exact. -/
def Engine.ExactFor (engine : Engine K) (options : Options K) : Prop :=
  match options.algorithm with
  | .denseSvd => engine.DecomposesExactly
  | .sparseQr => engine.ExactWith options.library

variable [IsStrictOrderedRing K] [Elementary K] {engine : Engine K} {c : Covariance K}
  {problem : Problem K} {request : List Item}

namespace Covariance

/-- A computation with exact services leaves the values of a sum of squares. -/
theorem exists_squares_of_compute (exact : engine.ExactFor c.options)
    (h : (compute engine c problem request).answer = .ok true) :
    ∃ plan f, planOf problem request = .ok plan ∧
      (compute engine c problem request).state =
        c.holding plan (Truncation.gather f plan.pattern) ∧
      SquareSum plan.bounds.numCols.toNat f := by
  obtain ⟨plan, values, hplan, hfilled, hstate⟩ := exists_of_compute h
  obtain ⟨r, t, hrows⟩ := regular_of_planOf hplan
  suffices hsquares : ∃ f, values = Truncation.gather f plan.pattern ∧
      SquareSum plan.bounds.numCols.toNat f by
    obtain ⟨f, rfl, hf⟩ := hsquares
    exact ⟨plan, f, hplan, hstate, hf⟩
  by_cases hempty : plan.pattern.nonzeros = 0
  · -- nothing is stored, so any function will do
    rw [fillPlan, if_pos hempty] at hfilled
    cases hfilled
    refine ⟨fun _ _ => 0, (Truncation.gather_of_nonzeros_eq_zero _ r.toWellFormed hempty).symm, 0,
      fun _ => 0, fun _ _ => 0, fun _ => le_refl 0, fun _ _ _ _ => rfl⟩
  · obtain ⟨J, hJ⟩ := exists_jacobian_of_fillPlan hempty hfilled
    rw [answer_fillPlan hempty hJ] at hfilled
    obtain ⟨hcols, w, a⟩ := Problem.pattern_jacobian t hJ
    have hp : plan.pattern.numRows = J.pattern.numCols := by rw [hrows, hcols]
    rw [← hrows, hp]
    unfold Engine.ExactFor at exact
    cases halgorithm : c.options.algorithm with
    | denseSvd =>
      rw [halgorithm] at exact
      obtain ⟨-, -, s, weights, -, -, hweights, rfl⟩ := svd_cases exact r hp halgorithm hfilled
      exact ⟨_, rfl, squareSum_weighted s _ _ (Truncation.weights_nonneg hweights)⟩
    | sparseQr =>
      rw [halgorithm] at exact
      rcases factor_cases exact w a r hp halgorithm with hnone | ⟨hunit, hsome⟩
      · rw [hnone] at hfilled
        cases hfilled
      · rw [hsome] at hfilled
        cases hfilled
        exact ⟨_, rfl, squareSum_inverse J hunit⟩

end Covariance

end Algorithms

/-! ## What is answered -/

namespace Covariance

section Answers

variable {K : Type} [Field K]

/-- What a function of columns amounts to at a place of the block at a position. -/
def combined (plan : Plan) (q : Problem K) (coordinates : Coordinates) (g : Nat → K)
    (i u : Nat) : K :=
  ∑ s ∈ Finset.range (plan.bounds.widthAt i),
    (frameAt plan q coordinates i).get (Stretch.index (frameAt plan q coordinates i).rows u) s *
      g ((plan.bounds.rangeAt i).first + s)

theorem combined_of_width_eq_zero {plan : Plan} {i : Nat} (h : plan.bounds.widthAt i = 0)
    (q : Problem K) (coordinates : Coordinates) (g : Nat → K) (u : Nat) :
    combined plan q coordinates g i u = 0 := by
  rw [combined, h, Finset.sum_range_zero]

/-- A place of a declared size is read from a row or column that is there. -/
theorem index_lt {size : Int} {operand u : Nat} (h : goesInto size operand = true)
    (hu : u < size.toNat) : Stretch.index operand u < operand := by
  unfold goesInto Stretch.fits at h
  simp only [Bool.or_eq_true, beq_iff_eq] at h
  unfold Stretch.index
  split <;> omega

variable {plan : Plan} {f : Nat → Nat → K} {q : Problem K} {coordinates : Coordinates}

/-- The entries of a block between two frames. -/
theorem get_sandwich_blockOf (t : plan.bounds.Tiled) {m : Nat} {w : Nat → K} {g : Nat → Nat → K}
    (hf : ∀ p p', p < plan.bounds.numCols.toNat → p' < plan.bounds.numCols.toNat →
      f p p' = ∑ k ∈ Finset.range m, w k * (g k p * g k p'))
    {i j : Nat} {P Q : Dense K} (hP : P.cols = plan.bounds.widthAt i) {u v : Nat}
    (hu : u < P.rows) (hv : v < Q.rows) :
    (Dense.sandwich P (blockOf f plan.bounds i j) Q).get u v = ∑ k ∈ Finset.range m, w k *
      ((∑ s ∈ Finset.range (plan.bounds.widthAt i),
          P.get u s * g k ((plan.bounds.rangeAt i).first + s)) *
        ∑ s ∈ Finset.range (plan.bounds.widthAt j),
          Q.get v s * g k ((plan.bounds.rangeAt j).first + s)) := by
  rw [Dense.get_sandwich P _ Q hu hv, hP]
  refine form_eq_sum (G := fun k s => g k ((plan.bounds.rangeAt i).first + s))
    (H := fun k s => g k ((plan.bounds.rangeAt j).first + s)) (fun s s' hs hs' => ?_) _ _
  have hs' : s' < plan.bounds.widthAt j := hs'
  rw [blockOf, Dense.get_ofFn_of_lt _ hs hs']
  exact hf _ _ (t.lt_numCols (ColumnBounds.first_add_mem_columns hs))
    (t.lt_numCols (ColumnBounds.first_add_mem_columns hs'))

variable [LinearOrder K] [IsStrictOrderedRing K]

/-- The last step of a move leaves the entries that it averages with themselves. -/
theorem get_finish_of_symm {same : Bool} {A : Dense K} {u v : Nat} (hu : u < A.rows)
    (hv : v < A.cols) (h : same = true → A.get v u = A.get u v) :
    (coordinates.finish same A).get u v = A.get u v := by
  cases coordinates with
  | tangent => rfl
  | ambient =>
    cases same with
    | false => rfl
    | true => rw [Coordinates.finish, Dense.get_symmetrized A hu hv, h rfl, half_mul_add_self]

/-- The entries of an answer, at the places that it goes into, are sums of products for the places
of its rows and columns. -/
theorem stretched_answerAt (t : plan.bounds.Tiled) {m : Nat} {w : Nat → K} {g : Nat → Nat → K}
    (hf : ∀ p p', p < plan.bounds.numCols.toNat → p' < plan.bounds.numCols.toNat →
      f p p' = ∑ k ∈ Finset.range m, w k * (g k p * g k p'))
    {i j : Nat} {B : Dense K} (h : answerAt f plan q coordinates i j = .ok (some B))
    {size size' : Int} (hrows : goesInto size B.rows = true) (hcols : goesInto size' B.cols = true)
    {u v : Nat} (hu : u < size.toNat) (hv : v < size'.toNat) :
    stretched B u v = ∑ k ∈ Finset.range m,
      w k * (combined plan q coordinates (g k) i u * combined plan q coordinates (g k) j v) := by
  have hu := index_lt hrows hu
  have hv := index_lt hcols hv
  rcases answerAt_eq_some h with ⟨hwidths, n, n', rfl⟩ | ⟨hP, hQ, rfl⟩
  · rw [stretched, Dense.get_zeros]
    refine (Finset.sum_eq_zero fun k _ => ?_).symm
    rcases hwidths with hwidth | hwidth
    · rw [combined_of_width_eq_zero hwidth, zero_mul, mul_zero]
    · rw [combined_of_width_eq_zero hwidth, mul_zero, mul_zero]
  · rw [rows_finish, Dense.rows_sandwich] at hu
    rw [cols_finish, Dense.cols_sandwich] at hv
    rw [stretched, rows_finish, cols_finish, Dense.rows_sandwich, Dense.cols_sandwich]
    refine (get_finish_of_symm (A := Dense.sandwich _ _ _) hu hv fun hsame => ?_).trans
      (get_sandwich_blockOf t hf hP hu hv)
    obtain rfl : i = j := of_decide_eq_true hsame
    rw [get_sandwich_blockOf t hf hP hu hv, get_sandwich_blockOf t hf hP hv hu]
    exact Finset.sum_congr rfl fun k _ => by ring

/-- What a function of columns amounts to at a row of a joint matrix. -/
def combinedRow (plan : Plan) (q : Problem K) (coordinates : Coordinates) (positions : List Nat)
    (g : Nat → K) (row : Nat) : K :=
  let (i, u) := (rowsOf (memberSizes q coordinates positions)).getD row (0, 0)
  combined plan q coordinates g (positions.getD i 0) u

/-- A matrix of answers about a sum of squares is a sum of squares. -/
theorem Joined.squareSum (t : plan.bounds.Tiled) (hf : SquareSum plan.bounds.numCols.toNat f)
    {positions : List Nat} {block : Nat → Nat → Dense K} {M : Dense K}
    (joined : Joined (memberSizes q coordinates positions) block M)
    (hblocks : ∀ i j k l, i ≤ j → positions[i]? = some k → positions[j]? = some l →
      answerAt f plan q coordinates k l = .ok (some (block i j)) ∧
        goesInto (coordinates.size (q.blockAt k)) (block i j).rows = true ∧
        goesInto (coordinates.size (q.blockAt l)) (block i j).cols = true) :
    SquareSum M.rows M.get := by
  obtain ⟨m, w, g, hw, hf⟩ := hf
  have hmember : ∀ {i u : Nat}, u < sizeAt (memberSizes q coordinates positions) i →
      ∃ k, positions[i]? = some k ∧ u < (coordinates.size (q.blockAt k)).toNat := by
    intro i u hu
    have hi : i < positions.length := by
      simpa [memberSizes] using lt_length_of_lt_sizeAt hu
    refine ⟨positions[i], List.getElem?_eq_getElem hi, ?_⟩
    rwa [sizeAt_eq (n := (coordinates.size (q.blockAt positions[i])).toNat)
      (by simp [memberSizes, hi])] at hu
  have hrow : ∀ {i u k : Nat} (g : Nat → K), u < sizeAt (memberSizes q coordinates positions) i →
      positions[i]? = some k →
      combinedRow plan q coordinates positions g
          (place (memberSizes q coordinates positions) i u) =
        combined plan q coordinates g k u := by
    intro i u k g hu hk
    simp only [combinedRow, List.getD_eq_getElem?_getD, getElem?_rowsOf hu, hk, Option.getD_some]
  refine ⟨m, w, fun k => combinedRow plan q coordinates positions (g k), hw,
    fun row col hrow' hcol' => ?_⟩
  rw [joined.rows] at hrow' hcol'
  obtain ⟨i, u, hu, rfl⟩ := exists_place hrow'
  obtain ⟨j, v, hv, rfl⟩ := exists_place hcol'
  obtain ⟨k, hk, huk⟩ := hmember hu
  obtain ⟨l, hl, hvl⟩ := hmember hv
  simp only [hrow _ hu hk, hrow _ hv hl]
  rw [joined.get i j u v hu hv]
  by_cases hij : i ≤ j
  · obtain ⟨hanswer, hrows, hcols⟩ := hblocks i j k l hij hk hl
    rw [if_pos hij]
    exact stretched_answerAt t hf hanswer hrows hcols huk hvl
  · obtain ⟨hanswer, hrows, hcols⟩ := hblocks j i l k (by omega) hl hk
    rw [if_neg hij, stretched_answerAt t hf hanswer hrows hcols hvl huk]
    exact Finset.sum_congr rfl fun _ _ => by ring

end Answers

section Results

variable {K : Type} [Field K] [LinearOrder K] [IsStrictOrderedRing K] [Elementary K]
  {engine : Engine K} {c : Covariance K} {problem : Problem K} {request : List Item}

/-- **Joint covariances are positive semi-definite.** After a computation with exact services that
succeeds, by either algorithm and however many directions it dropped, every joint matrix that is
answered, in either coordinates and for any handles, is square, and its quadratic form has no
negative value. -/
theorem joint_covariance_nonneg (exact : engine.ExactFor c.options)
    (h : (compute engine c problem request).answer = .ok true) (engine' : Engine K)
    (coordinates : Coordinates) (handles : List Atom) (M : Dense K)
    (hM : ((compute engine c problem request).state.matrix engine' problem coordinates
      handles).answer = .ok (some M)) :
    M.rows = M.cols ∧ ∀ v : Nat → K,
      0 ≤ ∑ r ∈ Finset.range M.rows, ∑ s ∈ Finset.range M.cols, v r * M.get r s * v s := by
  obtain ⟨plan, f, hplan, hstate, hf⟩ := exists_squares_of_compute exact h
  obtain ⟨-, t, -⟩ := regular_of_planOf hplan
  rw [hstate] at hM
  obtain ⟨positions, block, -, joined, hblocks⟩ :=
    joined_holding f hplan (fun a _ k hk => lt_ranges_of_position hplan hk) hM
  have hsquare : M.rows = M.cols := joined.rows.trans joined.cols.symm
  refine ⟨hsquare, fun v => ?_⟩
  rw [← hsquare]
  exact (joined.squareSum t hf hblocks).nonneg v

/-- Singular values of the residuals `2x` and `y`; the block is asked for twice. -/
theorem joint_covariance_nonneg_square :
    ∃ M, ((compute Engine.exact (plain .denseSvd) (oneBlock 2 #[2, 0, 0, 1]) itself).state.matrix
        Engine.exact (oneBlock 2 #[2, 0, 0, 1]) .ambient [.integer 0, .integer 0]).answer =
          .ok (some M) ∧ M.get 1 3 = 1 ∧
      0 ≤ ∑ r ∈ Finset.range M.rows, ∑ s ∈ Finset.range M.cols, (r : ℚ) * M.get r s * s := by
  have hvalues : (estimateValues Engine.exact (plain .denseSvd).options
      ⟨Pattern.ofRows 2 [[0, 1], [0, 1]], #[2, 0, 0, 1]⟩ oneBlockPlan.pattern).answer =
        .ok (some #[1 / 4, 0, 0, 1]) := by cbv
  have hstate : (compute Engine.exact (plain .denseSvd) (oneBlock 2 #[2, 0, 0, 1]) itself).state =
      (plain .denseSvd).holding oneBlockPlan #[1 / 4, 0, 0, 1] := by
    rw [(prepared_square .denseSvd).compute_eq.2, hvalues]
    rfl
  have hmatrix : ((compute Engine.exact (plain .denseSvd) (oneBlock 2 #[2, 0, 0, 1])
      itself).state.matrix Engine.exact (oneBlock 2 #[2, 0, 0, 1]) .ambient
        [.integer 0, .integer 0]).answer =
      .ok (some (Dense.ofRows 4 [[1 / 4, 0, 1 / 4, 0], [0, 1, 0, 1], [1 / 4, 0, 1 / 4, 0],
        [0, 1, 0, 1]])) := by
    rw [hstate]
    cbv
  have hexact : (Engine.exact : Engine ℚ).ExactFor (plain .denseSvd).options :=
    Engine.decomposesExactly_exact
  exact ⟨_, hmatrix, by cbv, (joint_covariance_nonneg hexact (answer_square .denseSvd)
    Engine.exact .ambient _ _ hmatrix).2 fun r => r⟩

end Results

end Covariance

end LeastSquares
