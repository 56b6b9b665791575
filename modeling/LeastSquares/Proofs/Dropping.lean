/-
LeastSquares.Proofs.Dropping — which directions an estimate by singular values is made of.

A thin decomposition of a Jacobian with `m` rows and `n` columns has `min m n` directions, and the
number of directions to be dropped is taken from these. So a computation that succeeds keeps
`min m n - r` of them, all with positive singular values. That is `n - r` exactly where the Jacobian
is not wider than high, or where everything is dropped. The directions that a wide Jacobian lacks
are null and are not noticed: with `r = 0` it is answered as if its columns were independent, by a
matrix that is no inverse (`compute_wide`).
-/
import LeastSquares.Proofs.Rational

namespace LeastSquares.Covariance

variable {K : Type} [Field K] [LinearOrder K] [IsStrictOrderedRing K] [Elementary K]
  {engine : Engine K} {c : Covariance K} {problem : Problem K} {request : List Item} {plan : Plan}
  {J : Compressed K}

/-- **The kept directions.** With exact decompositions, a computation by singular values that drops
`r` directions and succeeds forms the sum of `min m n - r` directions with positive singular values.
It keeps `n - r` of them exactly when `J` has no more columns than rows or everything is dropped.
When nothing is dropped, its success means independent columns exactly when `J` has no more columns
than rows, and what it forms is then the inverse of `J'J`. -/
theorem compute_by_svd (exact : engine.DecomposesExactly)
    (sqrt_pos : ∀ x : K, 0 < x → 0 < Elementary.sqrt x)
    (halgorithm : c.options.algorithm = .denseSvd) (hrank : 0 ≤ c.options.nullSpaceRank)
    (hlimit : 0 < c.options.minReciprocalCondition)
    (prepared : Prepared engine c.options problem request plan J)
    (h : (compute engine c problem request).answer = .ok true) :
    ∃ s weights, engine.singular J.dense = some s ∧ s.Decomposes J.toMatrix ∧
      Truncation.weights c.options s.values = some weights ∧
      (compute engine c problem request).state.estimate = .ready plan (Truncation.gather
        (entryAt (s.weighted (min J.pattern.numRows J.pattern.numCols) J.pattern.numCols
          fun k => weights.getD k 0)) plan.pattern) ∧
      (∀ k, k < min J.pattern.numRows J.pattern.numCols - c.options.nullSpaceRank.toNat →
        0 < s.value k ∧ weights.getD k 0 = 1 / (s.value k * s.value k)) ∧
      (∀ k, min J.pattern.numRows J.pattern.numCols - c.options.nullSpaceRank.toNat ≤ k →
        weights.getD k 0 = 0) ∧
      Truncation.rank weights =
        min J.pattern.numRows J.pattern.numCols - c.options.nullSpaceRank.toNat ∧
      (Truncation.rank weights = J.pattern.numCols - c.options.nullSpaceRank.toNat ↔
        J.pattern.numCols ≤ J.pattern.numRows ∨
          (J.pattern.numCols : Int) ≤ c.options.nullSpaceRank) ∧
      (c.options.nullSpaceRank = 0 →
        (LinearIndependent K J.toMatrix.col ↔ J.pattern.numCols ≤ J.pattern.numRows) ∧
        (J.pattern.numCols ≤ J.pattern.numRows →
          (compute engine c problem request).state.estimate =
            .ready plan (Truncation.gather (entryAt J.normalMatrix⁻¹) plan.pattern))) := by
  obtain ⟨r, hp, -, -⟩ := prepared.shapes
  obtain ⟨hanswer, hstate⟩ := prepared.compute_eq
  have hroot := sqrt_pos _ hlimit
  obtain ⟨found, hfilled⟩ := eq_some_of_map_isSome (hanswer.symm.trans h)
  obtain ⟨-, -, s, weights, hsingular, d, hweights, rfl⟩ := svd_cases exact r hp halgorithm hfilled
  obtain ⟨hkept, hdropped⟩ := Truncation.weights_spec hrank hroot hweights
  have hcount := Truncation.rank_eq hrank hroot hweights
  rw [d.length_values] at hkept hdropped hcount
  have hestimate : (compute engine c problem request).state.estimate = .ready plan
      (Truncation.gather (entryAt (s.weighted (min J.pattern.numRows J.pattern.numCols)
        J.pattern.numCols fun k => weights.getD k 0)) plan.pattern) := by
    rw [hstate, hfilled]
    rfl
  refine ⟨s, weights, hsingular, d, hweights, hestimate, hkept, hdropped, hcount, ?_, ?_⟩
  · rw [hcount]
    omega
  · intro hnone
    have hinverse := fun hle => svd_eq_inverse exact r hp halgorithm hnone hroot hle hfilled
    refine ⟨⟨Singular.le_of_linearIndependent_col, ?_⟩, ?_⟩
    · intro hle
      exact J.isUnit_normalMatrix_iff.mp (hinverse hle).1
    · intro hle
      rw [hestimate, (hinverse hle).2]

/-- The residuals `2x` and `y` keep both of their directions. -/
theorem compute_square :
    (compute Engine.exact (plain .denseSvd) (oneBlock 2 #[2, 0, 0, 1]) itself).answer =
        .ok true ∧
      LinearIndependent ℚ
        (Compressed.mk (Pattern.ofRows 2 [[0, 1], [0, 1]]) #[(2 : ℚ), 0, 0, 1]).toMatrix.col := by
  have h := answer_square .denseSvd
  obtain ⟨s, weights, -, -, -, -, -, -, -, -, hnone⟩ := compute_by_svd
    Engine.decomposesExactly_exact (fun _ => sqrt_pos_rat) rfl (Int.le_refl 0) (by decide +kernel)
    (prepared_square .denseSvd) h
  exact ⟨h, (hnone rfl).1.mpr (Nat.le_refl 2)⟩

/-- One residual of two parameters, whose Jacobian has dependent columns. Elimination notices it;
by singular values the computation succeeds, although nothing was to be dropped, with one direction
for two columns. -/
theorem compute_wide :
    (plain .denseSvd).options.nullSpaceRank = 0 ∧
      ((oneBlock 1 #[1, 0]).jacobian .inOrder oneBlockPlan.bounds false 1).answer =
        .ok ⟨Pattern.ofRows 2 [[0, 1]], #[1, 0]⟩ ∧
      ¬ LinearIndependent ℚ
        (Compressed.mk (Pattern.ofRows 2 [[0, 1]]) #[(1 : ℚ), 0]).toMatrix.col ∧
      (compute Engine.exact (plain .sparseQr) (oneBlock 1 #[1, 0]) itself).answer = .ok false ∧
      (compute Engine.exact (plain .denseSvd) (oneBlock 1 #[1, 0]) itself).answer = .ok true ∧
      (((Engine.exact.singular (Compressed.mk (Pattern.ofRows 2 [[0, 1]]) #[(1 : ℚ), 0]).dense).bind
        fun s => Truncation.weights (plain .denseSvd).options s.values).map Truncation.rank) =
          some 1 := by
  have hJ : ((oneBlock 1 #[1, 0]).jacobian .inOrder oneBlockPlan.bounds false 1).answer =
      .ok ⟨Pattern.ofRows 2 [[0, 1]], #[1, 0]⟩ := by cbv
  have hsvd : (estimateValues Engine.exact (plain .denseSvd).options
      ⟨Pattern.ofRows 2 [[0, 1]], #[1, 0]⟩ oneBlockPlan.pattern).answer =
        .ok (some #[1, 0, 0, 0]) := by cbv
  have helimination : (estimateValues Engine.exact (plain .sparseQr).options
      ⟨Pattern.ofRows 2 [[0, 1]], #[1, 0]⟩ oneBlockPlan.pattern).answer = .ok none := by cbv
  refine ⟨rfl, hJ, ?_, ?_, ?_, by cbv⟩
  · intro h
    have hle := Singular.le_of_linearIndependent_col h
    exact absurd hle (by decide)
  · rw [(prepared_oneBlock .sparseQr hJ).compute_eq.1, helimination]
    rfl
  · rw [(prepared_oneBlock .denseSvd hJ).compute_eq.1, hsvd]
    rfl

end LeastSquares.Covariance
