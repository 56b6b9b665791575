/-
LeastSquares.Proofs.Agreement — both algorithms leave the same covariance.

Singular values and elimination go separate ways from the Jacobian to the values of a plan. Where
both succeed and no direction is dropped, elimination has found `J'J` invertible, so the Jacobian is
not wider than high; then all directions are there, all of them are kept, and both ways end at the
inverse of `J'J`. The two estimates are one and the same, and with it every answer to a query.
-/
import LeastSquares.Proofs.Rational

namespace LeastSquares.Covariance

variable {K : Type} [Field K] [LinearOrder K] [IsStrictOrderedRing K] [Elementary K]
  {engine : Engine K}

/-- Two estimates along one pattern that the two algorithms find are equal. -/
theorem values_agree (options options' : Options K) (factors : engine.ExactWith options'.library)
    (decomposes : engine.DecomposesExactly) (halgorithm : options.algorithm = .denseSvd)
    (halgorithm' : options'.algorithm = .sparseQr) (hrank : options.nullSpaceRank = 0)
    (hlimit : 0 < Elementary.sqrt options.minReciprocalCondition) {J : Compressed K} {p : Pattern}
    (w : J.pattern.WellFormed) (a : J.pattern.Ascending) (r : p.Regular)
    (hp : p.numRows = J.pattern.numCols) {found found' : Array K}
    (h : (estimateValues engine options J p).answer = .ok (some found))
    (h' : (estimateValues engine options' J p).answer = .ok (some found')) : found = found' := by
  rcases factor_cases factors w a r hp halgorithm' with hnone | ⟨hunit, hsome⟩
  · rw [hnone] at h'
    cases h'
  · rw [hsome] at h'
    have hle := Singular.le_of_linearIndependent_col (J.isUnit_normalMatrix_iff.mp hunit)
    obtain ⟨-, hfound⟩ := svd_eq_inverse decomposes r hp halgorithm hrank hlimit hle h
    rw [hfound]
    exact Option.some.inj (Except.ok.inj h')

/-- **The algorithms agree.** With an exact engine, and no direction to be dropped, two computations
that differ in their algorithm and both succeed leave the same estimate: one matrix, and the same
answer to every query. -/
theorem algorithms_agree {options : Options K} (factors : engine.ExactWith options.library)
    (decomposes : engine.DecomposesExactly) (sqrt_pos : ∀ x : K, 0 < x → 0 < Elementary.sqrt x)
    (hrank : options.nullSpaceRank = 0) (hlimit : 0 < options.minReciprocalCondition)
    {c c' : Covariance K} (hc : c.options = { options with algorithm := .denseSvd })
    (hc' : c'.options = { options with algorithm := .sparseQr }) {problem : Problem K}
    {request : List Item}
    (h : (compute engine c problem request).answer = .ok true)
    (h' : (compute engine c' problem request).answer = .ok true) :
    (∃ M, (compute engine c problem request).state.estimate.matrix? = some M ∧
      (compute engine c' problem request).state.estimate.matrix? = some M) ∧
    (∀ later coordinates a b,
      (compute engine c problem request).state.block later coordinates a b =
        (compute engine c' problem request).state.block later coordinates a b) ∧
    ∀ later coordinates handles,
      (compute engine c problem request).state.matrix engine later coordinates handles =
        (compute engine c' problem request).state.matrix engine later coordinates handles := by
  obtain ⟨plan, found, hplan, hfilled, hstate⟩ := exists_of_compute h
  obtain ⟨plan', found', hplan', hfilled', hstate'⟩ := exists_of_compute h'
  rw [hplan] at hplan'
  cases hplan'
  rw [hc] at hfilled
  rw [hc'] at hfilled'
  have hfound : found = found' := by
    by_cases hnonzeros : plan.pattern.nonzeros = 0
    · simp only [fillPlan, if_pos hnonzeros, Except.ok.injEq, Option.some.injEq] at hfilled hfilled'
      rw [← hfilled, ← hfilled']
    · obtain ⟨J, hJ⟩ := exists_jacobian_of_fillPlan hnonzeros hfilled
      have hfill' : (fillPlan engine { options with algorithm := .sparseQr } problem plan).answer =
          (estimateValues engine { options with algorithm := .sparseQr } J plan.pattern).answer :=
        answer_fillPlan hnonzeros hJ
      rw [answer_fillPlan hnonzeros hJ] at hfilled
      rw [hfill'] at hfilled'
      obtain ⟨r, t, hrows⟩ := regular_of_planOf hplan
      obtain ⟨hcols, w, a⟩ := Problem.pattern_jacobian t hJ
      exact values_agree { options with algorithm := .denseSvd }
        { options with algorithm := .sparseQr } factors decomposes rfl rfl hrank
        (sqrt_pos _ hlimit) w a r (by rw [hrows, hcols]) hfilled hfilled'
  subst hfound
  rw [hstate, hstate', hc, hc']
  exact ⟨⟨_, rfl, rfl⟩, fun _ _ _ _ => rfl, fun _ _ _ => rfl⟩

/-- Both algorithms succeed on the residuals `2x` and `y` with either library, and leave one
matrix. -/
theorem algorithms_agree_on_oneBlock :
    (compute Engine.exact (plain .denseSvd) (oneBlock 2 #[2, 0, 0, 1]) itself).answer =
        .ok true ∧
      (compute Engine.exact (plain .sparseQr) (oneBlock 2 #[2, 0, 0, 1]) itself).answer =
        .ok true ∧
      (∃ M,
        (compute Engine.exact (plain .denseSvd) (oneBlock 2 #[2, 0, 0, 1])
          itself).state.estimate.matrix? = some M ∧
        (compute Engine.exact (plain .sparseQr) (oneBlock 2 #[2, 0, 0, 1])
          itself).state.estimate.matrix? = some M) ∧
      ∃ M,
        (compute Engine.installed (plainCholesky .denseSvd) (oneBlock 2 #[2, 0, 0, 1])
          itself).state.estimate.matrix? = some M ∧
        (compute Engine.installed (plainCholesky .sparseQr) (oneBlock 2 #[2, 0, 0, 1])
          itself).state.estimate.matrix? = some M := by
  have h := answer_square .denseSvd
  have h' := answer_square .sparseQr
  have hrank : (plain .denseSvd).options.nullSpaceRank = 0 := rfl
  have hlimit : 0 < (plain .denseSvd).options.minReciprocalCondition := by decide +kernel
  have factors : (Engine.exact : Engine ℚ).ExactWith (plain .denseSvd).options.library :=
    Engine.factorsExactly_exact.exactWith
  have decomposes : Engine.installed.DecomposesExactly := Engine.decomposesExactly_exact
  refine ⟨h, h', (algorithms_agree factors Engine.decomposesExactly_exact
    (fun _ => sqrt_pos_rat) hrank hlimit rfl rfl h h').1, ?_⟩
  have hrank' : (plainCholesky .denseSvd).options.nullSpaceRank = 0 := rfl
  have hlimit' : 0 < (plainCholesky .denseSvd).options.minReciprocalCondition := hlimit
  exact (algorithms_agree (Engine.exactWith_installed .cholesky) decomposes
    (fun _ => sqrt_pos_rat) hrank' hlimit' rfl rfl (answer_square_installed .denseSvd)
    (answer_square_installed .sparseQr)).1

end LeastSquares.Covariance
