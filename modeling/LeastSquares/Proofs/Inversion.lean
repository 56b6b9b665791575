/-
LeastSquares.Proofs.Inversion — blocks computed by elimination are blocks of the inverse of `J'J`.

The statement goes from end to end: from a request as it is written, through the columns of the
problem, the plan, the threads that solve for its rows and the averaging, to the block that a query
reads. Of the engine only exact factorisations are assumed; threads, schedule and the limit for the
pivots are arbitrary. A computation that succeeds has an invertible normal matrix, and every value
it holds is the entry of the inverse in its own row and column; a Jacobian with dependent columns is
always noticed.
-/
import LeastSquares.Proofs.Rational

namespace LeastSquares.Covariance

open Matrix

variable {K : Type} [Field K] [LinearOrder K] [IsStrictOrderedRing K] [Elementary K]
  {engine : Engine K} {c : Covariance K} {problem : Problem K} {request : List Item} {plan : Plan}
  {J : Compressed K}

/-- **Elimination inverts the normal equations.** With exact factorisations, a computation by
elimination that succeeds has an invertible `J'J`; the block of every requested pair of handles, in
either order, holds the entries of the inverse at the columns of its blocks, and every stored entry
is that of the inverse. Where the columns of `J` are dependent, the computation fails. -/
theorem compute_by_elimination (exact : engine.FactorsExactly)
    (halgorithm : c.options.algorithm = .sparseQr) (hlibrary : c.options.library = .elimination)
    (prepared : Prepared engine c.options problem request plan J) :
    ((compute engine c problem request).answer = .ok true →
      IsUnit J.normalMatrix ∧
      (∀ a b i j, problem.position a = .ok i → problem.position b = .ok j →
        Requested request i j → 0 < plan.bounds.widthAt i → 0 < plan.bounds.widthAt j →
        ∃ B, ((compute engine c problem request).state.block problem .tangent a b).answer =
            .ok (some B) ∧
          B.rows = plan.bounds.widthAt i ∧ B.cols = plan.bounds.widthAt j ∧
          ∀ u v, u < plan.bounds.widthAt i → v < plan.bounds.widthAt j →
            B.get u v = entryAt J.normalMatrix⁻¹ ((plan.bounds.rangeAt i).first + u)
              ((plan.bounds.rangeAt j).first + v)) ∧
      ∃ M, (compute engine c problem request).state.estimate.matrix? = some M ∧
        M.pattern = plan.pattern ∧
        ∀ i j, M.pattern.Stores i j → M.entry i j = entryAt J.normalMatrix⁻¹ i j) ∧
    (¬ LinearIndependent K J.toMatrix.col →
      (compute engine c problem request).answer = .ok false) := by
  obtain ⟨r, hp, w, a⟩ := prepared.shapes
  obtain ⟨hanswer, hstate⟩ := prepared.compute_eq
  have exactWith : engine.ExactWith c.options.library := hlibrary ▸ exact.exactWith
  constructor
  · intro htrue
    rcases factor_cases exactWith w a r hp halgorithm with hnone | ⟨hunit, hsome⟩
    · rw [hanswer, hnone] at htrue
      cases htrue
    · rw [hsome] at hstate
      refine ⟨hunit, ?_, ?_⟩
      · intro a b i j ha hb hrequested hi hj
        rw [hstate]
        exact block_of_ready (entryAt J.normalMatrix⁻¹) prepared.planned rfl rfl ha hb hrequested
          hi hj
      · rw [hstate]
        refine ⟨_, rfl, rfl, ?_⟩
        intro i j hij
        exact Compressed.entry_gather (entryAt J.normalMatrix⁻¹) r.toWellFormed r.ascending hij
  · intro hdependent
    rcases factor_cases exactWith w a r hp halgorithm with hnone | ⟨hunit, -⟩
    · rw [hanswer, hnone]
      rfl
    · exact absurd (J.isUnit_normalMatrix_iff.mp hunit) hdependent

/-! ## Two blocks that influence each other

Two blocks of one parameter each, with the residuals `x + y` and `y`. The inverse of `J'J` is not
diagonal, and the request names the blocks in the order opposite to that of their columns. -/

/-- The residuals `x + y` and `y`. -/
def sheared : Problem ℚ where
  blocks := #[{ values := #[0] }, { values := #[0] }]
  residuals := #[⟨[0, 1], [.integer 0, .integer 1],
    ⟨fun _ => .ok #[0, 0], fun _ => .ok [⟨[2, 1], #[1, 0]⟩, ⟨[2, 1], #[1, 1]⟩], none⟩⟩]

/-- The second block with the first. -/
def shearedRequest : List Item := [.list [.integer 1, .integer 0]]

/-- The columns of the two blocks. -/
def shearedBounds : ColumnBounds := ⟨#[⟨0, 1⟩, ⟨1, 1⟩], 2, true⟩

theorem bounds_sheared : ColumnBounds.make sheared true = shearedBounds := by cbv

theorem check_sheared : shearedBounds.check = .ok () := by
  simp [ColumnBounds.check, shearedBounds, Extent.check, Extent.bytes, Extent.maxBytes]

/-- The Jacobian of the two residuals; the zero is stored. -/
def shearedJacobian : Compressed ℚ := ⟨Pattern.ofRows 2 [[0, 1], [0, 1]], #[1, 1, 0, 1]⟩

theorem prepared_sheared : Prepared Engine.exact (plain .sparseQr).options sheared shearedRequest
    (Plan.ofPairs shearedBounds [(1, 0)]) shearedJacobian where
  planned := by
    have hpairs : Request.pairs shearedRequest = .ok [(1, 0)] := by cbv
    have haccept : Plan.accept sheared (itemsOf [(1, 0)]) = .ok [(1, 0)] := by cbv
    exact planOf_eq hpairs haccept bounds_sheared check_sheared
  free := by
    refine ⟨1, 0, ⟨[(1, 0)], by cbv, Or.inl List.mem_cons_self⟩, ?_, ?_⟩ <;> decide
  jacobian := by cbv

theorem answer_sheared :
    (compute Engine.exact (plain .sparseQr) sheared shearedRequest).answer = .ok true := by
  have hvalues : (estimateValues Engine.exact (plain .sparseQr).options shearedJacobian
      (Plan.ofPairs shearedBounds [(1, 0)]).pattern).answer = .ok (some #[-1, -1]) := by cbv
  rw [prepared_sheared.compute_eq.1, hvalues]
  rfl

/-- The computation succeeds, and the first row and second column of the inverse are read. -/
theorem compute_sheared :
    (compute Engine.exact (plain .sparseQr) sheared shearedRequest).answer = .ok true ∧
      ∃ B, ((compute Engine.exact (plain .sparseQr) sheared shearedRequest).state.block sheared
          .tangent (.integer 0) (.integer 1)).answer = .ok (some B) ∧
        B.get 0 0 = entryAt shearedJacobian.normalMatrix⁻¹ 0 1 := by
  obtain ⟨-, hblocks, -⟩ := (compute_by_elimination Engine.factorsExactly_exact rfl rfl
    prepared_sheared).1 answer_sheared
  obtain ⟨B, hblock, -, -, hentry⟩ := hblocks (.integer 0) (.integer 1) 0 1 (by cbv) (by cbv)
    ⟨[(1, 0)], by cbv, Or.inr List.mem_cons_self⟩ (by decide) (by decide)
  exact ⟨answer_sheared, B, hblock, hentry 0 0 (by decide) (by decide)⟩

end LeastSquares.Covariance
