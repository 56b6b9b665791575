/-
LeastSquares.Proofs.Breakdown — which computations break off instead of giving an answer.

A computation answers that its values are there, or that they are not. Past its plan and its
Jacobian almost everything that can go wrong is such an answer: a library that is not there, a
matrix that cannot be factored, pivots or singular values that are too small, a Jacobian without
rows or columns. One thing is not. Where no singular value decomposition is found, the computation
by singular values breaks off with the fault of the decomposition (`compute_answers`), and a single
entry of the Jacobian that is not a number is enough (`nan_escapes`). Elimination takes the same
Jacobian for rank deficient.
-/
import LeastSquares.Proofs.Rational

namespace LeastSquares

variable {α : Type}

/-! ## Entries that are not numbers -/

section NotNumbers

variable [Zero α] [BEq α]

/-- Is some entry of a matrix not a number? -/
def Dense.HasNaN (A : Dense α) : Prop :=
  ∃ i j, i < A.rows ∧ j < A.cols ∧ isNaN (A.get i j) = true

/-- An engine that finds no singular values of a matrix with an entry that is not a number. -/
def Engine.RefusesNaN (engine : Engine α) : Prop :=
  ∀ A : Dense α, A.HasNaN → engine.singular A = none

end NotNumbers

/-- The engine that runs is one of these. -/
theorem Engine.refusesNaN_native : Engine.native.RefusesNaN := by
  rintro A ⟨i, j, hi, hj, hnan⟩
  refine if_pos (Array.any_eq_true'.mpr ⟨A.get i j, ?_, hnan⟩)
  exact Dense.mem_data_iff.mpr ⟨i, j, hi, hj, rfl⟩

namespace Covariance

/-! ## Faults of a computation -/

section Faults

variable [Zero α] [One α] [Add α] [Neg α] [Mul α] [Div α] [NatCast α] [BEq α] [LT α]
  [DecidableLT α] [LE α] [DecidableLE α] [Elementary α] {engine : Engine α} {options : Options α}
  {J : Compressed α} {p : Pattern} {e : Fault}

/-- Do the singular values of a Jacobian have to be found, and are they not? -/
def Breaks (engine : Engine α) (options : Options α) (J : Compressed α) : Prop :=
  options.algorithm = .denseSvd ∧ J.pattern.numRows ≠ 0 ∧ J.pattern.numCols ≠ 0 ∧
    engine.singular J.dense = none

/-- The algorithms have one fault, that of a decomposition which is not found. -/
theorem values_eq_error_iff :
    (values engine options J p).answer = .error e ↔
      e = .noConvergence ∧ options.algorithm = .denseSvd ∧ engine.singular J.dense = none := by
  unfold values
  cases options.algorithm with
  | denseSvd =>
    simp only [valuesBySvd]
    cases engine.singular J.dense with
    | none => simp [eq_comm]
    | some s =>
      dsimp only
      cases Truncation.weights options s.values <;> simp
  | sparseQr =>
    simp only [valuesByFactor]
    cases factorNormal engine options.library J with
    | error line => simp
    | ok f =>
      dsimp only
      split <;> simp

/-- An estimate has no other fault. -/
theorem estimateValues_eq_error_iff (r : p.Regular) :
    (estimateValues engine options J p).answer = .error e ↔
      e = .noConvergence ∧ Breaks engine options J := by
  rw [estimateValues_eq r]
  split
  · rename_i hempty
    refine iff_of_false (by simp) ?_
    rintro ⟨-, -, hrows, hcols, -⟩
    exact hempty.elim hrows hcols
  · rename_i hempty
    rw [map_eq_error_iff, values_eq_error_iff]
    obtain ⟨hrows, hcols⟩ := not_or.mp hempty
    exact ⟨fun ⟨he, ha, hs⟩ => ⟨he, ha, hrows, hcols, hs⟩, fun ⟨he, ha, _, _, hs⟩ => ⟨he, ha, hs⟩⟩

end Faults

section Computing

variable [Zero α] [One α] [Add α] [Sub α] [Neg α] [Mul α] [Div α] [NatCast α] [BEq α] [LT α]
  [DecidableLT α] [LE α] [DecidableLE α] [Elementary α] {engine : Engine α} {c : Covariance α}
  {problem : Problem α} {request : List Item} {plan : Plan} {J : Compressed α}

/-- A computation with a plan and a Jacobian has no other fault either. -/
theorem compute_eq_error_iff (hplan : planOf problem request = .ok plan)
    (hJ : (problem.jacobian engine.schedule plan.bounds c.options.applyLoss
      c.options.threads).answer = .ok J) (e : Fault) :
    (compute engine c problem request).answer = .error e ↔
      e = .noConvergence ∧ plan.pattern.nonzeros ≠ 0 ∧ Breaks engine c.options J := by
  rw [(compute_eq hplan engine c).1, map_eq_error_iff]
  by_cases hnonzeros : plan.pattern.nonzeros = 0
  · rw [fillPlan, if_pos hnonzeros]
    exact iff_of_false (by simp) fun h => h.2.1 hnonzeros
  · rw [answer_fillPlan hnonzeros hJ, estimateValues_eq_error_iff (regular_of_planOf hplan).1]
    constructor
    · rintro ⟨he, h⟩
      exact ⟨he, hnonzeros, h⟩
    · rintro ⟨he, -, h⟩
      exact ⟨he, h⟩

/-- **What breaks a computation off.** Let a request be planned and the Jacobian of its columns be
evaluated, whatever its entries are. The computation answers, or it breaks off with the fault of the
singular value decomposition and leaves no values. It breaks off exactly if singular values of a
Jacobian with rows and columns are needed and not found; so elimination always answers, and an entry
that is not a number always breaks a computation by singular values off, where the engine finds none
of such a matrix. -/
theorem compute_answers (hplan : planOf problem request = .ok plan)
    (hJ : (problem.jacobian engine.schedule plan.bounds c.options.applyLoss
      c.options.threads).answer = .ok J) :
    let outcome := compute engine c problem request
    ((∃ b, outcome.answer = .ok b) ∨
      outcome.answer = .error .noConvergence ∧ outcome.state.estimate = .failed plan) ∧
    ((∃ b, outcome.answer = .ok b) ↔
      ¬ (plan.pattern.nonzeros ≠ 0 ∧ Breaks engine c.options J)) ∧
    (c.options.algorithm = .sparseQr → ∃ b, outcome.answer = .ok b) ∧
    (engine.RefusesNaN → c.options.algorithm = .denseSvd → plan.pattern.nonzeros ≠ 0 →
      J.dense.HasNaN → outcome.answer = .error .noConvergence) := by
  intro outcome
  have herror := compute_eq_error_iff hplan hJ
  obtain ⟨hanswer, hstate⟩ := compute_eq hplan engine c
  have hcases : (∃ b, outcome.answer = .ok b) ∨
      outcome.answer = .error .noConvergence ∧ outcome.state.estimate = .failed plan := by
    cases hfilled : (fillPlan engine c.options problem plan).answer with
    | ok filled =>
      rw [hfilled] at hanswer
      exact Or.inl ⟨_, hanswer⟩
    | error e =>
      rw [hfilled] at hanswer hstate
      obtain ⟨rfl, -⟩ := (herror e).mp hanswer
      exact Or.inr ⟨hanswer, congrArg Covariance.estimate hstate⟩
  have hanswers : ¬ (plan.pattern.nonzeros ≠ 0 ∧ Breaks engine c.options J) →
      ∃ b, outcome.answer = .ok b := by
    intro hfinds
    refine hcases.resolve_right fun hbreaks => hfinds ?_
    exact ((herror .noConvergence).mp hbreaks.1).2
  refine ⟨hcases, ⟨?_, hanswers⟩, ?_, ?_⟩
  · rintro ⟨b, hb⟩ hbreaks
    have hfault := (herror .noConvergence).mpr ⟨rfl, hbreaks⟩
    rw [show (compute engine c problem request).answer = .ok b from hb] at hfault
    cases hfault
  · intro halgorithm
    refine hanswers fun ⟨_, hsvd, _⟩ => ?_
    rw [halgorithm] at hsvd
    cases hsvd
  · intro refuses halgorithm hnonzeros hnan
    have hsize : 0 < J.pattern.numRows ∧ 0 < J.pattern.numCols := by
      obtain ⟨i, j, hi, hj, -⟩ := hnan
      exact ⟨Nat.zero_lt_of_lt hi, Nat.zero_lt_of_lt hj⟩
    exact (herror .noConvergence).mpr
      ⟨rfl, hnonzeros, halgorithm, by omega, by omega, refuses _ hnan⟩

end Computing

/-- The residuals `2x` and `y` have singular values, and are answered. -/
theorem compute_answers_square :
    ∃ b, (compute Engine.exact (plain .denseSvd) (oneBlock 2 #[2, 0, 0, 1]) itself).answer =
      .ok b := by
  obtain ⟨-, hanswers, -⟩ := compute_answers (prepared_square .denseSvd).planned
    (prepared_square .denseSvd).jacobian
  refine hanswers.mpr fun ⟨_, _, _, _, hnone⟩ => ?_
  have hsome : (Engine.exact : Engine ℚ).singular
      (Compressed.mk (Pattern.ofRows 2 [[0, 1], [0, 1]]) #[2, 0, 0, 1]).dense =
        some ⟨[2, 1], Dense.ofRows 2 [[1, 0], [0, 1]]⟩ := by cbv
  rw [hsome] at hnone
  cases hnone

/-! ## A derivative that is not a number -/

/-- One block of one parameter, and one residual with a given derivative. -/
def oneNumber [Zero α] (derivative : α) : Problem α where
  blocks := #[{ values := #[0] }]
  residuals := #[⟨[0], [.integer 0],
    ⟨fun _ => .ok #[0], fun _ => .ok [⟨[1, 1], #[derivative]⟩], none⟩⟩]

/-- The plan of the block with itself. -/
def oneNumberPlan : Plan := Plan.ofPairs ⟨#[⟨0, 1⟩], 1, true⟩ [(0, 0)]

theorem planOf_oneNumber [Zero α] (x : α) : planOf (oneNumber x) itself = .ok oneNumberPlan := by
  have hpairs : Request.pairs itself = .ok [(0, 0)] := by cbv
  have haccept : Plan.accept (oneNumber x) (itemsOf [(0, 0)]) = .ok [(0, 0)] := by cbv
  have hbounds : ColumnBounds.make (oneNumber x) true = ⟨#[⟨0, 1⟩], 1, true⟩ := by cbv
  have hcheck : (ColumnBounds.mk #[⟨0, 1⟩] 1 true).check = .ok () := by
    simp [ColumnBounds.check, Extent.check, Extent.bytes, Extent.maxBytes]
  exact planOf_eq hpairs haccept hbounds hcheck

/-- A covariance of plain numbers on one thread that drops no direction. -/
def plainFloat (algorithm : Algorithm) : Covariance Float :=
  .ofOptions ⟨algorithm, .elimination, 1 / 16, 0, 1, false⟩

/-- The derivative is zero divided by zero, and everything is accepted that there is to accept. By
elimination the computation answers; by singular values it breaks off. -/
theorem nan_escapes :
    planOf (oneNumber (0 / 0 : Float)) itself = .ok oneNumberPlan ∧
      ((oneNumber (0 / 0 : Float)).jacobian .inOrder oneNumberPlan.bounds false 1).answer =
        .ok ⟨Pattern.ofRows 1 [[0]], #[0 / 0]⟩ ∧
      (∃ b, (compute Engine.native (plainFloat .sparseQr) (oneNumber (0 / 0)) itself).answer =
        .ok b) ∧
      (compute Engine.native (plainFloat .denseSvd) (oneNumber (0 / 0)) itself).answer =
        .error .noConvergence := by
  have hnan : (Compressed.mk (Pattern.ofRows 1 [[0]]) #[(0 / 0 : Float)]).dense.HasNaN :=
    ⟨0, 0, by decide, by decide, by decide +kernel⟩
  generalize (0 / 0 : Float) = x at hnan ⊢
  have hplan := planOf_oneNumber x
  have hJ : ((oneNumber x).jacobian .inOrder oneNumberPlan.bounds false 1).answer =
      .ok ⟨Pattern.ofRows 1 [[0]], #[x]⟩ := by cbv
  have hfaults : ∀ algorithm e,
      (compute Engine.native (plainFloat algorithm) (oneNumber x) itself).answer = .error e ↔
        e = .noConvergence ∧ oneNumberPlan.pattern.nonzeros ≠ 0 ∧
          Breaks Engine.native (plainFloat algorithm).options
            ⟨Pattern.ofRows 1 [[0]], #[x]⟩ :=
    fun algorithm => compute_eq_error_iff hplan hJ
  refine ⟨hplan, hJ, ?_, ?_⟩
  · cases hanswer : (compute Engine.native (plainFloat .sparseQr) (oneNumber x)
        itself).answer with
    | ok b => exact ⟨b, rfl⟩
    | error e =>
      obtain ⟨-, -, hsvd, -⟩ := (hfaults .sparseQr e).mp hanswer
      cases hsvd
  · have hnonzeros : oneNumberPlan.pattern.nonzeros = 1 := by cbv
    exact (hfaults .denseSvd .noConvergence).mpr ⟨rfl, hnonzeros ▸ Nat.one_ne_zero, rfl,
      Nat.one_ne_zero, Nat.one_ne_zero, Engine.refusesNaN_native _ hnan⟩

end Covariance

end LeastSquares
