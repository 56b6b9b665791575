/-
LeastSquares.Proofs.Threads — the number of threads is not part of any result.

Three loops run on several threads: the evaluation of the residual blocks, the solutions for the
rows of a plan, and the blocks of a joint matrix. What each of them does is known by now as a
traversal without threads (`Problem.evaluateAll_eq`, `Selective.invert_eq_gather`,
`answer_matrixIn`). For the second one this needs a solver that treats each right side on its own
(`Factorization.Columnwise`): threads cut the right sides into chunks at other places, so that a
solver that looks from one column at the next would notice. Threads share the memory they write to:
each residual block has a slot of its own, each row of a plan its positions
(`Selective.run_fillPart`), and each pair of a joint matrix its entries above and below the diagonal
(`Layout.perm_entriesOf`, `Canvas.put_frame`).

* `compute_withThreads`: a computation on other threads is the same computation, up to the number
  of threads that its options go on to say; `afterOn_withThreads` says so for any calls.
* `computed_on_threads`: the same for everything that can be seen of a computation.
-/
import LeastSquares.Proofs.Evaluation
import LeastSquares.Proofs.Filling
import LeastSquares.Proofs.History
import LeastSquares.Proofs.Joining

namespace LeastSquares

/-! ## Solvers -/

section Solvers

variable {α : Type} [Zero α]

/-- A column of the solution depends on the same column of the right sides alone, wherever it
stands and whatever stands beside it. -/
def Factorization.Columnwise (f : Factorization α) : Prop :=
  ∀ B B' : Dense α, B.rows = B'.rows → ∀ k k', k < B.cols → k' < B'.cols →
    (∀ i, i < B.rows → B.get i k = B'.get i k') →
    ∀ i, (f.solve B).get i k = (f.solve B').get i k'

/-- Elimination solves for one column after the other. -/
theorem Symmetric.columnwise_factorization [Add α] [Sub α] [Neg α] [Mul α] [Div α] [BEq α]
    {A : Symmetric α} {f : Factorization α} (h : A.factorization = some f) : f.Columnwise := by
  obtain ⟨stages, -, rfl⟩ := Option.map_eq_some_iff.mp h
  intro B B' hrows k k' hk hk' hcolumn i
  have hright : (Array.ofFn fun (i : Fin B.rows) => B.get i k) =
      Array.ofFn fun (i : Fin B'.rows) => B'.get i k' := by
    apply Array.ext
    · simp [hrows]
    · intro i hi _
      have hi : i < B.rows := by simpa using hi
      simpa using hcolumn i hi
  simp only [Symmetric.solveColumns, Dense.get_ofFn, hrows]
  by_cases hi : i < B'.rows
  · simp [hi, hk, hk', Array.getD_eq_getD_getElem?, hright]
  · simp [hi]

variable [One α]

/-- A solver that treats each right side on its own has one solution for each unit column. -/
theorem Factorization.Columnwise.solvesUnits {f : Factorization α} (h : f.Columnwise) (n : Nat) :
    Selective.SolvesUnits f.solve n fun r c =>
      (f.solve (Selective.unitColumns n [r])).get c 0 := by
  intro rows _ k r hk c _
  obtain ⟨hlen, -⟩ := List.getElem?_eq_some_iff.mp hk
  refine h (Selective.unitColumns n rows) (Selective.unitColumns n [r]) rfl k 0 hlen
    Nat.zero_lt_one (fun i hi => ?_) c
  have hi : i < n := hi
  have hfirst : [r][0]? = some r := rfl
  rw [Selective.get_unitColumns hk hi, Selective.get_unitColumns hfirst hi]

end Solvers

/-! ### Cholesky factors -/

section Cholesky

variable {α : Type} [Zero α]

/-- Each column of the result is made of the same column alone, wherever it stands and whatever
stands beside it. -/
structure Dense.Columnwise (f : Dense α → Dense α) : Prop where
  rows_eq : ∀ B B' : Dense α, B.rows = B'.rows → (f B).rows = (f B').rows
  cols_eq : ∀ B, (f B).cols = B.cols
  get_eq : ∀ B B' : Dense α, B.rows = B'.rows → ∀ k k', k < B.cols → k' < B'.cols →
    (∀ i, i < B.rows → B.get i k = B'.get i k') → ∀ i, (f B).get i k = (f B').get i k'

namespace Dense

/-- Columns that agree where there are rows agree everywhere. -/
theorem get_eq_of_rows {B B' : Dense α} (hrows : B.rows = B'.rows) {k k' : Nat}
    (h : ∀ i, i < B.rows → B.get i k = B'.get i k') (i : Nat) : B.get i k = B'.get i k' := by
  by_cases hi : i < B.rows
  · exact h i hi
  · rw [B.get_of_rows_le k (by omega), B'.get_of_rows_le k' (by omega)]

theorem Columnwise.comp {f g : Dense α → Dense α} (hf : Columnwise f) (hg : Columnwise g) :
    Columnwise (f ∘ g) where
  rows_eq B B' h := hf.rows_eq _ _ (hg.rows_eq B B' h)
  cols_eq B := (hf.cols_eq (g B)).trans (hg.cols_eq B)
  get_eq B B' h k k' hk hk' hcolumn := by
    refine hf.get_eq _ _ (hg.rows_eq B B' h) k k' ?_ ?_ fun i _ =>
      hg.get_eq B B' h k k' hk hk' hcolumn i
    · rw [hg.cols_eq]
      exact hk
    · rw [hg.cols_eq]
      exact hk'

theorem columnwise_takeRows (order : List Nat) : Columnwise (takeRows order : Dense α → Dense α) where
  rows_eq _ _ _ := rfl
  cols_eq _ := rfl
  get_eq B B' h k k' hk hk' hcolumn i := by
    simp only [takeRows, get_ofFn, hk, hk', get_eq_of_rows h hcolumn]

theorem columnwise_putRows (order : List Nat) : Columnwise (putRows order : Dense α → Dense α) where
  rows_eq _ _ h := h
  cols_eq _ := rfl
  get_eq B B' h k k' hk hk' hcolumn i := by
    simp only [putRows, get_ofFn, hk, hk', h, get_eq_of_rows h hcolumn]

end Dense

/-- A Cholesky factor solves for each right side on its own, if its triangular systems are solved
like that: rows are rearranged, and columns are not. -/
theorem CholeskyLibrary.columnwise_factorization [Mul α] {library : CholeskyLibrary α}
    {c : Cholesky α} (hlower : Dense.Columnwise (library.solveLower c.lower))
    (hupper : Dense.Columnwise (library.solveUpper c.lower.transpose)) :
    (library.factorization c).Columnwise :=
  ((Dense.columnwise_putRows c.order).comp
    (hupper.comp (hlower.comp (Dense.columnwise_takeRows c.order)))).get_eq

end Cholesky

/-! ### Engines -/

section Engines

variable {α : Type} [Zero α] [Add α] [Sub α] [Neg α] [Mul α] [Div α] [BEq α]

/-- All factorisations of normal equations by an engine, with either library, treat each right side
on its own. -/
def Engine.Columnwise (engine : Engine α) : Prop :=
  ∀ library J f, Covariance.factorNormal engine library J = .ok f → f.Columnwise

/-- An engine of elimination, and of a Cholesky library that treats each right side on its own, is
one of these. -/
theorem Engine.columnwise_of_elimination {engine : Engine α}
    (helimination : engine.factor = Symmetric.factorization)
    (hcholesky : ∀ library, engine.cholesky = some library → ∀ J c,
      library.factor J = .ok c → (library.factorization c).Columnwise) : engine.Columnwise := by
  intro library J f h
  rcases Covariance.factorNormal_eq_ok h with ⟨-, hfactor⟩ | ⟨-, installed, c, hlibrary, hc, rfl⟩
  · rw [helimination] at hfactor
    exact Symmetric.columnwise_factorization hfactor
  · exact hcholesky installed hlibrary J c hc

end Engines

/-- The engine that runs is one of these. -/
theorem Engine.columnwise_native : Engine.native.Columnwise :=
  columnwise_of_elimination rfl fun _ h => by cases h

theorem Engine.columnwise_exact {K : Type} [Field K] [LinearOrder K] :
    (Engine.exact : Engine K).Columnwise :=
  columnwise_of_elimination rfl fun _ h => by cases h

theorem Dense.columnwise_divided (T : Dense ℚ) : Columnwise T.divided where
  rows_eq _ _ _ := rfl
  cols_eq _ := rfl
  get_eq B B' h k k' hk hk' hcolumn i := by
    simp only [divided, get_ofFn, hk, hk', get_eq_of_rows h hcolumn]

theorem Engine.columnwise_installed : Engine.installed.Columnwise :=
  columnwise_of_elimination rfl fun _ h _ _ _ => Option.some.inj h ▸
    CholeskyLibrary.columnwise_factorization (Dense.columnwise_divided _)
      (Dense.columnwise_divided _)

namespace Selective

variable {α : Type} [Zero α] [One α]

/-- The entry in row `r` and column `c` of an inverse, by the solution for the unit column `r`. -/
def solved (solve : Dense α → Dense α) (n r c : Nat) : α := (solve (unitColumns n [r])).get c 0

/-- A solver that treats each right side on its own finds the entries of one function along every
pattern, on any threads. -/
theorem invert_of_columnwise {f : Factorization α} (h : f.Columnwise) {p : Pattern}
    (r : p.Regular) (schedule : Schedule) (threads : Int) :
    invert schedule threads f.solve p = Truncation.gather (solved f.solve p.numRows) p :=
  invert_eq_gather (h.solvesUnits p.numRows) (fun _ hi _ hj => r.lt_of_stores ⟨hi, hj⟩)
    schedule threads

/-- Threads that fill in the values of a pattern in place find those of any other threads, and write
every position once. -/
theorem run_fillPart_of_columnwise {f : Factorization α} (h : f.Columnwise) {p : Pattern}
    (r : p.Regular) (schedule schedule' : Schedule) (threads threads' : Int) :
    ∃ written asked,
      Parallel.run schedule ⟨0, (storedRows p).length⟩ threads
          (fillPart f.solve p (storedRows p).toArray) (Filling.blank p.nonzeros) =
        (⟨invert schedule' threads' f.solve p, written, asked⟩, none) ∧
      written.Perm (List.range p.nonzeros) := by
  have hrun := run_fillPart r.toWellFormed r.square.symm (h.solvesUnits p.numRows) schedule threads
  have hsame : invert schedule' threads' f.solve p = invert schedule threads f.solve p := by
    rw [invert_of_columnwise h r, invert_of_columnwise h r]
  rw [hsame]
  exact ⟨_, _, hrun, perm_positions r.toWellFormed schedule threads⟩

end Selective

/-! ## Other threads -/

/-- The same services on threads that run in another order. -/
def Engine.withSchedule {α : Type} (engine : Engine α) (schedule : Schedule) : Engine α :=
  { engine with schedule := schedule }

/-- The same options for another number of threads. -/
def Options.withThreads {α : Type} (options : Options α) (threads : Int) : Options α :=
  { options with threads := threads }

/-- The parts in the opposite order. -/
def Schedule.reversed : Schedule := ⟨List.reverse, List.reverse_perm⟩

namespace Covariance

variable {α : Type}

/-- The same covariance with options for another number of threads. -/
def withThreads (c : Covariance α) (threads : Int) : Covariance α :=
  { c with options := c.options.withThreads threads }

variable [Zero α] [One α] [Add α] [Mul α] [Div α] [NatCast α]

/-- A joint matrix is answered in the same way on any threads. -/
theorem answer_matrix_withThreads (engine : Engine α) (c : Covariance α) (schedule : Schedule)
    (threads : Int) (problem : Problem α) (coordinates : Coordinates) (handles : List Atom) :
    ((c.withThreads threads).matrix (engine.withSchedule schedule) problem coordinates
      handles).answer = (c.matrix engine problem coordinates handles).answer := by
  unfold matrix whenReady withThreads
  cases c.computed with
  | false => rfl
  | true =>
    cases c.estimate with
    | absent => rfl
    | failed plan => rfl
    | ready plan values =>
      simp only [if_true]
      rw [answer_matrixIn, answer_matrixIn]

variable [Neg α] [BEq α] [LT α] [DecidableLT α] [LE α] [DecidableLE α] [Elementary α]
  {engine : Engine α}

/-- The values of a regular pattern are found by any threads. -/
theorem values_withThreads (columnwise : engine.Columnwise) (options : Options α)
    (J : Compressed α) {p : Pattern} (r : p.Regular) (schedule : Schedule) (threads : Int) :
    values (engine.withSchedule schedule) (options.withThreads threads) J p =
      values engine options J p := by
  have hfactored : valuesByFactor (engine.withSchedule schedule) (options.withThreads threads) J p =
      valuesByFactor engine options J p := by
    have hsame : factorNormal (engine.withSchedule schedule) (options.withThreads threads).library
        J = factorNormal engine options.library J := rfl
    unfold valuesByFactor
    rw [hsame]
    cases hfactor : factorNormal engine options.library J with
    | error line => rfl
    | ok f =>
      dsimp only [Engine.withSchedule, Options.withThreads]
      simp only [Selective.invert_of_columnwise (columnwise _ J f hfactor) r]
  unfold values
  rw [hfactored]
  rfl

variable [Sub α]

/-- A plan is filled with the same by any threads. -/
theorem fillPlan_withThreads (columnwise : engine.Columnwise) (options : Options α)
    (problem : Problem α) {plan : Plan} (r : plan.pattern.Regular) (schedule : Schedule)
    (threads : Int) :
    fillPlan (engine.withSchedule schedule) (options.withThreads threads) problem plan =
      fillPlan engine options problem plan := by
  unfold fillPlan estimateValues
  simp only [values_withThreads columnwise options _ r]
  rw [problem.jacobian_eq_of_threads (engine.withSchedule schedule).schedule engine.schedule
    plan.bounds (options.withThreads threads).applyLoss (options.withThreads threads).threads
    options.threads]
  rfl

/-- **Other threads, the same computation.** -/
theorem compute_withThreads (columnwise : engine.Columnwise) (c : Covariance α)
    (problem : Problem α) (request : List Item) (schedule : Schedule) (threads : Int) :
    compute (engine.withSchedule schedule) (c.withThreads threads) problem request =
      (compute engine c problem request).mapState fun c => c.withThreads threads := by
  unfold compute
  cases hpairs : Request.pairs request with
  | error e => rfl
  | ok pairs =>
    dsimp only
    cases hplan : (Plan.make problem
        (pairs.map fun pair => .list [.integer pair.1, .integer pair.2])).answer with
    | error e => rfl
    | ok plan =>
      obtain ⟨found, -, -, rfl⟩ := Plan.exists_of_make hplan
      have hfilled := fillPlan_withThreads columnwise c.options problem
        (Plan.regular_ofPairs (ColumnBounds.tiled_make problem true) found) schedule threads
      dsimp only [withThreads]
      rw [hfilled]
      cases (fillPlan engine c.options problem _).answer with
      | error e => rfl
      | ok filled => cases filled <;> rfl

/-- The covariance after some calls, each on threads that run in an order of its own. -/
def afterOn {ι : Type} (engine : Engine α) (options : Options α)
    (calls : List (Schedule × Call ι α)) : Covariance α :=
  calls.foldl (fun c call =>
    (compute (engine.withSchedule call.1) c call.2.problem call.2.request).state)
    (ofOptions options)

/-- **Other threads, the same history.** After any calls the covariance is the same, however many
threads there were and in whatever order each call ran them. -/
theorem afterOn_withThreads {ι : Type} (columnwise : engine.Columnwise) (options : Options α)
    (threads : Int) (calls : List (Schedule × Call ι α)) :
    afterOn engine (options.withThreads threads) calls =
      (after engine options (calls.map Prod.snd)).withThreads threads := by
  induction calls using List.reverseRecOn with
  | nil => rfl
  | append_singleton calls call ih =>
    rw [List.map_append, List.map_singleton, after_concat]
    unfold afterOn at ih ⊢
    rw [List.foldl_append, List.foldl_cons, List.foldl_nil, ih,
      compute_withThreads columnwise, Outcome.state_mapState]

/-! ## What can be seen -/

/-- Only what was computed is ready. -/
theorem computed_of_ready {c : Covariance α} {problem : Problem α} {request : List Item}
    {plan : Plan} {values : Array α}
    (h : (compute engine c problem request).state.estimate = .ready plan values) :
    (compute engine c problem request).state.computed = true := by
  cases hplan : planOf problem request with
  | error e =>
    rw [(compute_of_refused hplan engine c).2] at h
    cases h
  | ok planned => rw [(compute_eq hplan engine c).2]

/-- **The number of threads does not matter.** Take a covariance and the same with options for
another number of threads, and threads that run in any other order. A computation answers the same,
writes the same lines and leaves the same covariance, values included. Each of its loops may run in
an order of its own: the Jacobian and the values of the plan are still the same, and where an
evaluation fails, the first residual block that fails decides how. Whatever problem is asked about
afterwards, every block and every joint matrix is answered in the same way, and a joint matrix that
fails does so with the fault of its first pair that fails, row by row through the upper triangle.

No thread writes where another one does. Values that are filled in in place are those of the
computation, and every position is written once. A pair of a joint matrix changes its own entries
and its own mark alone, and the entries of all pairs, mirrored ones included, are those of the
matrix, each of them once. Of the engine it is assumed that its solver treats each right side on its
own. -/
theorem computed_on_threads (columnwise : engine.Columnwise) (c : Covariance α)
    (problem : Problem α) (request : List Item) (schedule : Schedule) (threads : Int) :
    let one := compute engine c problem request
    let other := compute (engine.withSchedule schedule) (c.withThreads threads) problem request
    other.answer = one.answer ∧ other.log = one.log ∧
      other.state = one.state.withThreads threads ∧
      (∀ (schedule' : Schedule) bounds,
        problem.jacobian schedule' bounds c.options.applyLoss threads =
          problem.jacobian engine.schedule bounds c.options.applyLoss c.options.threads) ∧
      (∀ (schedule' : Schedule) plan J, planOf problem request = .ok plan →
        values (engine.withSchedule schedule') (c.options.withThreads threads) J plan.pattern =
          values engine c.options J plan.pattern) ∧
      (∀ plan projections e, planOf problem request = .ok plan → plan.pattern.nonzeros ≠ 0 →
        problem.projections plan.bounds = .ok projections →
        FailsFirst (problem.evaluate projections c.options.applyLoss) problem.residuals.toList e →
        other.answer = .error e) ∧
      -- in place
      (∀ (schedule' : Schedule) plan J f, planOf problem request = .ok plan →
        factorNormal engine c.options.library J = .ok f →
        ∃ written questions,
          Parallel.run schedule' ⟨0, (Selective.storedRows plan.pattern).length⟩ threads
              (Selective.fillPart f.solve plan.pattern
                (Selective.storedRows plan.pattern).toArray)
              (Selective.Filling.blank plan.pattern.nonzeros) =
            (⟨Selective.invert engine.schedule c.options.threads f.solve plan.pattern, written,
              questions⟩, none) ∧
          written.Perm (List.range plan.pattern.nonzeros)) ∧
      (∀ sizes : List Nat,
        let layout := Layout.ofSizes sizes
        ((List.range (Triangle.count sizes.length)).flatMap layout.entriesOf).Perm
            (List.range (layout.side * layout.side)) ∧
          ∀ k found (canvas : Canvas α),
            (∀ p, p ∉ layout.entriesOf k →
              (canvas.put layout k found).entries[p]? = canvas.entries[p]?) ∧
            ∀ k', k' ≠ k → (canvas.put layout k found).missing[k']? = canvas.missing[k']?) ∧
      -- queries
      ∀ (schedule' : Schedule) (asked : Problem α) (coordinates : Coordinates),
        (∀ a b, other.state.block asked coordinates a b =
          one.state.block asked coordinates a b) ∧
        ∀ handles,
          (other.state.matrix (engine.withSchedule schedule') asked coordinates handles).answer =
            (one.state.matrix engine asked coordinates handles).answer ∧
          ∀ plan values blocks e, one.state.estimate = .ready plan values →
            handles.mapM asked.block = .ok blocks →
            FailsFirst (placed plan values asked coordinates)
              (Request.allPairs (handles.zip (blocks.map coordinates.size))) e →
            (other.state.matrix (engine.withSchedule schedule') asked coordinates handles).answer =
              .error e := by
  intro one other
  have hother : other = one.mapState fun c => c.withThreads threads :=
    compute_withThreads columnwise c problem request schedule threads
  refine ⟨by rw [hother]; rfl, by rw [hother]; rfl, by rw [hother]; rfl,
    fun schedule' bounds => problem.jacobian_eq_of_threads _ _ _ _ _ _,
    fun schedule' plan J hplan =>
      values_withThreads columnwise c.options J (regular_of_planOf hplan).1 schedule' threads,
    ?_, fun schedule' plan J f hplan hfactor =>
      Selective.run_fillPart_of_columnwise (columnwise _ J f hfactor) (regular_of_planOf hplan).1 _
        _ _ _,
    fun sizes => ⟨Layout.perm_entriesOf sizes, fun k found canvas => canvas.put_frame _ k found⟩,
    ?_⟩
  · intro plan projections e hplan hnonzeros hprojections hfails
    have hjacobian := Problem.jacobian_of_failsFirst hprojections hfails engine.schedule
      c.options.threads
    rw [hother, Outcome.answer_mapState, (compute_eq hplan engine c).1, fillPlan,
      if_neg hnonzeros]
    simp only [hjacobian, Except.map]
  · intro schedule' asked coordinates
    refine ⟨fun a b => by rw [hother]; rfl, fun handles => ?_⟩
    have hmatrix := answer_matrix_withThreads engine one.state schedule' threads asked coordinates
      handles
    rw [hother, Outcome.state_mapState]
    refine ⟨hmatrix, ?_⟩
    intro plan values blocks e hready hblocks hfails
    have hcomputed : one.state.computed = true := computed_of_ready hready
    rw [hmatrix]
    unfold matrix whenReady
    rw [if_pos hcomputed, hready]
    dsimp only
    rw [answer_matrixIn, hblocks]
    simp only [placedAll, mapM_eq_error_iff_failsFirst.mpr hfails, Except.map]

/-- Two residuals on three threads that run in the opposite order, with either library. -/
theorem computed_on_three_threads :
    (compute (Engine.exact.withSchedule .reversed) ((plain .sparseQr).withThreads 3)
        (oneBlock 2 #[2, 0, 0, 1]) itself).answer = .ok true ∧
      (compute (Engine.exact.withSchedule .reversed) ((plain .sparseQr).withThreads 3)
        (oneBlock 2 #[2, 0, 0, 1]) itself).state =
          (compute Engine.exact (plain .sparseQr) (oneBlock 2 #[2, 0, 0, 1])
            itself).state.withThreads 3 ∧
      (compute (Engine.installed.withSchedule .reversed) ((plainCholesky .sparseQr).withThreads 3)
        (oneBlock 2 #[2, 0, 0, 1]) itself).answer = .ok true ∧
      (compute (Engine.installed.withSchedule .reversed) ((plainCholesky .sparseQr).withThreads 3)
        (oneBlock 2 #[2, 0, 0, 1]) itself).state =
          (compute Engine.installed (plainCholesky .sparseQr) (oneBlock 2 #[2, 0, 0, 1])
            itself).state.withThreads 3 := by
  obtain ⟨hanswer, -, hstate, -⟩ := computed_on_threads Engine.columnwise_exact (plain .sparseQr)
    (oneBlock 2 #[2, 0, 0, 1]) itself .reversed 3
  obtain ⟨hanswer', -, hstate', -⟩ := computed_on_threads Engine.columnwise_installed
    (plainCholesky .sparseQr) (oneBlock 2 #[2, 0, 0, 1]) itself .reversed 3
  exact ⟨hanswer.trans (answer_square .sparseQr), hstate,
    hanswer'.trans (answer_square_installed .sparseQr), hstate'⟩

end Covariance

end LeastSquares
