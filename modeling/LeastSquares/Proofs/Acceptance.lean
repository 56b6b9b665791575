/-
LeastSquares.Proofs.Acceptance — which Jacobians of a cost are accepted.

A cost may bring a function for its Jacobians, and what that function returns is looked at in one
respect only: in pairs with the parameter vectors, each Jacobian must have the right number of
entries. This module says what follows. `Cost.misfit?` is the fault of the first pair of a wrong
size, and nothing else is ever refused. What is accepted is read as if the cost had been written
properly: `Cost.tidied` cuts off the surplus Jacobians and gives the others the right shape, and no
computation can tell the two costs apart (`Problem.jacobian_tidied`, `Covariance.compute_tidied`).
Where Jacobians are missing at the end, the columns of their blocks stay empty.
-/
import LeastSquares.Proofs.ChainRule
import LeastSquares.Proofs.Estimation

namespace LeastSquares

variable {α : Type}

/-! ## Sizes -/

namespace Cost

/-- The fault of the first Jacobian whose number of entries is not the number of residuals times
the number of parameters. -/
def misfit? (residuals : Nat) (values : List (Array α)) (Ts : List (Tensor α)) : Option Fault :=
  (values.zip Ts).findSome? fun xT =>
    if xT.2.data.size = residuals * xT.1.size then none
    else some (.jacobianShape xT.2.shape residuals xT.1.size)

/-- Nothing is wrong where all pairs of a parameter vector and a Jacobian go together in size. -/
theorem misfit?_eq_none_iff {residuals : Nat} {values : List (Array α)} {Ts : List (Tensor α)} :
    misfit? residuals values Ts = none ↔
      ∀ xT ∈ values.zip Ts, xT.2.data.size = residuals * xT.1.size := by
  rw [misfit?, List.findSome?_eq_none_iff]
  refine forall₂_congr fun xT _ => ?_
  split
  · rename_i hsize
    simp [hsize]
  · rename_i hsize
    simp [hsize]

variable [Zero α]

theorem failure?_readJacobian (residuals : Nat) (x : Array α) (T : Tensor α) :
    failure? (readJacobian residuals x T) =
      if T.data.size = residuals * x.size then none
      else some (.jacobianShape T.shape residuals x.size) := by
  unfold readJacobian
  split
  · rfl
  · rfl

/-- Reading fails for the first Jacobian of a wrong size. -/
theorem readJacobians_eq_error_iff {residuals : Nat} {values : List (Array α)}
    {Ts : List (Tensor α)} {e : Fault} :
    readJacobians residuals values Ts = .error e ↔ misfit? residuals values Ts = some e := by
  rw [readJacobians_eq, mapM_eq_error_iff, misfit?]
  simp only [failure?_readJacobian]

/-- Jacobians of the right sizes are read in row-major order, whatever their shapes are. -/
theorem readJacobians_eq_ok {residuals : Nat} {values : List (Array α)} {Ts : List (Tensor α)}
    (h : misfit? residuals values Ts = none) :
    readJacobians residuals values Ts =
      .ok ((values.zip Ts).map fun xT => Dense.ofArray residuals xT.1.size xT.2.data) := by
  rw [readJacobians_eq, mapM_eq_ok_iff, List.map_map]
  refine List.map_congr_left fun xT hxT => ?_
  simp only [readJacobian, if_pos (misfit?_eq_none_iff.mp h xT hxT), Function.comp_apply]

section Returned

variable {cost : Cost α} {values : List (Array α)} {residual : Array α} {Ts : List (Tensor α)}

/-- What a cost is evaluated to is decided by reading its Jacobians. -/
theorem evaluate_of_returned (hresidual : cost.residual values = .ok residual)
    (hTs : cost.jacobians values = .ok Ts) :
    cost.evaluate values = (readJacobians residual.size values Ts).map fun Js => (residual, Js) := by
  simp only [evaluate, hresidual, hTs]
  cases readJacobians residual.size values Ts <;> rfl

theorem evaluate_eq_error_iff (hresidual : cost.residual values = .ok residual)
    (hTs : cost.jacobians values = .ok Ts) {e : Fault} :
    cost.evaluate values = .error e ↔ misfit? residual.size values Ts = some e := by
  rw [evaluate_of_returned hresidual hTs, ← readJacobians_eq_error_iff]
  cases readJacobians residual.size values Ts <;> simp [Except.map]

end Returned

end Cost

/-! ## The same cost, written properly -/

/-- A tensor as a matrix of given sizes, if it has the entries for it. -/
def Tensor.reshaped (T : Tensor α) (rows cols : Nat) : Tensor α :=
  if T.data.size = rows * cols then ⟨[rows, cols], T.data⟩ else T

@[simp] theorem Tensor.data_reshaped (T : Tensor α) (rows cols : Nat) :
    (T.reshaped rows cols).data = T.data := by
  unfold reshaped
  split
  · rfl
  · rfl

theorem Tensor.shape_reshaped {T : Tensor α} {rows cols : Nat} (h : ¬ T.data.size = rows * cols) :
    (T.reshaped rows cols).shape = T.shape := by
  rw [reshaped, if_neg h]

/-- The cost whose Jacobians are no more than its parameter vectors, each of them a matrix with a
row for each residual and a column for each parameter. -/
def Cost.tidied (cost : Cost α) : Cost α where
  residual := cost.residual
  jacobians values := do
    let residual ← cost.residual values
    let Ts ← cost.jacobians values
    return (values.zip Ts).map fun xT => xT.2.reshaped residual.size xT.1.size
  loss := cost.loss

/-- The problem of the same residual blocks with the tidied costs. -/
def Problem.tidied (p : Problem α) : Problem α :=
  { p with residuals := p.residuals.map fun r => { r with cost := r.cost.tidied } }

namespace Cost

variable [Zero α]

/-- Surplus Jacobians are not read, and the shape of the others only stands in a fault. -/
theorem readJacobians_reshaped (residuals : Nat) (values : List (Array α)) (Ts : List (Tensor α)) :
    readJacobians residuals values
        ((values.zip Ts).map fun xT => xT.2.reshaped residuals xT.1.size) =
      readJacobians residuals values Ts := by
  induction values generalizing Ts with
  | nil => rfl
  | cons x xs ih =>
    cases Ts with
    | nil => rfl
    | cons T Ts =>
      rw [List.zip_cons_cons, List.map_cons, readJacobians, readJacobians, ih]
      simp only [Tensor.data_reshaped]
      split
      · rfl
      · rename_i hsize
        rw [Tensor.shape_reshaped hsize]

/-- A cost and the tidied one are evaluated alike. -/
theorem evaluate_tidied (cost : Cost α) (values : List (Array α)) :
    cost.tidied.evaluate values = cost.evaluate values := by
  simp only [evaluate, tidied, bind, Except.bind, pure, Except.pure]
  cases cost.residual values with
  | error e => rfl
  | ok residual =>
    cases cost.jacobians values with
    | error e => rfl
    | ok Ts => simp only [readJacobians_reshaped]

end Cost

namespace Problem

@[simp] theorem blocks_tidied (p : Problem α) : p.tidied.blocks = p.blocks := rfl

/-- The columns do not depend on the costs. -/
theorem make_tidied (p : Problem α) (tangentSpace : Bool) :
    ColumnBounds.make p.tidied tangentSpace = ColumnBounds.make p tangentSpace := by
  have huses : ∀ i, p.tidied.uses i = p.uses i := fun i => by
    rw [uses, tidied, Array.any_map]
    rfl
  have hwidth : ColumnBounds.width p.tidied tangentSpace = ColumnBounds.width p tangentSpace := by
    funext i
    simp only [ColumnBounds.width, huses]
    rfl
  simp only [ColumnBounds.make, hwidth, blocks_tidied]

/-- Stacking looks at the blocks of a residual block and not at its cost. -/
theorem stack_tidied (bounds : ColumnBounds) (row : Nat) (residuals : List (ResidualBlock α))
    (found : List (Evaluated α)) :
    stack bounds row ((residuals.map fun r => { r with cost := r.cost.tidied }).zip found) =
      stack bounds row (residuals.zip found) := by
  induction residuals generalizing row found with
  | nil => rfl
  | cons r residuals ih =>
    cases found with
    | nil => rfl
    | cons e found =>
      rw [List.map_cons, List.zip_cons_cons, List.zip_cons_cons, stack, stack, ih]

variable [Zero α] [One α] [Add α] [Sub α] [Mul α] [Div α] [NatCast α] [BEq α] [LE α]
  [DecidableLE α] [Elementary α]

/-- **Tidying changes nothing.** The Jacobian of a problem, its fault and its log line are those of
the problem with the tidied costs. -/
theorem jacobian_tidied (p : Problem α) (schedule : Schedule) (bounds : ColumnBounds)
    (applyLoss : Bool) (threads : Int) :
    p.tidied.jacobian schedule bounds applyLoss threads =
      p.jacobian schedule bounds applyLoss threads := by
  have hevaluate : ∀ (Ps : Array (Option (Dense α))) (r : ResidualBlock α),
      p.tidied.evaluate Ps applyLoss { r with cost := r.cost.tidied } =
        p.evaluate Ps applyLoss r := by
    intro Ps r
    have hvalues : p.tidied.valuesOf { r with cost := r.cost.tidied } = p.valuesOf r := rfl
    simp only [evaluate, hvalues, Cost.evaluate_tidied]
    rfl
  have hresiduals : p.tidied.residuals.toList =
      p.residuals.toList.map fun r => { r with cost := r.cost.tidied } := Array.toList_map
  have hprojections : p.tidied.projections bounds = p.projections bounds := rfl
  have hevaluateAll : p.tidied.evaluateAll schedule bounds applyLoss threads =
      p.evaluateAll schedule bounds applyLoss threads := by
    rw [evaluateAll_eq, evaluateAll_eq, hprojections, hresiduals]
    cases p.projections bounds with
    | error e => rfl
    | ok Ps =>
      simp only [List.mapM_map]
      exact mapM_congr fun r _ => hevaluate Ps r
  have hsize : p.tidied.residuals.size = p.residuals.size := Array.size_map
  unfold jacobian
  simp only [hevaluateAll, hresiduals, stack_tidied, hsize]

end Problem

namespace Covariance

variable [Zero α] [One α] [Add α] [Sub α] [Neg α] [Mul α] [Div α] [NatCast α] [BEq α] [LT α]
  [DecidableLT α] [LE α] [DecidableLE α] [Elementary α]

/-- What is computed is the same with the tidied costs: the answer, the estimate and the log. -/
theorem compute_tidied (engine : Engine α) (c : Covariance α) (p : Problem α)
    (request : List Item) : compute engine c p.tidied request = compute engine c p request := by
  have hmake : ∀ items, Plan.make p.tidied items = Plan.make p items := by
    intro items
    have haccept : Plan.accept p.tidied items = Plan.accept p items := rfl
    simp only [Plan.make, haccept, Problem.make_tidied]
  have hfill : ∀ plan, fillPlan engine c.options p.tidied plan =
      fillPlan engine c.options p plan := by
    intro plan
    simp only [fillPlan, Problem.jacobian_tidied]
  unfold compute
  simp only [hmake, hfill]

end Covariance

/-! ## What a Jacobian of the problem makes of them -/

namespace Problem

variable [Zero α] [One α] [Add α] [Sub α] [Mul α] [Div α] [NatCast α] [BEq α] [LE α]
  [DecidableLE α] [Elementary α] {p : Problem α} {k : Nat} {r : ResidualBlock α}

/-- A residual block that is refused refuses the Jacobian. -/
theorem jacobian_eq_error {e : Fault} (hr : r ∈ p.residuals)
    (h : r.cost.evaluate (p.valuesOf r) = .error e) (schedule : Schedule) (bounds : ColumnBounds)
    (applyLoss : Bool) (threads : Int) :
    ∃ e', (p.jacobian schedule bounds applyLoss threads).answer = .error e' := by
  cases hJ : (p.jacobian schedule bounds applyLoss threads).answer with
  | error e' => exact ⟨e', rfl⟩
  | ok J =>
    obtain ⟨Ps, found, -, -, -, hfound, -, -⟩ := jacobian_eq_ok_iff.mp hJ
    obtain ⟨evaluated, -, hevaluate⟩ :=
      exists_mem_of_mapM_eq_ok hfound (Array.mem_toList_iff.mpr hr)
    obtain ⟨residual, Js, -, hcost, -⟩ := evaluate_eq_ok_iff.mp hevaluate
    rw [h] at hcost
    cases hcost

/-- The fault is that of the first residual block that is refused. -/
theorem jacobian_eq_first_error {e : Fault} (hr : p.residuals[k]? = some r)
    (h : r.cost.evaluate (p.valuesOf r) = .error e) {bounds : ColumnBounds}
    {Ps : Array (Option (Dense α))} (hPs : p.projections bounds = .ok Ps) {applyLoss : Bool}
    (hbefore : ∀ r' ∈ p.residuals.toList.take k, ∃ found, p.evaluate Ps applyLoss r' = .ok found)
    (schedule : Schedule) (threads : Int) :
    (p.jacobian schedule bounds applyLoss threads).answer = .error e := by
  have hevaluate : p.evaluate Ps applyLoss r = .error e := by
    simp only [evaluate, h, bind, Except.bind]
  have hr' : p.residuals.toList[k]? = some r := by rw [Array.getElem?_toList]; exact hr
  obtain ⟨hk, hget⟩ := List.getElem?_eq_some_iff.mp hr'
  have hsplit : p.residuals.toList =
      p.residuals.toList.take k ++ r :: p.residuals.toList.drop (k + 1) := by
    rw [← hget, List.getElem_cons_drop, List.take_append_drop]
  exact jacobian_of_failsFirst hPs ⟨_, r, _, hsplit, hevaluate, hbefore⟩ schedule threads

variable {residual : Array α} {Ts : List (Tensor α)}

/-- Where a Jacobian is missing, the columns of its block stay empty in the rows of the residual
block. -/
theorem stored_missing (s : p.Sound) {tangentSpace : Bool} {schedule : Schedule} {applyLoss : Bool}
    {threads : Int} {J : Compressed α}
    (h : (p.jacobian schedule (ColumnBounds.make p tangentSpace) applyLoss threads).answer = .ok J)
    (hr : p.residuals[k]? = some r) (hresidual : r.cost.residual (p.valuesOf r) = .ok residual)
    (hTs : r.cost.jacobians (p.valuesOf r) = .ok Ts) {j i : Nat} (hj : r.blocks[j]? = some i)
    (hmissing : Ts.length ≤ j) {u v : Nat} (hu : u < residual.size)
    (hv : v < (ColumnBounds.make p tangentSpace).widthAt i) :
    J.stored? (p.rowStart k + u)
      (((ColumnBounds.make p tangentSpace).rangeAt i).first + v) = none := by
  obtain ⟨Ps, found, -, hfound, -, -, hstored⟩ :=
    stored_jacobian s (ColumnBounds.tiled_make p tangentSpace)
      (ColumnBounds.size_ranges_make p tangentSpace) h
  have hr' : p.residuals.toList[k]? = some r := by rw [Array.getElem?_toList]; exact hr
  obtain ⟨e, he, hevaluate⟩ := getElem?_of_mapM_eq_ok hfound hr'
  have hcount : p.residualCount r = residual.size := by rw [residualCount, hresidual]
  rw [(hstored k r e hr he).2 i u v (by rw [hcount]; exact hu) hv,
    lookup_zip (s.nodup r (Array.mem_of_getElem? hr)) hj]
  -- a residual block has no more projected Jacobians than its cost returned
  obtain ⟨residual', Js, corrections, hcost, hcorrected, hproject, -⟩ :=
    evaluate_eq_ok_iff.mp hevaluate
  obtain ⟨hresidual', Ts', hTs', hread⟩ := Cost.evaluate_eq_ok_iff.mp hcost
  rw [hTs, Except.ok.injEq] at hTs'
  subst hTs'
  have hlength : e.jacobians.length ≤ Ts.length := by
    obtain ⟨f, rfl, -⟩ := exists_map_of_corrected hcorrected
    rw [project_eq] at hproject
    rw [Cost.readJacobians_eq] at hread
    rw [length_of_mapM_eq_ok hproject, List.length_zip, List.length_map,
      length_of_mapM_eq_ok hread, List.length_zip]
    omega
  rw [List.getElem?_eq_none (Nat.le_trans hlength hmissing)]
  rfl

variable [Neg α] [LT α] [DecidableLT α]

/-- A residual block that is refused refuses every computation of a block with columns. -/
theorem compute_eq_error {e : Fault} (hr : r ∈ p.residuals)
    (h : r.cost.evaluate (p.valuesOf r) = .error e) {request : List Item} {plan : Plan}
    (hplan : Covariance.planOf p request = .ok plan) {i j : Nat}
    (hrequested : Covariance.Requested request i j) (hi : 0 < plan.bounds.widthAt i)
    (hj : 0 < plan.bounds.widthAt j) (engine : Engine α) (c : Covariance α) :
    ∃ e', (c.compute engine p request).answer = .error e' := by
  have hne := Covariance.nonzeros_ne_zero_of_requested hplan hrequested hi hj
  obtain ⟨e', he'⟩ :=
    jacobian_eq_error hr h engine.schedule plan.bounds c.options.applyLoss c.options.threads
  refine ⟨e', ?_⟩
  rw [(Covariance.compute_eq hplan engine c).1, Covariance.fillPlan, if_neg hne]
  simp only [he', Except.map]

/-- **Jacobians are accepted by their sizes.** Take a residual block of a problem that calls have
made, with a residual and a list of Jacobians. It is refused exactly for a Jacobian that does not
go together in size with its parameter vector, and is otherwise evaluated to what the entries of the
Jacobians are in row-major order. A refused one refuses the Jacobian of the problem, with its own
fault where nothing before it fails, and every computation of a block with columns. Of an accepted
one the Jacobian of the problem does not know how many Jacobians there were nor their shapes, and it
stores nothing in the columns of a block without a Jacobian. -/
theorem jacobian_by_size (reachable : p.Reachable) (hr : p.residuals[k]? = some r)
    (hresidual : r.cost.residual (p.valuesOf r) = .ok residual)
    (hTs : r.cost.jacobians (p.valuesOf r) = .ok Ts) :
    (∀ e, r.cost.evaluate (p.valuesOf r) = .error e ↔
      Cost.misfit? residual.size (p.valuesOf r) Ts = some e) ∧
    ((∀ xT ∈ (p.valuesOf r).zip Ts, xT.2.data.size = residual.size * xT.1.size) →
      r.cost.evaluate (p.valuesOf r) = .ok (residual, ((p.valuesOf r).zip Ts).map fun xT =>
        Dense.ofArray residual.size xT.1.size xT.2.data)) ∧
    (∀ e, Cost.misfit? residual.size (p.valuesOf r) Ts = some e →
      (∀ schedule bounds applyLoss threads,
        (∃ e', (p.jacobian schedule bounds applyLoss threads).answer = .error e') ∧
        ∀ Ps, p.projections bounds = .ok Ps →
          (∀ r' ∈ p.residuals.toList.take k, ∃ found, p.evaluate Ps applyLoss r' = .ok found) →
          (p.jacobian schedule bounds applyLoss threads).answer = .error e) ∧
      ∀ (engine : Engine α) (c : Covariance α) (request : List Item) (plan : Plan) (i j : Nat),
        Covariance.planOf p request = .ok plan → Covariance.Requested request i j →
        0 < plan.bounds.widthAt i → 0 < plan.bounds.widthAt j →
        ∃ e', (c.compute engine p request).answer = .error e') ∧
    (∀ schedule bounds applyLoss threads,
      p.tidied.jacobian schedule bounds applyLoss threads =
        p.jacobian schedule bounds applyLoss threads) ∧
    (∀ (engine : Engine α) (c : Covariance α) (request : List Item),
      c.compute engine p.tidied request = c.compute engine p request) ∧
    ∀ tangentSpace schedule applyLoss threads J,
      (p.jacobian schedule (ColumnBounds.make p tangentSpace) applyLoss threads).answer = .ok J →
      ∀ j i, r.blocks[j]? = some i → Ts.length ≤ j →
        ∀ u v, u < residual.size → v < (ColumnBounds.make p tangentSpace).widthAt i →
          J.stored? (p.rowStart k + u)
            (((ColumnBounds.make p tangentSpace).rangeAt i).first + v) = none ∧
          J.entry (p.rowStart k + u)
            (((ColumnBounds.make p tangentSpace).rangeAt i).first + v) = 0 := by
  have hmem : r ∈ p.residuals := Array.mem_of_getElem? hr
  have hrefused : ∀ {e}, Cost.misfit? residual.size (p.valuesOf r) Ts = some e →
      r.cost.evaluate (p.valuesOf r) = .error e :=
    (Cost.evaluate_eq_error_iff hresidual hTs).mpr
  refine ⟨fun e => Cost.evaluate_eq_error_iff hresidual hTs, ?_, ?_, p.jacobian_tidied,
    fun engine c => Covariance.compute_tidied engine c p, ?_⟩
  · intro hsizes
    rw [Cost.evaluate_of_returned hresidual hTs,
      Cost.readJacobians_eq_ok (Cost.misfit?_eq_none_iff.mpr hsizes)]
    rfl
  · intro e he
    refine ⟨fun schedule bounds applyLoss threads => ⟨?_, ?_⟩, ?_⟩
    · exact jacobian_eq_error hmem (hrefused he) schedule bounds applyLoss threads
    · intro Ps hPs hbefore
      exact jacobian_eq_first_error hr (hrefused he) hPs hbefore schedule threads
    · intro engine c request plan i j hplan hrequested hi hj
      exact compute_eq_error hmem (hrefused he) hplan hrequested hi hj engine c
  · intro tangentSpace schedule applyLoss threads J h j i hj hmissing u v hu hv
    have hnone := stored_missing reachable.sound h hr hresidual hTs hj hmissing hu hv
    exact ⟨hnone, Compressed.entry_of_stored_eq_none hnone⟩

/-! ## Three costs that nobody refuses

The first cost returns the transposed Jacobian, the second one forgets its last block, and the third
one returns a Jacobian too many. -/

/-- Three residuals of the first block, with a Jacobian of two rows and three columns. -/
def transposedCost : Cost ℚ where
  residual _ := .ok #[1, 1, 1]
  jacobians _ := .ok [⟨[2, 3], #[1, 2, 3, 4, 5, 6]⟩]
  loss := none

/-- One residual of both blocks, with a Jacobian for the first one only. -/
def shortCost : Cost ℚ where
  residual _ := .ok #[1]
  jacobians _ := .ok [⟨[1, 2], #[7, 8]⟩]
  loss := none

/-- One residual of the second block, with a second Jacobian for no block. -/
def surplusCost : Cost ℚ where
  residual _ := .ok #[1]
  jacobians _ := .ok [⟨[1, 1], #[9]⟩, ⟨[1, 1], #[10]⟩]
  loss := none

/-- The calls that make the problem. -/
def laxEdits : List (Edit ℚ) :=
  [.addBlock #[1, 2] none, .addBlock #[3] none, .addResidual [.integer 0] transposedCost,
    .addResidual [.integer 0, .integer 1] shortCost, .addResidual [.integer 1] surplusCost]

/-- The problem of the three costs. -/
def lax : Problem ℚ := laxEdits.foldl (fun p edit => (edit.run p).state) .empty

theorem reachable_lax : lax.Reachable :=
  .run _ (.run _ (.run _ (.run _ (.run _ .empty))))

theorem residuals_lax : lax.residuals =
    #[⟨[0], [.integer 0], transposedCost⟩, ⟨[0, 1], [.integer 0, .integer 1], shortCost⟩,
      ⟨[1], [.integer 1], surplusCost⟩] := by cbv

/-- What all three costs return is put into the Jacobian. -/
theorem answer_jacobian_lax :
    (lax.jacobian .inOrder (ColumnBounds.make lax true) true 1).answer =
      .ok ⟨Pattern.ofRows 3 [[0, 1], [0, 1], [0, 1], [0, 1], [2]], #[1, 2, 3, 4, 5, 6, 7, 8, 9]⟩ := by
  cbv

/-- The second cost is evaluated to its only Jacobian, and its row has nothing in the column of the
second block. -/
theorem jacobian_by_size_short :
    shortCost.evaluate [#[1, 2], #[3]] = .ok (#[1], [Dense.ofArray 1 2 #[7, 8]]) ∧
      ∃ J, (lax.jacobian .inOrder (ColumnBounds.make lax true) true 1).answer = .ok J ∧
        J.entry 3 2 = 0 := by
  have hr : lax.residuals[1]? = some ⟨[0, 1], [.integer 0, .integer 1], shortCost⟩ := by
    rw [residuals_lax]
    rfl
  obtain ⟨-, heval, -, -, -, hmissing⟩ :=
    jacobian_by_size reachable_lax hr rfl rfl
  have hrow : lax.rowStart 1 = 3 := by cbv
  have hcolumn : ((ColumnBounds.make lax true).rangeAt 1).first = 2 := by cbv
  have hentry := (hmissing true .inOrder true 1 _ answer_jacobian_lax 1 1 rfl
    (by decide) 0 0 (by decide) (by cbv)).2
  rw [hrow, hcolumn] at hentry
  refine ⟨heval ?_, _, answer_jacobian_lax, hentry⟩
  intro xT hxT
  rcases hxT with _ | ⟨_, ⟨⟩⟩
  cbv

/-- None of the costs returns what it should, and there is a Jacobian all the same: the transposed
Jacobian is cut into other rows, the column of the forgotten block is empty and the surplus Jacobian
is nowhere. -/
theorem lax_not_refused :
    lax.Reachable ∧
      (∀ r ∈ lax.residuals, ∀ residual Gs, ¬ lax.Returns r residual Gs) ∧
      ∃ J, (lax.jacobian .inOrder (ColumnBounds.make lax true) true 1).answer = .ok J ∧
        J.sparseRow 1 = [(0, 3), (1, 4)] ∧ J.sparseRow 3 = [(0, 7), (1, 8)] ∧
        J.sparseRow 4 = [(2, 9)] := by
  refine ⟨reachable_lax, ?_, _, answer_jacobian_lax, by cbv, by cbv, by cbv⟩
  rw [residuals_lax]
  intro r hr residual Gs hreturns
  have hlength := congrArg (Except.map List.length) hreturns.jacobians_eq
  have hblocks := hreturns.length_eq
  rcases List.mem_toArray.mp hr with _ | ⟨_, _ | ⟨_, _ | ⟨_, ⟨⟩⟩⟩⟩
  · obtain ⟨G, rfl⟩ := List.length_eq_one_iff.mp hblocks
    -- the matrix has two rows as a tensor, and should have three
    have hresidual : #[1, 1, 1] = residual := Except.ok.inj hreturns.residual_eq
    have hrows : G.rows = residual.size := (hreturns.shape (0, G) List.mem_cons_self).1
    have htensor : (⟨[2, 3], #[1, 2, 3, 4, 5, 6]⟩ : Tensor ℚ) = Tensor.ofDense G :=
      List.head_eq_of_cons_eq (Except.ok.inj hreturns.jacobians_eq)
    have htwo : 2 = G.rows := List.head_eq_of_cons_eq (congrArg Tensor.shape htensor)
    have hthree : residual.size = 3 := by rw [← hresidual]; rfl
    omega
  · simp [Except.map, shortCost, hblocks] at hlength
  · simp [Except.map, surplusCost, hblocks] at hlength

end Problem

end LeastSquares
