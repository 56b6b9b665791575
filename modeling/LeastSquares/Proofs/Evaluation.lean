/-
LeastSquares.Proofs.Evaluation — the Jacobian of a problem, taken apart.

Before any piece is put anywhere, every block is projected, every residual block is evaluated, its
Jacobians are corrected for its loss and multiplied by the projections of its blocks. Each of these
is a traversal, and this module says so: `projections_eq`, `project_eq` and `evaluateAll_eq` give
the traversals, `evaluate_eq_ok_iff` the parts of one evaluation and `jacobian_eq_ok_iff` those of
the whole Jacobian. What later modules say about Jacobians they say about these parts.
-/
import LeastSquares.Proofs.Collection

namespace LeastSquares

/-! ## Costs -/

namespace Cost

variable {α : Type} [Zero α]

/-- One Jacobian, read for one parameter vector. -/
def readJacobian (residuals : Nat) (x : Array α) (T : Tensor α) : Except Fault (Dense α) :=
  if T.data.size = residuals * x.size then .ok (Dense.ofArray residuals x.size T.data)
  else .error (.jacobianShape T.shape residuals x.size)

/-- Parameter vectors and Jacobians are read in pairs, as long as there are both. -/
theorem readJacobians_eq (residuals : Nat) (xs : List (Array α)) (Ts : List (Tensor α)) :
    readJacobians residuals xs Ts =
      (xs.zip Ts).mapM fun xT => readJacobian residuals xT.1 xT.2 := by
  induction xs generalizing Ts with
  | nil => rfl
  | cons x xs ih =>
    cases Ts with
    | nil => rfl
    | cons T Ts =>
      rw [readJacobians, List.zip_cons_cons, List.mapM_cons, ← ih]
      simp only [readJacobian]
      split
      · cases readJacobians residuals xs Ts <;> rfl
      · rfl

/-- A cost is evaluated where its residual is there and its Jacobians are read. -/
theorem evaluate_eq_ok_iff {cost : Cost α} {values : List (Array α)} {residual : Array α}
    {Js : List (Dense α)} :
    cost.evaluate values = .ok (residual, Js) ↔
      cost.residual values = .ok residual ∧ ∃ Ts, cost.jacobians values = .ok Ts ∧
        readJacobians residual.size values Ts = .ok Js := by
  unfold evaluate
  cases cost.residual values with
  | error e => simp
  | ok found =>
    cases cost.jacobians values with
    | error e => simp
    | ok Ts =>
      constructor
      · intro h
        cases hread : readJacobians found.size values Ts with
        | error e => simp [hread] at h
        | ok read =>
          simp only [hread, Except.ok.injEq, Prod.mk.injEq] at h
          obtain ⟨rfl, rfl⟩ := h
          exact ⟨rfl, Ts, rfl, hread⟩
      · rintro ⟨hresidual, Ts', hTs, hread⟩
        cases hresidual
        cases hTs
        simp only [hread]

end Cost

namespace Problem

variable {α : Type}

/-! ## Projections -/

section Projections

/-- The projection of the block at a position, if it has a manifold and columns. -/
def projectionAt (p : Problem α) (bounds : ColumnBounds) (i : Nat) :
    Except Fault (Option (Dense α)) :=
  match (p.blockAt i).manifold with
  | none => .ok none
  | some m =>
    if (bounds.rangeAt i).size = 0 then .ok none
    else (m.plusJacobian (p.blockAt i).values).map some

/-- The projections are those of all positions. -/
theorem projections_eq {p : Problem α} {bounds : ColumnBounds}
    (h : bounds.ranges.size = p.blocks.size) :
    p.projections bounds =
      ((List.range p.blocks.size).mapM (p.projectionAt bounds)).map List.toArray := by
  unfold projections
  rw [mapM_congr (g := p.projectionAt bounds) ?_]
  · cases (List.range p.blocks.size).mapM (p.projectionAt bounds) <;> rfl
  · intro i hi
    have hrange := bounds.range_natCast (i := i) (by rw [h]; exact List.mem_range.mp hi)
    unfold projectionAt
    cases (p.blockAt i).manifold with
    | none => rfl
    | some m =>
      simp only [ColumnBounds.isEmpty, hrange, Except.map, bind, Except.bind, beq_iff_eq]
      split
      · rfl
      · cases m.plusJacobian (p.blockAt i).values <;> rfl

/-- The projections that are found are those of their positions. -/
theorem projectionAt_of_projections {p : Problem α} {bounds : ColumnBounds}
    {projections : Array (Option (Dense α))} (hsize : bounds.ranges.size = p.blocks.size)
    (h : p.projections bounds = .ok projections) {i : Nat} (hi : i < p.blocks.size) :
    p.projectionAt bounds i = .ok (projections.getD i none) := by
  rw [projections_eq hsize] at h
  obtain ⟨found, hfound, rfl⟩ := map_eq_ok_iff.mp h
  obtain ⟨o, ho, hat⟩ := getElem?_of_mapM_eq_ok hfound (List.getElem?_range hi)
  rw [hat, Array.getD_eq_getD_getElem?, List.getElem?_toArray, ho]
  rfl

/-- Where there are projections, every block with columns has a Jacobian of its own. -/
theorem exists_plusJacobian_of_projections [Zero α] [One α] {p : Problem α} {bounds : ColumnBounds}
    {projections : Array (Option (Dense α))} (hsize : bounds.ranges.size = p.blocks.size)
    (h : p.projections bounds = .ok projections) {i : Nat} (hi : i < p.blocks.size)
    (hcolumns : (bounds.rangeAt i).size ≠ 0) : ∃ P, (p.blockAt i).plusJacobian = .ok P := by
  have hat := projectionAt_of_projections hsize h hi
  unfold projectionAt at hat
  unfold ParameterBlock.plusJacobian
  cases hmanifold : (p.blockAt i).manifold with
  | none => exact ⟨_, rfl⟩
  | some m =>
    simp only [hmanifold, if_neg hcolumns] at hat
    obtain ⟨P, hP, -⟩ := map_eq_ok_iff.mp hat
    exact ⟨P, hP⟩

end Projections

/-! ## One residual block -/

section Blocks

variable [Zero α] [Add α] [Mul α]

/-- One Jacobian multiplied by the projection of its block. -/
def projectOne (projections : Array (Option (Dense α))) (i : Nat) (J : Dense α) :
    Except Fault (Dense α) :=
  match projections.getD i none with
  | some P => J.mul? P
  | none => .ok J

/-- Blocks and Jacobians are projected in pairs, as long as there are both. -/
theorem project_eq (projections : Array (Option (Dense α))) (blocks : List Nat)
    (Js : List (Dense α)) :
    project projections blocks Js =
      (blocks.zip Js).mapM fun iJ => projectOne projections iJ.1 iJ.2 := by
  induction blocks generalizing Js with
  | nil => rfl
  | cons i blocks ih =>
    cases Js with
    | nil => rfl
    | cons J Js =>
      rw [project, List.zip_cons_cons, List.mapM_cons, ih]
      simp only [projectOne]
      cases projections.getD i none <;> rfl

/-- The members of a projection, one by one. -/
theorem projectOne_of_project {projections : Array (Option (Dense α))} {blocks : List Nat}
    {Js Ks : List (Dense α)} (h : project projections blocks Js = .ok Ks) {j i : Nat}
    {K : Dense α} (hj : (blocks.zip Ks)[j]? = some (i, K)) :
    ∃ J, (blocks.zip Js)[j]? = some (i, J) ∧ projectOne projections i J = .ok K := by
  rw [project_eq] at h
  obtain ⟨hi, hK⟩ := List.getElem?_zip_eq_some.mp hj
  obtain ⟨⟨i', J⟩, hpair, hone⟩ := exists_getElem?_of_mapM_eq_ok h hK
  obtain ⟨hi', -⟩ := List.getElem?_zip_eq_some.mp hpair
  rw [hi, Option.some.injEq] at hi'
  subst hi'
  exact ⟨J, hpair, hone⟩

end Blocks

variable [Zero α] [One α] [Add α] [Sub α] [Mul α] [Div α] [NatCast α] [BEq α]
  [LE α] [DecidableLE α] [Elementary α]

/-- The Jacobians of a residual block, corrected for its loss where losses are applied. -/
def corrected (r : ResidualBlock α) (applyLoss : Bool) (residual : Array α)
    (Js : List (Dense α)) : Except Fault (List (Dense α)) :=
  match applyLoss, r.cost.loss with
  | true, some loss => loss.correct residual Js
  | _, _ => .ok Js

/-- An evaluation has a residual, Jacobians, their corrections and the projections of these. -/
theorem evaluate_eq_ok_iff {p : Problem α} {projections : Array (Option (Dense α))}
    {applyLoss : Bool} {r : ResidualBlock α} {e : Evaluated α} :
    p.evaluate projections applyLoss r = .ok e ↔
      ∃ residual Js corrections, r.cost.evaluate (p.valuesOf r) = .ok (residual, Js) ∧
        corrected r applyLoss residual Js = .ok corrections ∧
        project projections r.blocks corrections = .ok e.jacobians ∧
        e.residuals = residual.size := by
  have hevaluate : p.evaluate projections applyLoss r =
      r.cost.evaluate (p.valuesOf r) >>= fun found =>
        corrected r applyLoss found.1 found.2 >>= fun corrections =>
          (project projections r.blocks corrections).map fun Js =>
            Evaluated.mk found.1.size Js := by
    unfold evaluate corrected
    cases r.cost.evaluate (p.valuesOf r) with
    | error e => rfl
    | ok found =>
      simp only [bind, Except.bind]
      cases applyLoss with
      | false =>
        dsimp only
        cases project projections r.blocks found.2 <;> rfl
      | true =>
        cases r.cost.loss with
        | none =>
          dsimp only
          cases project projections r.blocks found.2 <;> rfl
        | some loss =>
          dsimp only
          cases loss.correct found.1 found.2 with
          | error e => rfl
          | ok corrections => cases project projections r.blocks corrections <;> rfl
  rw [hevaluate]
  simp only [bind_eq_ok_iff, map_eq_ok_iff]
  obtain ⟨residuals, jacobians⟩ := e
  constructor
  · rintro ⟨⟨residual, Js⟩, hfound, corrections, hcorrected, projected, hprojected, heq⟩
    cases heq
    exact ⟨residual, Js, corrections, hfound, hcorrected, hprojected, rfl⟩
  · rintro ⟨residual, Js, corrections, hfound, hcorrected, hprojected, rfl⟩
    exact ⟨(residual, Js), hfound, corrections, hcorrected, jacobians, hprojected, rfl⟩

/-- How many residuals a residual block has. -/
def residualCount {α : Type} (p : Problem α) (r : ResidualBlock α) : Nat :=
  match r.cost.residual (p.valuesOf r) with
  | .ok residual => residual.size
  | .error _ => 0

theorem residuals_of_evaluate {p : Problem α} {projections : Array (Option (Dense α))}
    {applyLoss : Bool} {r : ResidualBlock α} {e : Evaluated α}
    (h : p.evaluate projections applyLoss r = .ok e) : e.residuals = p.residualCount r := by
  obtain ⟨residual, Js, corrections, hcost, -, -, hsize⟩ := evaluate_eq_ok_iff.mp h
  rw [hsize, residualCount, (Cost.evaluate_eq_ok_iff.mp hcost).1]

/-! ## The whole Jacobian -/

/-- A Jacobian is compressed from the pieces of all residual blocks. -/
theorem jacobian_eq_ok_iff {p : Problem α} {schedule : Schedule} {bounds : ColumnBounds}
    {applyLoss : Bool} {threads : Int} {J : Compressed α} :
    (p.jacobian schedule bounds applyLoss threads).answer = .ok J ↔
      ∃ projections found rows pieces, p.projections bounds = .ok projections ∧
        p.residuals.toList.mapM (p.evaluate projections applyLoss) = .ok found ∧
        stack bounds 0 (p.residuals.toList.zip found) = .ok (rows, pieces) ∧
        (Triplets.mk rows bounds.numCols.toNat (pieces.flatMap Piece.triplets)).compress = J := by
  constructor
  · intro h
    unfold jacobian at h
    rw [evaluateAll_eq] at h
    cases hprojections : p.projections bounds with
    | error e => simp [hprojections, bind, Except.bind] at h
    | ok projections =>
      cases hfound : p.residuals.toList.mapM (p.evaluate projections applyLoss) with
      | error e => simp [hprojections, hfound, bind, Except.bind] at h
      | ok found =>
        cases hstack : stack bounds 0 (p.residuals.toList.zip found) with
        | error e => simp [hprojections, hfound, hstack, bind, Except.bind] at h
        | ok stacked =>
          obtain ⟨rows, pieces⟩ := stacked
          simp only [hprojections, hfound, hstack, bind, Except.bind, Except.ok.injEq] at h
          exact ⟨projections, found, rows, pieces, rfl, hfound, hstack, h⟩
  · rintro ⟨projections, found, rows, pieces, hprojections, hfound, hstack, rfl⟩
    unfold jacobian
    rw [evaluateAll_eq]
    simp only [hprojections, hfound, hstack, bind, Except.bind]

/-- The fault of a Jacobian is that of the first residual block whose evaluation fails. -/
theorem jacobian_of_failsFirst {p : Problem α} {bounds : ColumnBounds}
    {projections : Array (Option (Dense α))} {applyLoss : Bool} {e : Fault}
    (hprojections : p.projections bounds = .ok projections)
    (h : FailsFirst (p.evaluate projections applyLoss) p.residuals.toList e)
    (schedule : Schedule) (threads : Int) :
    (p.jacobian schedule bounds applyLoss threads).answer = .error e := by
  unfold jacobian
  rw [evaluateAll_eq]
  simp only [hprojections, mapM_eq_error_iff_failsFirst.mpr h, bind, Except.bind]

/-- The Jacobian is the same for every schedule and every number of threads. -/
theorem jacobian_eq_of_threads (p : Problem α) (schedule schedule' : Schedule)
    (bounds : ColumnBounds) (applyLoss : Bool) (threads threads' : Int) :
    p.jacobian schedule bounds applyLoss threads =
      p.jacobian schedule' bounds applyLoss threads' := by
  unfold jacobian
  rw [evaluateAll_eq, evaluateAll_eq]

end Problem

end LeastSquares
