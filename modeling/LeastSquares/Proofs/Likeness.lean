/-
LeastSquares.Proofs.Likeness — problems that differ in nothing but what their manifolds do.

Most of a computation asks a manifold for its sizes alone, and of these for the columns that they
give. Two problems with the same residual blocks, and with parameter blocks of the same values and
columns (`Problem.Aligned`), have the same handles, accept the same requests and plan them alike,
and evaluate their residual blocks alike, up to the projection of the Jacobians. Where the blocks
also have the same sizes (`Problem.Alike`), so do the zeros and the joint matrices. What is left to
compare is what the Jacobians of the manifolds are used for: projecting the Jacobians of the costs
(`Aligned.jacobian_eq`, `compute_eq_of_aligned`), and moving the answers to the parameters
(`matrixIn_congr`).
-/
import LeastSquares.Proofs.Safety
import LeastSquares.Proofs.Symmetry

namespace LeastSquares

namespace Problem

variable {α : Type}

/-- Two problems whose residual blocks are the same and whose blocks have the same values and
columns. -/
structure Aligned (p q : Problem α) : Prop where
  residuals_eq : q.residuals = p.residuals
  size_eq : q.blocks.size = p.blocks.size
  values_eq : ∀ i, (q.blockAt i).values = (p.blockAt i).values
  width_eq : ∀ tangentSpace i,
    ColumnBounds.width q tangentSpace i = ColumnBounds.width p tangentSpace i

/-- Two problems whose residual blocks are the same and whose blocks have the same values and sizes.
-/
structure Alike (p q : Problem α) : Prop where
  residuals_eq : q.residuals = p.residuals
  size_eq : q.blocks.size = p.blocks.size
  values_eq : ∀ i, (q.blockAt i).values = (p.blockAt i).values
  held_eq : ∀ i, (q.blockAt i).held = (p.blockAt i).held
  tangentSize_eq : ∀ i, (q.blockAt i).tangentSize = (p.blockAt i).tangentSize

/-- Behind the last block there are no projections. -/
theorem getD_of_projections {p : Problem α} {bounds : ColumnBounds}
    {Ps : Array (Option (Dense α))} (hsize : bounds.ranges.size = p.blocks.size)
    (hPs : p.projections bounds = .ok Ps) {i : Nat} (hi : p.blocks.size ≤ i) :
    Ps.getD i none = none := by
  rw [projections_eq hsize] at hPs
  obtain ⟨found, hfound, rfl⟩ := map_eq_ok_iff.mp hPs
  have hlength : found.toArray.size ≤ i := by
    rw [List.size_toArray, length_of_mapM_eq_ok hfound, List.length_range]
    exact hi
  rw [Array.getD_eq_getD_getElem?, Array.getElem?_eq_none hlength]
  rfl

namespace Aligned

variable {p q : Problem α}

theorem ambientSize_eq (h : p.Aligned q) (i : Nat) :
    (q.blockAt i).ambientSize = (p.blockAt i).ambientSize := congrArg Array.size (h.values_eq i)

/-- Handles name the same positions. -/
theorem position_eq (h : p.Aligned q) (a : Atom) : q.position a = p.position a := by
  simp only [position, position?, h.size_eq]

/-- All blocks have the same columns. -/
theorem make_eq (h : p.Aligned q) (tangentSpace : Bool) :
    ColumnBounds.make q tangentSpace = ColumnBounds.make p tangentSpace := by
  have hwidth : ColumnBounds.width q tangentSpace = ColumnBounds.width p tangentSpace :=
    funext (h.width_eq tangentSpace)
  simp only [ColumnBounds.make, hwidth, h.size_eq]

/-- Requests are accepted and planned alike. -/
theorem plan_eq (h : p.Aligned q) (items : List Item) : Plan.make q items = Plan.make p items := by
  have hresolve : Plan.resolve q = Plan.resolve p := by
    funext item
    simp only [Plan.resolve, h.position_eq]
  have haccept : Plan.accept q items = Plan.accept p items := by
    simp only [Plan.accept, hresolve]
  simp only [Plan.make, haccept, h.make_eq]

variable [Zero α] [One α] [Add α] [Sub α] [Mul α] [Div α] [NatCast α] [BEq α] [LE α]
  [DecidableLE α] [Elementary α]

/-- Residual blocks are the same before they are projected. -/
theorem linearized_eq (h : p.Aligned q) (applyLoss : Bool) (r : ResidualBlock α) :
    q.linearized applyLoss r = p.linearized applyLoss r := by
  simp only [linearized, valuesOf, h.values_eq]

/-- With the same projections the Jacobians are the same. -/
theorem jacobian_eq (h : p.Aligned q) {bounds : ColumnBounds}
    (hprojections : q.projections bounds = p.projections bounds) (schedule : Schedule)
    (applyLoss : Bool) (threads : Int) :
    q.jacobian schedule bounds applyLoss threads = p.jacobian schedule bounds applyLoss threads := by
  have hevaluate : ∀ Ps, q.evaluate Ps applyLoss = p.evaluate Ps applyLoss := by
    intro Ps
    funext r
    rw [evaluate_eq_bind, evaluate_eq_bind, h.linearized_eq]
  have htask : ∀ Ps, q.evaluateAt Ps applyLoss = p.evaluateAt Ps applyLoss := by
    intro Ps
    funext i
    simp only [evaluateAt, h.residuals_eq, hevaluate]
  simp only [jacobian, evaluateAll, hprojections, htask, h.residuals_eq]

end Aligned

namespace Alike

variable {p q : Problem α}

/-- Blocks of the same sizes have the same columns. -/
theorem aligned (h : p.Alike q) : p.Aligned q where
  residuals_eq := h.residuals_eq
  size_eq := h.size_eq
  values_eq := h.values_eq
  width_eq := by
    intro tangentSpace i
    have hconstant : (q.blockAt i).isConstant = (p.blockAt i).isConstant := by
      simp only [ParameterBlock.isConstant, h.held_eq, h.tangentSize_eq]
    have huses : q.uses i = p.uses i := by simp only [uses, h.residuals_eq]
    have hambient : (q.blockAt i).ambientSize = (p.blockAt i).ambientSize :=
      congrArg Array.size (h.values_eq i)
    simp only [ColumnBounds.width, hconstant, huses, h.tangentSize_eq, hambient]

theorem ambientSize_eq (h : p.Alike q) (i : Nat) :
    (q.blockAt i).ambientSize = (p.blockAt i).ambientSize := h.aligned.ambientSize_eq i

/-- Blocks have the same size in all coordinates. -/
theorem sizeIn_eq (h : p.Alike q) (coordinates : Covariance.Coordinates) (i : Nat) :
    coordinates.size (q.blockAt i) = coordinates.size (p.blockAt i) := by
  cases coordinates with
  | ambient => exact congrArg Int.ofNat (h.ambientSize_eq i)
  | tangent => exact h.tangentSize_eq i

theorem position_eq (h : p.Alike q) (a : Atom) : q.position a = p.position a :=
  h.aligned.position_eq a

theorem make_eq (h : p.Alike q) (tangentSpace : Bool) :
    ColumnBounds.make q tangentSpace = ColumnBounds.make p tangentSpace :=
  h.aligned.make_eq tangentSpace

theorem planOf_eq (h : p.Alike q) (request : List Item) :
    Covariance.planOf q request = Covariance.planOf p request := by
  simp only [Covariance.planOf, h.aligned.plan_eq]

/-- Two blocks have the same zeros. -/
theorem zeros_eq [Zero α] (h : p.Alike q) (coordinates : Covariance.Coordinates) (i j : Nat) :
    coordinates.zeros (q.blockAt i) (q.blockAt j) =
      coordinates.zeros (p.blockAt i) (p.blockAt j) := by
  simp only [Covariance.Coordinates.zeros, h.sizeIn_eq]

theorem linearized_eq [Zero α] [One α] [Add α] [Sub α] [Mul α] [Div α] [NatCast α] [BEq α] [LE α]
    [DecidableLE α] [Elementary α] (h : p.Alike q) (applyLoss : Bool) (r : ResidualBlock α) :
    q.linearized applyLoss r = p.linearized applyLoss r := h.aligned.linearized_eq applyLoss r

end Alike

end Problem

namespace Covariance

/-- A query depends on what it makes of the values that are there. -/
theorem whenReady_congr {α β : Type} {c : Covariance α} {f g : Plan → Array α → Reply (Option β)}
    (h : ∀ plan values, c.estimate = .ready plan values → f plan values = g plan values) :
    c.whenReady f = c.whenReady g := by
  unfold whenReady
  cases hestimate : c.estimate with
  | absent => rfl
  | failed plan => rfl
  | ready plan values => simp only [h plan values hestimate]

variable {α : Type} [Zero α] [One α] [Add α] [Mul α] [Div α] [NatCast α] {p q : Problem α}

/-- Joint matrices are the same where their blocks are, and so are their log lines. A handle that is
not there stands for the places that no pair has. -/
theorem matrixIn_congr (h : p.Aligned q) {plan : Plan} {values : Array α}
    {coordinates : Coordinates} {handles : List Atom}
    (hblocks : ∀ a ∈ .null :: handles, ∀ b ∈ .null :: handles,
      blockIn plan values q coordinates a b = blockIn plan values p coordinates a b)
    (hsizes : ∀ a ∈ handles, ∀ i, p.position a = .ok i →
      coordinates.size (q.blockAt i) = coordinates.size (p.blockAt i))
    (schedule : Schedule) (threads : Int) :
    matrixIn schedule threads plan values q coordinates handles =
      matrixIn schedule threads plan values p coordinates handles := by
  have hmember : ∀ i, handles.toArray.getD i .null ∈ .null :: handles := by
    intro i
    rw [Array.getD_eq_getD_getElem?, List.getElem?_toArray]
    cases hi : handles[i]? with
    | none => exact List.mem_cons_self
    | some a => exact List.mem_cons_of_mem _ (List.mem_of_getElem? hi)
  have hpair : blockOfPair plan values q coordinates handles.toArray =
      blockOfPair plan values p coordinates handles.toArray := by
    funext sizes k
    simp only [blockOfPair, hblocks _ (hmember _) _ (hmember _)]
  unfold matrixIn
  rw [mapM_block, mapM_block, funext h.position_eq, hpair]
  cases hpositions : handles.mapM p.position with
  | error e => rfl
  | ok positions =>
    have hsame : (positions.map q.blockAt).map coordinates.size =
        (positions.map p.blockAt).map coordinates.size := by
      rw [List.map_map, List.map_map]
      refine List.map_congr_left fun i hi => ?_
      obtain ⟨k, hk⟩ := List.mem_iff_getElem?.mp hi
      obtain ⟨a, ha, hposition⟩ := exists_getElem?_of_mapM_eq_ok hpositions hk
      exact hsizes a (List.mem_of_getElem? ha) i hposition
    simp only [Except.map, hsame]

variable [Sub α] [Neg α] [BEq α] [LT α] [DecidableLT α] [LE α] [DecidableLE α] [Elementary α]

/-- A computation that meets the same Jacobian is the same: its answer, what it leaves and its
log. -/
theorem compute_eq_of_aligned (h : p.Aligned q)
    (hjacobian : ∀ schedule applyLoss threads,
      q.jacobian schedule (ColumnBounds.make p true) applyLoss threads =
        p.jacobian schedule (ColumnBounds.make p true) applyLoss threads)
    (engine : Engine α) (c : Covariance α) (request : List Item) :
    compute engine c q request = compute engine c p request := by
  unfold compute
  simp only [h.plan_eq]
  cases Request.pairs request with
  | error e => rfl
  | ok pairs =>
    simp only
    generalize (pairs.map fun pair => Item.list [.integer pair.1, .integer pair.2]) = items
    cases hplan : (Plan.make p items).answer with
    | error e => rfl
    | ok plan =>
      obtain ⟨found, -, -, rfl⟩ := Plan.exists_of_make hplan
      have hfill : fillPlan engine c.options q (Plan.ofPairs (ColumnBounds.make p true) found) =
          fillPlan engine c.options p (Plan.ofPairs (ColumnBounds.make p true) found) := by
        simp only [fillPlan, Plan.bounds_ofPairs, hjacobian]
      simp only [hfill]

end Covariance

end LeastSquares
