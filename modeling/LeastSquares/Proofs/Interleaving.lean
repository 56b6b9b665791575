/-
LeastSquares.Proofs.Interleaving — queries about problems that went on changing.

Problems are edited while covariances are computed of them and asked for their blocks, in any order.
Blocks are only ever added and keep their parameters, so every handle goes on naming a block of the
same size (`Problem.Keeps`); this is what one call preserves (`Problem.keeps_run`), and what any run
of calls and computations preserves by induction (`Scene.keeps_run`). What may change between a
computation and a query are manifolds.

* `Scene.shape_of_answers`: an answer in the parameters' own coordinates has the shape of its blocks
  exactly where they still fit the plan of the computation, and it stands in joint matrices under
  the same condition. For lawful manifolds this says that a query is safe exactly as long as the
  blocks have as many tangent directions as they had at the computation.
* `Scene.misshapen_after_setManifold`: where they have not, there are answers of another shape,
  copies of a single entry in place of a block, and faults.
-/
import Mathlib.Logic.Function.Basic
import LeastSquares.Proofs.Shape

namespace LeastSquares

/-! ## What a call leaves of a problem -/

namespace Problem

variable {α : Type}

/-- A problem that has the blocks of an earlier one, with the same parameters. -/
structure Keeps (p q : Problem α) : Prop where
  size_le : p.blocks.size ≤ q.blocks.size
  values_eq : ∀ i, i < p.blocks.size → (q.blockAt i).values = (p.blockAt i).values

namespace Keeps

variable {p q : Problem α}

theorem refl (p : Problem α) : p.Keeps p := ⟨Nat.le_refl _, fun _ _ => rfl⟩

theorem trans {q' : Problem α} (h : p.Keeps q) (h' : q.Keeps q') : p.Keeps q' where
  size_le := Nat.le_trans h.size_le h'.size_le
  values_eq i hi :=
    (h'.values_eq i (Nat.lt_of_lt_of_le hi h.size_le)).trans (h.values_eq i hi)

theorem ambientSize_eq (h : p.Keeps q) {i : Nat} (hi : i < p.blocks.size) :
    (q.blockAt i).ambientSize = (p.blockAt i).ambientSize :=
  congrArg Array.size (h.values_eq i hi)

/-- A handle goes on naming its block. -/
theorem position_eq_ok (h : p.Keeps q) {a : Atom} {i : Nat} (ha : p.position a = .ok i) :
    q.position a = .ok i :=
  position_eq_ok_iff.mpr (position?_of_le h.size_le (position_eq_ok_iff.mp ha))

theorem mapM_position (h : p.Keeps q) {handles : List Atom} {positions : List Nat}
    (hpositions : handles.mapM p.position = .ok positions) :
    handles.mapM q.position = .ok positions := by
  rw [← hpositions]
  refine mapM_congr fun a ha => ?_
  obtain ⟨k, -, hk⟩ := exists_mem_of_mapM_eq_ok hpositions ha
  rw [h.position_eq_ok hk, hk]

end Keeps

/-- Changing a block otherwise than in its parameters. -/
theorem keeps_modify (p : Problem α) (i : Nat) {f : ParameterBlock α → ParameterBlock α}
    (hf : ∀ b, (f b).values = b.values) : p.Keeps (p.modify i f) where
  size_le := Nat.le_of_eq (size_modify p i f).symm
  values_eq j _ := by
    rw [blockAt_modify]
    split
    · exact hf _
    · rfl

theorem keeps_pushBlock (p : Problem α) (values : Array α) : p.Keeps (p.pushBlock values) where
  size_le := by simp
  values_eq i hi := by rw [blockAt_pushBlock, if_neg (Nat.ne_of_lt hi)]

/-- **One call** keeps all blocks, whether it is accepted or refused. -/
theorem keeps_run (p : Problem α) (edit : Edit α) : p.Keeps (edit.run p).state := by
  cases edit with
  | addBlock values manifold =>
    cases manifold with
    | none => exact p.keeps_pushBlock values
    | some m =>
      simp only [Edit.run, addBlock_some, Outcome.mapAnswer]
      split
      · exact (p.keeps_pushBlock values).trans (keeps_modify _ _ fun b => b.values_withManifold _)
      · exact p.keeps_pushBlock values
  | addResidual handles cost =>
    show p.Keeps (p.addResidual handles cost).state
    cases h : (p.addResidual handles cost).answer with
    | error e =>
      rw [state_addResidual_of_error h]
      exact .refl p
    | ok n =>
      obtain ⟨blocks, -, -, -, hstate⟩ := addResidual_eq_ok h
      rw [hstate]
      exact ⟨Nat.le_refl _, fun _ _ => rfl⟩
  | setManifold handle manifold =>
    simp only [Edit.run]
    cases h : p.setManifold handle manifold with
    | error e => exact .refl p
    | ok q =>
      obtain ⟨i, -, rfl, -⟩ := setManifold_eq_ok h
      exact p.keeps_modify i fun b => b.values_withManifold _
  | setHeld handle held =>
    simp only [Edit.run, setHeld_eq]
    cases p.position handle with
    | error e => exact .refl p
    | ok i => exact p.keeps_modify i fun _ => rfl

end Problem

/-! ## Runs -/

/-- Some problems with their names, and a covariance. -/
structure Scene (ι α : Type) where
  problems : ι → Problem α
  covariance : Covariance α

namespace Scene

/-- What can happen to a scene. Queries leave it as it is. -/
inductive Step (ι α : Type) where
  | edit (name : ι) (call : Edit α)
  | compute (name : ι) (request : List Item)

variable {ι : Type} [DecidableEq ι]

section Running

variable {α : Type} [Zero α] [One α] [Add α] [Sub α] [Neg α] [Mul α] [Div α] [NatCast α] [BEq α]
  [LT α] [DecidableLT α] [LE α] [DecidableLE α] [Elementary α]

/-- The scene after a step. -/
def step (engine : Engine α) (s : Scene ι α) : Step ι α → Scene ι α
  | .edit name call =>
    { s with problems := Function.update s.problems name (call.run (s.problems name)).state }
  | .compute name request =>
    { s with covariance := (s.covariance.compute engine (s.problems name) request).state }

/-- The scene after some steps. -/
def run (engine : Engine α) (s : Scene ι α) (steps : List (Step ι α)) : Scene ι α :=
  steps.foldl (step engine) s

theorem keeps_step (engine : Engine α) (s : Scene ι α) (step : Step ι α) (name : ι) :
    (s.problems name).Keeps ((s.step engine step).problems name) := by
  cases step with
  | compute name' request => exact .refl _
  | edit name' call =>
    show (s.problems name).Keeps (Function.update s.problems name' _ name)
    by_cases hname : name = name'
    · subst hname
      rw [Function.update_self]
      exact (s.problems name).keeps_run call
    · rw [Function.update_of_ne hname]
      exact .refl _

/-- **All steps** keep all blocks. -/
theorem keeps_run (engine : Engine α) (s : Scene ι α) (steps : List (Step ι α)) (name : ι) :
    (s.problems name).Keeps ((s.run engine steps).problems name) := by
  induction steps generalizing s with
  | nil => exact .refl _
  | cons step steps ih => exact (s.keeps_step engine step name).trans (ih (s.step engine step))

/-- Calls on problems, as steps. -/
def editing (edits : List (ι × Edit α)) : List (Step ι α) :=
  edits.map fun edit => .edit edit.1 edit.2

/-- A covariance does not notice calls on problems. -/
theorem covariance_run_editing (engine : Engine α) (s : Scene ι α) (edits : List (ι × Edit α)) :
    (s.run engine (editing edits)).covariance = s.covariance := by
  induction edits generalizing s with
  | nil => rfl
  | cons edit edits ih => exact ih (s.step engine (.edit edit.1 edit.2))

end Running

end Scene

/-! ## Queries after a computation -/

namespace Covariance

section Planning

variable {α : Type} {p q : Problem α} {request : List Item} {plan : Plan} {handles : List Atom}
  {positions : List Nat}

/-- The plan of a request knows the blocks of its problem, also in a later problem. -/
theorem lt_ranges_of_keeps (h : planOf p request = .ok plan) (keeps : p.Keeps q)
    (hpositions : handles.mapM p.position = .ok positions) {a : Atom} (ha : a ∈ handles) {k : Nat}
    (hk : q.position a = .ok k) : k < plan.bounds.ranges.size := by
  obtain ⟨k', -, hk'⟩ := exists_mem_of_mapM_eq_ok hpositions ha
  rw [keeps.position_eq_ok hk', Except.ok.injEq] at hk
  rw [← hk]
  exact lt_ranges_of_position h hk'

end Planning

section Asking

variable {K : Type} [Field K] {p q : Problem K} {request : List Item} {plan : Plan}
  {f : Nat → Nat → K} {c : Covariance K}

/-- What is answered about blocks of the planned problem in a later one. -/
theorem block_of_keeps (h : planOf p request = .ok plan) (keeps : p.Keeps q) {a b : Atom}
    {i j : Nat} (ha : p.position a = .ok i) (hb : p.position b = .ok j) :
    ((c.holding plan (Truncation.gather f plan.pattern)).block q .ambient a b).answer =
      answerAt f plan q .ambient i j :=
  answer_block_holding f h c .ambient (keeps.position_eq_ok ha) (keeps.position_eq_ok hb)
    (lt_ranges_of_position h ha) (lt_ranges_of_position h hb)

/-- **Blocks in a later problem** are answered with the shape they had exactly where they fit. -/
theorem isShaped_block_iff (h : planOf p request = .ok plan) (keeps : p.Keeps q) {a b : Atom}
    {i j : Nat} (ha : p.position a = .ok i) (hb : p.position b = .ok j) :
    IsShaped ((c.holding plan (Truncation.gather f plan.pattern)).block q .ambient a b).answer
      (p.blockAt i).ambientSize (p.blockAt j).ambientSize ↔ Fitted plan q i j := by
  rw [block_of_keeps h keeps ha hb, ← keeps.ambientSize_eq (Problem.lt_size_of_position ha),
    ← keeps.ambientSize_eq (Problem.lt_size_of_position hb)]
  exact isShaped_answerAt_iff

variable {engine : Engine K} {handles : List Atom} {positions : List Nat}

/-- **Joint matrices in a later problem** have their places where they had them, and what is
answered about two handles stands there exactly if they fit. -/
theorem standsAt_matrix_iff (hf : ∀ i j, f i j = f j i) (h : planOf p request = .ok plan)
    (keeps : p.Keeps q) (hpositions : handles.mapM p.position = .ok positions) {M : Dense K}
    (hM : ((c.holding plan (Truncation.gather f plan.pattern)).matrix engine q .ambient
      handles).answer = .ok (some M)) :
    let sizes := positions.map fun k => (p.blockAt k).ambientSize
    M.rows = totalSize sizes ∧ M.cols = totalSize sizes ∧
      ∀ i j a b k l, handles[i]? = some a → handles[j]? = some b →
        positions[i]? = some k → positions[j]? = some l →
        ∃ B, ((c.holding plan (Truncation.gather f plan.pattern)).block q .ambient a b).answer =
            .ok (some B) ∧ (StandsAt sizes M i j B ↔ Fitted plan q k l) := by
  intro sizes
  have hsizes : memberSizes q .ambient positions = sizes := by
    refine List.map_congr_left fun k hk => ?_
    obtain ⟨i, hi⟩ := List.mem_iff_getElem?.mp hk
    obtain ⟨a, -, ha⟩ := exists_getElem?_of_mapM_eq_ok hpositions hi
    exact keeps.ambientSize_eq (Problem.lt_size_of_position ha)
  obtain ⟨hrows, hcols, hplaces⟩ := standsAt_iff hf h (keeps.mapM_position hpositions)
    (fun a ha k hk => lt_ranges_of_keeps h keeps hpositions ha hk) hM
  rw [hsizes] at hrows hcols hplaces
  refine ⟨hrows, hcols, fun i j a b k l ha hb hk hl => ?_⟩
  obtain ⟨B, hB, hstands⟩ := hplaces i j k l hk hl
  refine ⟨B, ?_, hstands⟩
  rw [block_of_keeps h keeps (eq_ok_of_mapM_eq_ok hpositions ha hk)
    (eq_ok_of_mapM_eq_ok hpositions hb hl), hB]

end Asking

end Covariance

namespace Scene

open Covariance

variable {ι : Type} [DecidableEq ι]

section Results

variable {K : Type} [Field K] [LinearOrder K] [Elementary K] {engine : Engine K}

/-- **The shape of answers.** Take any scene, a computation that is answered with `true`, and any
calls after it.
* No steps at all change the size of a block.
* An answer about two blocks that were there at the computation is nothing, or a matrix of the shape
  of the blocks, exactly where they fit: where both have, at the query, a frame with a row for each
  parameter and a column for each column of the plan, unless one of them has no columns or they are
  not in the plan. For lawful blocks this is to have as many tangent directions as at the
  computation.
* A joint matrix of such blocks is answered where all of them fit. Where it is answered, it is
  square, and what is answered about two members stands at their place exactly if they fit. -/
theorem shape_of_answers {s : Scene ι K} {name : ι} {request : List Item}
    (h : (s.covariance.compute engine (s.problems name) request).answer = .ok true)
    (edits : List (ι × Edit K)) :
    let p := s.problems name
    let now := (s.step engine (.compute name request)).run engine (editing edits)
    let q := now.problems name
    (∀ (steps : List (Step ι K)) name i, i < (s.problems name).blocks.size →
      (((s.run engine steps).problems name).blockAt i).ambientSize =
        ((s.problems name).blockAt i).ambientSize) ∧
    ∃ plan, planOf p request = .ok plan ∧
      (∀ i, 0 < plan.bounds.widthAt i → (q.blockAt i).Lawful →
        (Fits plan q i ↔ (q.blockAt i).tangentSize = (p.blockAt i).tangentSize)) ∧
      (∀ a b i j, p.position a = .ok i → p.position b = .ok j →
        (IsShaped (now.covariance.block q .ambient a b).answer (p.blockAt i).ambientSize
          (p.blockAt j).ambientSize ↔ Fitted plan q i j)) ∧
      ∀ handles positions, handles.mapM p.position = .ok positions →
        ((∀ k ∈ positions, ∀ l ∈ positions, Fitted plan q k l) →
          ∃ found, (now.covariance.matrix engine q .ambient handles).answer = .ok found) ∧
        ∀ M, (now.covariance.matrix engine q .ambient handles).answer = .ok (some M) →
          let sizes := positions.map fun k => (p.blockAt k).ambientSize
          M.rows = totalSize sizes ∧ M.cols = totalSize sizes ∧
            ∀ i j a b k l, handles[i]? = some a → handles[j]? = some b →
              positions[i]? = some k → positions[j]? = some l →
              ∃ B, (now.covariance.block q .ambient a b).answer = .ok (some B) ∧
                (StandsAt sizes M i j B ↔ Fitted plan q k l) := by
  intro p now q
  refine ⟨fun steps name i hi => (s.keeps_run engine steps name).ambientSize_eq hi, ?_⟩
  obtain ⟨plan, f, hplan, hf, hstate⟩ := exists_symmetric_of_compute h
  have keeps : p.Keeps q := keeps_run engine (s.step engine (.compute name request)) _ name
  have hcovariance : now.covariance =
      s.covariance.holding plan (Truncation.gather f plan.pattern) :=
    (covariance_run_editing engine _ edits).trans hstate
  rw [hcovariance]
  refine ⟨plan, hplan, fun i hi lawful => ?_,
    fun a b i j ha hb => isShaped_block_iff hplan keeps ha hb,
    fun handles positions hpositions => ⟨fun fitted => ?_,
      fun M hM => standsAt_matrix_iff hf hplan keeps hpositions hM⟩⟩
  · rw [fits_iff_tangentSize lawful, widthAt_eq_tangentSize hplan hi]
  · exact exists_matrix_of_fitted f hplan (keeps.mapM_position hpositions)
      (fun a ha k hk => lt_ranges_of_keeps hplan keeps hpositions ha hk) fitted

end Results

/-! ## One coordinate of two -/

section Examples

/-- One of two coordinates is held. -/
def oneHeld (second : Bool) : Subset where
  size := 2
  constants := [second.toNat]
  nodup := List.nodup_singleton _
  lt_size i hi := by
    rw [List.mem_singleton.mp hi]
    have := second.toNat_lt
    omega

/-- The residual `3x + 2y`, with `x` held by a manifold, and a covariance on one thread. -/
def onLine : Scene Unit ℚ where
  problems _ :=
    (oneBlock 1 #[3, 2]).modify 0 fun b => b.withManifold (some (.ofSubset (oneHeld false)))
  covariance := plain .sparseQr

/-- The plan of a block with one column. -/
def linePlan : Plan := Plan.ofPairs ⟨#[⟨0, 1⟩], 1, true⟩ [(0, 0)]

theorem planOf_onLine : planOf (onLine.problems ()) itself = .ok linePlan := by
  have hpairs : Request.pairs itself = .ok [(0, 0)] := by cbv
  have haccept : Plan.accept (onLine.problems ()) (itemsOf [(0, 0)]) = .ok [(0, 0)] := by cbv
  have hbounds : ColumnBounds.make (onLine.problems ()) true = ⟨#[⟨0, 1⟩], 1, true⟩ := by cbv
  have hcheck : (ColumnBounds.mk #[⟨0, 1⟩] 1 true).check = .ok () := by
    simp [ColumnBounds.check, Extent.check, Extent.bytes, Extent.maxBytes]
  exact planOf_eq hpairs haccept hbounds hcheck

/-- The Jacobian has the one entry `2`. -/
theorem prepared_onLine :
    Prepared Engine.exact (plain .sparseQr).options (onLine.problems ()) itself linePlan
      ⟨Pattern.ofRows 1 [[0]], #[2]⟩ where
  planned := planOf_onLine
  free := by
    refine ⟨0, 0, ⟨[(0, 0)], by cbv, Or.inl List.mem_cons_self⟩, ?_, ?_⟩ <;> decide
  jacobian := by cbv

/-- The variance of `y` is a quarter. -/
theorem compute_onLine :
    (onLine.covariance.compute Engine.exact (onLine.problems ()) itself).answer = .ok true ∧
      (onLine.covariance.compute Engine.exact (onLine.problems ()) itself).state =
        (plain .sparseQr).holding linePlan #[1 / 4] := by
  have hvalues : (estimateValues Engine.exact (plain .sparseQr).options
      ⟨Pattern.ofRows 1 [[0]], #[2]⟩ linePlan.pattern).answer = .ok (some #[1 / 4]) := by cbv
  obtain ⟨hanswer, hstate⟩ := prepared_onLine.compute_eq
  rw [hvalues] at hanswer hstate
  exact ⟨hanswer, hstate⟩

/-- The scene after a computation, and after the block was given another manifold. -/
def remade (manifold : Option (Manifold ℚ)) : Scene Unit ℚ :=
  (onLine.step Engine.exact (.compute () itself)).run Engine.exact
    (editing [((), .setManifold (.integer 0) manifold)])

/-- What a query finds after that: the block with its manifold, and the covariance of the
computation. -/
theorem remade_eq (manifold : Option (Manifold ℚ))
    (h : ∀ m, manifold = some m → m.ambientSize = 2) :
    (remade manifold).problems () =
        (onLine.problems ()).modify 0 (fun b => b.withManifold manifold) ∧
      (remade manifold).covariance = (plain .sparseQr).holding linePlan #[1 / 4] := by
  refine ⟨?_, (covariance_run_editing Engine.exact _ _).trans compute_onLine.2⟩
  show ((Edit.setManifold (.integer 0) manifold).run (onLine.problems ())).state = _
  cases manifold with
  | none => rfl
  | some m =>
    have hsize : m.ambientSize = (((onLine.problems ()).blockAt 0).ambientSize : Int) := h m rfl
    have hposition : (onLine.problems ()).position (.integer 0) = .ok 0 := by cbv
    simp only [Edit.run, Problem.setManifold, hposition, if_pos hsize]
    rfl

/-- With `y` held instead of `x` there is still one tangent direction, and the answer has its
shape. -/
theorem shape_of_answers_remade :
    (onLine.covariance.compute Engine.exact (onLine.problems ()) itself).answer = .ok true ∧
      IsShaped ((remade (some (.ofSubset (oneHeld true)))).covariance.block
        ((remade (some (.ofSubset (oneHeld true)))).problems ()) .ambient (.integer 0)
        (.integer 0)).answer 2 2 := by
  have hanswer := compute_onLine.1
  refine ⟨hanswer, ?_⟩
  obtain ⟨-, plan, hplan, hfits, hshape, -⟩ := shape_of_answers hanswer
    [((), .setManifold (.integer 0) (some (.ofSubset (oneHeld true))))]
  rw [planOf_onLine] at hplan
  cases hplan
  have hposition : (onLine.problems ()).position (.integer 0) = .ok 0 := by cbv
  have hfit := (hfits 0 (by decide) (ParameterBlock.lawful_of_ofSubset rfl)).mpr rfl
  exact (hshape (.integer 0) (.integer 0) 0 0 hposition hposition).mpr fun _ _ _ => ⟨hfit, hfit⟩

/-- **Other shapes.** Without a manifold the block of two parameters is answered with the one entry
of its only column, and the joint matrix is filled with copies of it; with two tangent directions
instead of one, the query fails. -/
theorem misshapen_after_setManifold :
    (onLine.covariance.compute Engine.exact (onLine.problems ()) itself).answer = .ok true ∧
      (onLine.problems ()).position (.integer 0) = .ok 0 ∧
      ((onLine.problems ()).blockAt 0).ambientSize = 2 ∧
      ((remade none).covariance.block ((remade none).problems ()) .ambient (.integer 0)
        (.integer 0)).answer = .ok (some (Dense.ofRows 1 [[1 / 4]])) ∧
      ¬ IsShaped ((remade none).covariance.block ((remade none).problems ()) .ambient (.integer 0)
        (.integer 0)).answer 2 2 ∧
      ((remade none).covariance.matrix Engine.exact ((remade none).problems ()) .ambient
        [.integer 0]).answer = .ok (some (Dense.ofRows 2 [[1 / 4, 1 / 4], [1 / 4, 1 / 4]])) ∧
      ((remade (some (.euclidean 2))).covariance.block
        ((remade (some (.euclidean 2))).problems ()) .ambient (.integer 0) (.integer 0)).answer =
          .error .shapes := by
  obtain ⟨hproblem, hcovariance⟩ := remade_eq none fun m h => by cases h
  obtain ⟨hproblem', hcovariance'⟩ := remade_eq (some (.euclidean 2)) fun m h => by
    cases h
    rfl
  have hblock : (((plain .sparseQr).holding linePlan #[1 / 4]).block
      ((onLine.problems ()).modify 0 fun b => b.withManifold none) .ambient (.integer 0)
      (.integer 0)).answer =
        .ok (some (Dense.ofRows 1 [[1 / 4]])) := by cbv
  rw [hproblem, hcovariance, hproblem', hcovariance']
  refine ⟨compute_onLine.1, by cbv, by cbv, hblock, ?_, by cbv, by cbv⟩
  rw [hblock]
  rintro (h | ⟨B, h, hrows, -⟩)
  · cases h
  · cases h
    exact absurd hrows (by decide)

end Examples

end Scene

end LeastSquares
