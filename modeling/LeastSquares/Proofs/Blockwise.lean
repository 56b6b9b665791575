/-
LeastSquares.Proofs.Blockwise — the normal matrix by parameter blocks and residual blocks.

Columns are numbers, and so are rows, but neither numbering means anything: a column is a direction
of a parameter block (`ColumnBounds.Place`), and a row is a residual of a residual block. Written
that way the normal matrix `J'J` is a sum over the residual blocks (`Problem.gram`), each of which
adds the products of its own Jacobians. Two problems whose columns or rows are numbered in different
ways, or whose Jacobians are projected in different ways, are compared in this form.

* `ColumnBounds.Tiled.columnEquiv`: the directions of all blocks are the columns.
* `Problem.sum_entries_eq_gram`: the entries of `J'J` are those of the sum over the residual blocks.
* `Covariance.exists_inverts_of_compute`: with exact factorisations a computation that succeeds
  leaves the entries of the inverse of that sum.
* `Covariance.answer_matrix_holding`: a joint matrix, from what is answered about the positions of
  its handles.
-/
import Mathlib.LinearAlgebra.Matrix.NonsingularInverse
import LeastSquares.Proofs.Safety
import LeastSquares.Proofs.Shape

namespace LeastSquares

open Matrix

/-! ## Columns -/

namespace ColumnBounds

/-- A direction of a block with columns. -/
abbrev Place (b : ColumnBounds) : Type := (i : Fin b.ranges.size) × Fin (b.widthAt i)

theorem size_rangeAt_ne_zero {b : ColumnBounds} {i : Nat} (h : 0 < b.widthAt i) :
    (b.rangeAt i).size ≠ 0 := fun hzero => by
  simp [widthAt, ColumnRange.width, hzero] at h

/-- The column of a direction. -/
def columnOf (b : ColumnBounds) (c : b.Place) : Nat := (b.rangeAt c.1).first + c.2

namespace Tiled

variable {b : ColumnBounds}

theorem columnOf_lt (t : b.Tiled) (c : b.Place) : b.columnOf c < b.numCols.toNat :=
  t.lt_numCols (first_add_mem_columns c.2.isLt)

/-- Every column is that of one direction. -/
theorem bijective_columnOf (t : b.Tiled) :
    Function.Bijective fun c : b.Place =>
      (⟨b.columnOf c, t.columnOf_lt c⟩ : Fin b.numCols.toNat) := by
  constructor
  · rintro ⟨i, u⟩ ⟨j, v⟩ heq
    have hcolumn : (b.rangeAt i).first + u = (b.rangeAt j).first + v := congrArg Fin.val heq
    have hmem : (b.rangeAt i).first + u ∈ (b.rangeAt j).columns := by
      rw [hcolumn]
      exact first_add_mem_columns v.isLt
    obtain rfl : i = j := Fin.ext (t.eq_of_mem_columns (first_add_mem_columns u.isLt) hmem)
    obtain rfl : u = v := Fin.ext (Nat.add_left_cancel hcolumn)
    rfl
  · rintro ⟨k, hk⟩
    obtain ⟨i, hi, hmem⟩ := t.exists_mem_columns hk
    obtain ⟨hle, hlt⟩ := ColumnRange.mem_columns.mp hmem
    refine ⟨⟨⟨i, hi⟩, ⟨k - (b.rangeAt i).first, ?_⟩⟩, Fin.ext (Nat.add_sub_of_le hle)⟩
    exact Nat.sub_lt_left_of_lt_add hle hlt

/-- The directions of all blocks are the columns. -/
noncomputable def columnEquiv (t : b.Tiled) : b.Place ≃ Fin b.numCols.toNat :=
  Equiv.ofBijective _ t.bijective_columnOf

end Tiled

end ColumnBounds

/-- The inverse of the normal matrix, read at the columns of two directions, is the inverse of what
the normal matrix is by directions. -/
theorem entryAt_inv_normalMatrix {K : Type} [Field K] {b : ColumnBounds} (t : b.Tiled)
    {J : Compressed K} (hcols : J.pattern.numCols = b.numCols.toNat) {G : Matrix b.Place b.Place K}
    (hG : ∀ c d, ∑ r ∈ Finset.range J.pattern.numRows,
      J.entry r (b.columnOf c) * J.entry r (b.columnOf d) = G c d) :
    (IsUnit J.normalMatrix ↔ IsUnit G) ∧
      ∀ c d, entryAt J.normalMatrix⁻¹ (b.columnOf c) (b.columnOf d) = G⁻¹ c d := by
  let e : b.Place ≃ Fin J.pattern.numCols := t.columnEquiv.trans (finCongr hcols.symm)
  have hnormal : J.normalMatrix.submatrix e e = G := by
    ext c d
    rw [← hG c d, Finset.sum_range]
    rfl
  refine ⟨by rw [← hnormal, isUnit_submatrix_equiv], fun c d => ?_⟩
  have hlt : ∀ c, b.columnOf c < J.pattern.numCols := fun c => by
    rw [hcols]
    exact t.columnOf_lt c
  rw [← hnormal, inv_submatrix_equiv, entryAt_of_lt _ (hlt c) (hlt d)]
  rfl

/-! ## Rows -/

/-- A sum over adjacent parts is the sum of what the parts add up to. -/
theorem sum_parts {K β : Type} [AddCommMonoid K] {xs : List β} {size : β → Nat} {F : Nat → K}
    {g : β → K}
    (h : ∀ k x, xs[k]? = some x →
      ∑ u ∈ Finset.range (size x), F (totalSize ((xs.map size).take k) + u) = g x) :
    ∑ r ∈ Finset.range (totalSize (xs.map size)), F r = (xs.map g).sum := by
  induction xs generalizing F with
  | nil => rfl
  | cons x xs ih =>
    have hhead := h 0 x rfl
    simp only [List.take_zero, totalSize_nil, Nat.zero_add] at hhead
    have hrest := ih (F := fun r => F (size x + r)) fun k y hy => by
      have htail := h (k + 1) y hy
      simpa [Nat.add_assoc] using htail
    rw [List.map_cons, totalSize_cons, Finset.sum_range_add, hhead, hrest, List.map_cons,
      List.sum_cons]

theorem mem_of_lookup_eq_some {β : Type} {l : List (Nat × β)} {i : Nat} {x : β}
    (h : l.lookup i = some x) : (i, x) ∈ l := by
  obtain ⟨front, back, rfl, -⟩ := List.lookup_eq_some_iff.mp h
  exact List.mem_append_right front List.mem_cons_self

namespace Problem

variable {α : Type} [Zero α] [One α] [Add α] [Sub α] [Mul α] [Div α] [NatCast α] [BEq α] [LE α]
  [DecidableLE α] [Elementary α]

/-- The projected Jacobian of a residual block for a parameter block, if it has one. -/
def jacobianOf (p : Problem α) (Ps : Array (Option (Dense α))) (applyLoss : Bool)
    (r : ResidualBlock α) (i : Nat) : Option (Dense α) :=
  match p.evaluate Ps applyLoss r with
  | .ok e => (r.blocks.zip e.jacobians).lookup i
  | .error _ => none

/-- What a residual block has for a residual and a direction of a parameter block; zero if it has
no Jacobian for the block. -/
def entryOf (p : Problem α) (Ps : Array (Option (Dense α))) (applyLoss : Bool)
    (r : ResidualBlock α) (w i u : Nat) : α :=
  ((p.jacobianOf Ps applyLoss r i).map fun G => G.get w u).getD 0

section Found

variable {p : Problem α} {Ps : Array (Option (Dense α))} {applyLoss : Bool} {r : ResidualBlock α}
  {e : Evaluated α}

omit [One α] [Sub α] [Div α] [NatCast α] [BEq α] [LE α] [DecidableLE α] [Elementary α] in
/-- What is found for a block after the projection is the projection of what is found before. -/
theorem lookup_of_project {blocks : List Nat} {Js Ks : List (Dense α)}
    (h : project Ps blocks Js = .ok Ks) (i : Nat) :
    ((blocks.zip Js).lookup i).mapM (projectOne Ps i) = .ok ((blocks.zip Ks).lookup i) := by
  induction blocks generalizing Js Ks with
  | nil => rfl
  | cons j blocks ih =>
    cases Js with
    | nil =>
      cases h
      rfl
    | cons J Js =>
      rw [project_eq, List.zip_cons_cons, List.mapM_cons] at h
      obtain ⟨G, hG, hrest⟩ := bind_eq_ok_iff.mp h
      obtain ⟨Gs, hGs, hcons⟩ := bind_eq_ok_iff.mp hrest
      cases hcons
      rw [← project_eq] at hGs
      rw [List.zip_cons_cons, List.zip_cons_cons, List.lookup_cons, List.lookup_cons]
      cases hij : i == j with
      | true =>
        obtain rfl := eq_of_beq hij
        exact congrArg (Except.map some) hG
      | false => exact ih hGs

theorem jacobianOf_of_evaluate (h : p.evaluate Ps applyLoss r = .ok e) (i : Nat) :
    p.jacobianOf Ps applyLoss r i = (r.blocks.zip e.jacobians).lookup i := by
  rw [jacobianOf, h]

/-- The Jacobian of a residual block for a parameter block is projected on its own. -/
theorem exists_linearized_of_evaluate (h : p.evaluate Ps applyLoss r = .ok e) :
    ∃ residual Js, p.linearized applyLoss r = .ok (residual, Js) ∧
      ∀ i, ((r.blocks.zip Js).lookup i).mapM (projectOne Ps i) =
        .ok (p.jacobianOf Ps applyLoss r i) := by
  have hproject := h
  rw [evaluate_eq_bind] at hproject
  obtain ⟨⟨residual, Js⟩, hlinearized, hmap⟩ := bind_eq_ok_iff.mp hproject
  obtain ⟨Ks, hKs, rfl⟩ := map_eq_ok_iff.mp hmap
  refine ⟨residual, Js, hlinearized, fun i => ?_⟩
  rw [jacobianOf_of_evaluate h, lookup_of_project hKs]

/-- The sizes of a Jacobian that fits. -/
theorem shape_of_jacobianOf {bounds : ColumnBounds} {n : Nat}
    (h : p.evaluate Ps applyLoss r = .ok e) (fits : Fits bounds n r.blocks e.jacobians) {i : Nat}
    {G : Dense α} (hG : p.jacobianOf Ps applyLoss r i = some G) (hi : 0 < bounds.widthAt i) :
    G.rows = n ∧ G.cols = bounds.widthAt i := by
  rw [jacobianOf_of_evaluate h] at hG
  obtain ⟨hrows, hcols⟩ := fits (i, G) (mem_of_lookup_eq_some hG)
    (ColumnBounds.size_rangeAt_ne_zero hi)
  exact ⟨hrows, by simp [ColumnBounds.widthAt, ColumnRange.width, ← hcols]⟩

end Found

section Sums

variable {K : Type} [Field K] [BEq K] [LE K] [DecidableLE K] [Elementary K]

/-- What a residual block adds to the normal matrix at two directions. -/
def addend (p : Problem K) (Ps : Array (Option (Dense K))) (applyLoss : Bool)
    (r : ResidualBlock K) (i u j v : Nat) : K :=
  ∑ w ∈ Finset.range (p.residualCount r),
    p.entryOf Ps applyLoss r w i u * p.entryOf Ps applyLoss r w j v

/-- The normal matrix by directions, as a sum over the residual blocks. -/
def gram (p : Problem K) (bounds : ColumnBounds) (Ps : Array (Option (Dense K)))
    (applyLoss : Bool) : Matrix bounds.Place bounds.Place K :=
  Matrix.of fun c d =>
    (p.residuals.toList.map fun r => p.addend Ps applyLoss r c.1 c.2 d.1 d.2).sum

variable {p : Problem K}

/-- A Jacobian is there for evaluated residual blocks that fit, and the entries of its normal matrix
are those of the sum over them. -/
theorem sum_entries_eq_gram (s : p.Sound) {schedule : Schedule} {bounds : ColumnBounds}
    {applyLoss : Bool} {threads : Int} {J : Compressed K} (t : bounds.Tiled)
    (hsize : bounds.ranges.size = p.blocks.size)
    (h : (p.jacobian schedule bounds applyLoss threads).answer = .ok J) :
    ∃ Ps, p.projections bounds = .ok Ps ∧
      (∀ r ∈ p.residuals, ∃ e, p.evaluate Ps applyLoss r = .ok e ∧
        Fits bounds (p.residualCount r) r.blocks e.jacobians) ∧
      ∀ c d, ∑ k ∈ Finset.range J.pattern.numRows,
        J.entry k (bounds.columnOf c) * J.entry k (bounds.columnOf d) =
          p.gram bounds Ps applyLoss c d := by
  obtain ⟨Ps, found, hPs, hfound, hrows, -, hstored⟩ := stored_jacobian s t hsize h
  obtain ⟨-, -, ascending⟩ := pattern_jacobian t h
  have hevaluated : ∀ {k : Nat} {r : ResidualBlock K}, p.residuals[k]? = some r →
      ∃ e, found[k]? = some e ∧ p.evaluate Ps applyLoss r = .ok e :=
    fun hr => getElem?_of_mapM_eq_ok hfound (by rw [Array.getElem?_toList]; exact hr)
  refine ⟨Ps, hPs, fun r hr => ?_, fun c d => ?_⟩
  · obtain ⟨k, hk⟩ := Array.mem_iff_getElem?.mp hr
    obtain ⟨e, he, hevaluate⟩ := hevaluated hk
    exact ⟨e, hevaluate, (hstored k r e hk he).1⟩
  · rw [hrows, rowStart_size]
    refine sum_parts fun k r hk => Finset.sum_congr rfl fun u hu => ?_
    rw [Array.getElem?_toList] at hk
    have hu : u < p.residualCount r := Finset.mem_range.mp hu
    obtain ⟨e, he, hevaluate⟩ := hevaluated hk
    have hentry : ∀ c : bounds.Place, J.entry (p.rowStart k + u) (bounds.columnOf c) =
        p.entryOf Ps applyLoss r u c.1 c.2 := by
      intro c
      have hread := (hstored k r e hk he).2 c.1 u c.2 hu c.2.isLt
      simp only [entryOf, jacobianOf, hevaluate]
      rw [← hread]
      cases hstored' : J.stored? (p.rowStart k + u) ((bounds.rangeAt c.1).first + c.2) with
      | none => exact Compressed.entry_of_stored_eq_none hstored'
      | some x =>
        refine Compressed.entry_of_stored_eq_some ascending ?_ hstored'
        rw [hrows]
        exact rowStart_add_lt hk hu
    exact congrArg₂ (· * ·) (hentry c) (hentry d)

/-- If the normal matrix is invertible, every block with columns has a Jacobian somewhere. -/
theorem exists_jacobianOf_of_isUnit {bounds : ColumnBounds} {Ps : Array (Option (Dense K))}
    {applyLoss : Bool} (h : IsUnit (p.gram bounds Ps applyLoss)) {i : Nat}
    (hi : 0 < bounds.widthAt i) :
    ∃ r ∈ p.residuals, ∃ G, p.jacobianOf Ps applyLoss r i = some G := by
  by_contra hnone
  push Not at hnone
  let c : bounds.Place := ⟨⟨i, ColumnBounds.lt_size_of_widthAt_pos hi⟩, ⟨0, hi⟩⟩
  have hrow : ∀ d, p.gram bounds Ps applyLoss c d = 0 := by
    intro d
    refine List.sum_eq_zero fun x hx => ?_
    obtain ⟨r, hr, rfl⟩ := List.mem_map.mp hx
    have hjacobian : p.jacobianOf Ps applyLoss r i = none :=
      Option.eq_none_iff_forall_ne_some.mpr (hnone r (Array.mem_toList_iff.mp hr))
    refine Finset.sum_eq_zero fun w _ => ?_
    rw [entryOf, hjacobian, Option.map_none, Option.getD_none, zero_mul]
  rw [isUnit_iff_isUnit_det, det_eq_zero_of_row_eq_zero c hrow] at h
  exact not_isUnit_zero h

end Sums

end Problem

namespace Covariance

/-! ## What elimination leaves -/

section Computing

variable {K : Type} [Field K] [LinearOrder K] [Elementary K] {engine : Engine K}
  {c : Covariance K} {p : Problem K} {request : List Item}

/-- A function of two columns gives at those of all directions the entries of the inverse of the
normal matrix, which is a sum over the evaluated residual blocks. -/
structure Inverts (p : Problem K) (bounds : ColumnBounds) (applyLoss : Bool)
    (Ps : Array (Option (Dense K))) (f : Nat → Nat → K) : Prop where
  projected : p.projections bounds = .ok Ps
  evaluated : ∀ r ∈ p.residuals, ∃ e, p.evaluate Ps applyLoss r = .ok e ∧
    Problem.Fits bounds (p.residualCount r) r.blocks e.jacobians
  isUnit : IsUnit (p.gram bounds Ps applyLoss)
  entry_eq : ∀ c d, f (bounds.columnOf c) (bounds.columnOf d) = (p.gram bounds Ps applyLoss)⁻¹ c d

variable {plan : Plan} {applyLoss : Bool} {f : Nat → Nat → K}

/-- Where the normal matrix was inverted, the frames of blocks with columns have their sizes. -/
theorem Inverts.fits (hplan : planOf p request = .ok plan) {Ps : Array (Option (Dense K))}
    (h : Inverts p plan.bounds applyLoss Ps f) {i : Nat} (hi : 0 < plan.bounds.widthAt i) :
    Fits plan p i := by
  obtain ⟨r, hr, G, hG⟩ := Problem.exists_jacobianOf_of_isUnit h.isUnit hi
  obtain ⟨e, he, fits⟩ := h.evaluated r hr
  obtain ⟨-, hcols⟩ := Problem.shape_of_jacobianOf he fits hG hi
  obtain ⟨residual, Js, hlinearized, hprojected⟩ := Problem.exists_linearized_of_evaluate he
  have hlookup := hprojected i
  rw [hG] at hlookup
  cases hJ : (r.blocks.zip Js).lookup i with
  | none =>
    rw [hJ] at hlookup
    cases hlookup
  | some J =>
    rw [hJ] at hlookup
    obtain ⟨G', hone, hsome⟩ := map_eq_ok_iff.mp hlookup
    cases hsome
    have hambient : J.cols = (p.blockAt i).ambientSize :=
      (Problem.shape_of_linearized hlinearized (mem_of_lookup_eq_some hJ)).2
    have hsize : plan.bounds.ranges.size = p.blocks.size := by
      rw [bounds_of_planOf hplan, ColumnBounds.size_ranges_make]
    have hlt : i < p.blocks.size := by
      rw [← hsize]
      exact ColumnBounds.lt_size_of_widthAt_pos hi
    have hprojection := Problem.projectionAt_of_projections hsize h.projected hlt
    unfold Problem.projectionAt at hprojection
    unfold Problem.projectOne at hone
    unfold Fits Coordinates.frame
    cases hm : (p.blockAt i).manifold with
    | none =>
      simp only [hm, Except.ok.injEq] at hprojection
      simp only [← hprojection, Except.ok.injEq] at hone
      have hambient' : plan.bounds.widthAt i = (p.blockAt i).ambientSize := by
        rw [← hcols, ← hone, hambient]
      exact ⟨_, rfl, hambient', rfl⟩
    | some m =>
      simp only [hm, if_neg (ColumnBounds.size_rangeAt_ne_zero hi)] at hprojection
      obtain ⟨P, hP, hPs⟩ := map_eq_ok_iff.mp hprojection
      simp only [← hPs] at hone
      obtain ⟨hfit, rfl⟩ := Dense.mul?_eq_ok_iff.mp hone
      exact ⟨P, hP, hfit.symm.trans hambient, hcols⟩

/-- All frames that answers go by have their sizes. -/
theorem fitted_of_inverts (hplan : planOf p request = .ok plan)
    (h : plan.pattern.nonzeros ≠ 0 → ∃ Ps, Inverts p plan.bounds applyLoss Ps f) (i j : Nat) :
    Fitted plan p i j := by
  intro hi hj hcovers
  obtain ⟨Ps, inverts⟩ := h ((regular_of_planOf hplan).1.toWellFormed.nonzeros_ne_zero hcovers)
  exact ⟨inverts.fits hplan hi, inverts.fits hplan hj⟩

variable [IsStrictOrderedRing K]

/-- With exact factorisations, elimination leaves the entries of the inverse of the normal matrix
where anything was asked for. -/
theorem exists_inverts_of_compute (s : p.Sound) (exact : engine.FactorsExactly)
    (halgorithm : c.options.algorithm = .sparseQr) (hlibrary : c.options.library = .elimination)
    (h : (compute engine c p request).answer = .ok true) :
    ∃ plan f, planOf p request = .ok plan ∧
      (compute engine c p request).state =
        c.holding plan (Truncation.gather f plan.pattern) ∧
      (plan.pattern.nonzeros ≠ 0 →
        ∃ Ps, Inverts p plan.bounds c.options.applyLoss Ps f) := by
  obtain ⟨plan, values, hplan, hfilled, hstate⟩ := exists_of_compute h
  obtain ⟨r, t, -⟩ := regular_of_planOf hplan
  by_cases hempty : plan.pattern.nonzeros = 0
  · -- nothing is stored, so that any function has the stored values
    rw [fillPlan, if_pos hempty] at hfilled
    cases hfilled
    refine ⟨plan, fun _ _ => 0, hplan, ?_, fun hne => absurd hempty hne⟩
    rw [hstate, Truncation.gather_of_nonzeros_eq_zero _ r.toWellFormed hempty]
    rfl
  · obtain ⟨J, hJ, hunit, hinverse⟩ :=
      exists_inverse_of_compute exact halgorithm hlibrary hplan hempty h
    refine ⟨plan, _, hplan, hinverse, fun _ => ?_⟩
    have hsize : plan.bounds.ranges.size = p.blocks.size := by
      rw [bounds_of_planOf hplan, ColumnBounds.size_ranges_make]
    obtain ⟨Ps, hPs, hevaluated, hgram⟩ := Problem.sum_entries_eq_gram s t hsize hJ
    obtain ⟨hiff, hentry⟩ := entryAt_inv_normalMatrix t (Problem.pattern_jacobian t hJ).1 hgram
    exact ⟨Ps, hPs, hevaluated, hiff.mp hunit, hentry⟩

end Computing

/-! ## Answers by positions -/

/-- About the parameters there is an answer wherever the frames have their sizes. -/
theorem exists_answerAt_of_fitted {K : Type} [Field K] (f : Nat → Nat → K) {plan : Plan}
    {q : Problem K} {i j : Nat} (fitted : Fitted plan q i j) :
    ∃ found, answerAt f plan q .ambient i j = .ok found := by
  rcases isShaped_answerAt_iff.mpr fitted with hnone | ⟨B, hB, -⟩
  · exact ⟨none, hnone⟩
  · exact ⟨some B, hB⟩

section Asking

variable {α : Type} [Zero α] [One α] [Add α] [Mul α] [Div α] [NatCast α]

/-- About tangent vectors there is always an answer. -/
theorem exists_answerAt_tangent (f : Nat → Nat → α) (plan : Plan) (q : Problem α) (i j : Nat) :
    ∃ found, answerAt f plan q .tangent i j = .ok found := by
  unfold answerAt
  split
  · exact ⟨_, rfl⟩
  · split <;> exact ⟨_, rfl⟩

/-- What is answered about two positions, if it goes into its place in a joint matrix. -/
def placedAt (f : Nat → Nat → α) (plan : Plan) (q : Problem α) (coordinates : Coordinates)
    (pair : Nat × Nat) : Except Fault (Option (Dense α)) :=
  match answerAt f plan q coordinates pair.1 pair.2 with
  | .ok (some B) =>
    if goesInto (coordinates.size (q.blockAt pair.1)) B.rows &&
        goesInto (coordinates.size (q.blockAt pair.2)) B.cols then .ok (some B)
    else .error .shapes
  | answer => answer

/-- A joint matrix is made of what is answered about the positions of its handles. -/
theorem answer_matrix_holding (f : Nat → Nat → α) {p q : Problem α} {request : List Item}
    {plan : Plan} (h : planOf p request = .ok plan) (c : Covariance α) (engine : Engine α)
    (coordinates : Coordinates) {handles : List Atom}
    (hknown : ∀ a ∈ handles, ∀ k, q.position a = .ok k → k < plan.bounds.ranges.size) :
    ((c.holding plan (Truncation.gather f plan.pattern)).matrix engine q coordinates
        handles).answer =
      handles.mapM q.position >>= fun positions =>
        ((Request.allPairs positions).mapM (placedAt f plan q coordinates)).map fun found =>
          (found.mapM id).map fun Bs =>
            assemble (memberSizes q coordinates positions) Bs.toArray := by
  have hmatrix := answer_matrixIn engine.schedule c.options.threads plan
    (Truncation.gather f plan.pattern) q coordinates handles
  rw [mapM_block] at hmatrix
  refine hmatrix.trans ?_
  cases hpositions : handles.mapM q.position with
  | error e => rfl
  | ok positions =>
    have hlength := length_of_mapM_eq_ok hpositions
    -- both lists of members are read off from the handles with their positions
    have hhandles : handles.zip ((positions.map q.blockAt).map coordinates.size) =
        (handles.zip positions).map fun ak => (ak.1, coordinates.size (q.blockAt ak.2)) := by
      rw [List.map_map, List.zip_map_right]
      rfl
    have hsecond : positions = (handles.zip positions).map Prod.snd :=
      (List.map_snd_zip (Nat.le_of_eq hlength)).symm
    have hanswer : ∀ pair ∈ Request.allPairs (handles.zip positions),
        placed plan (Truncation.gather f plan.pattern) q coordinates
            ((pair.1.1, coordinates.size (q.blockAt pair.1.2)),
              (pair.2.1, coordinates.size (q.blockAt pair.2.2))) =
          placedAt f plan q coordinates (pair.1.2, pair.2.2) := by
      rintro ⟨⟨a, k⟩, b, l⟩ hpair
      obtain ⟨i, j, -, hi, hj⟩ := Request.mem_allPairs.mp hpair
      obtain ⟨ha, hk⟩ := List.getElem?_zip_eq_some.mp hi
      obtain ⟨hb, hl⟩ := List.getElem?_zip_eq_some.mp hj
      have hak := eq_ok_of_mapM_eq_ok hpositions ha hk
      have hbl := eq_ok_of_mapM_eq_ok hpositions hb hl
      have hblock := blockIn_of_planOf f h coordinates hak hbl
        (hknown a (List.mem_of_getElem? ha) k hak) (hknown b (List.mem_of_getElem? hb) l hbl)
      simp only [placedAt, ← hblock]
      rfl
    have hmembers : placedAll plan (Truncation.gather f plan.pattern) q coordinates
        (handles.zip ((positions.map q.blockAt).map coordinates.size)) =
          (Request.allPairs positions).mapM (placedAt f plan q coordinates) := by
      rw [placedAll, hhandles, Request.map_allPairs, List.mapM_map, hsecond, Request.map_allPairs,
        List.mapM_map, ← hsecond]
      exact mapM_congr hanswer
    have hsizes : ((positions.map q.blockAt).map coordinates.size).map Int.toNat =
        memberSizes q coordinates positions := by
      simp [memberSizes, List.map_map, Function.comp_def]
    simp only [Except.map, bind, Except.bind, hmembers, hsizes]

end Asking

end Covariance

end LeastSquares
