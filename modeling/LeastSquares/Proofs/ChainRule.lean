/-
LeastSquares.Proofs.ChainRule — the Jacobian over the free columns is the chain rule.

A parameter block moves along its tangent space, so by the chain rule the derivative of a residual
by the tangent vector is the Jacobian of the cost times the Jacobian of the block. This module says
that a Jacobian stores exactly these products, at the rows of the residual block and the columns of
the parameter block, for costs that return one matrix of the right shape for each of their blocks
(`Returns`).

Whether there is a Jacobian is decided by two things, and by nothing else: every block with columns
must have a Jacobian of the shape that its sizes promise (`Charted`), and the losses that are
applied must have corrections. `charted_of_jacobian` and `exists_jacobian` are the two directions,
`stored_along` says what is stored, and `jacobian_chain_rule` puts everything together.
-/
import LeastSquares.Manifold.Subset
import LeastSquares.Proofs.Holding
import LeastSquares.Proofs.Normal
import LeastSquares.Proofs.Rational

namespace LeastSquares

/-! ## The Jacobian of a block -/

/-- A Jacobian by the parameters of a block, taken by its tangent vectors: multiplied by the block's
own Jacobian, which is the identity without a manifold and is then left out. -/
def ParameterBlock.along {α : Type} [Zero α] [Add α] [Mul α] (b : ParameterBlock α)
    (G P : Dense α) : Dense α :=
  match b.manifold with
  | none => G
  | some _ => G.mul P

/-- Over a ring leaving out the identity makes no difference. -/
theorem ParameterBlock.along_eq_mul {R : Type} [NonAssocSemiring R] {b : ParameterBlock R}
    {G P : Dense R} (hP : b.plusJacobian = .ok P) (hG : G.cols = b.ambientSize) :
    b.along G P = G.mul P := by
  unfold plusJacobian at hP
  unfold along
  cases hmanifold : b.manifold with
  | none =>
    rw [hmanifold, Except.ok.injEq, ← hG] at hP
    rw [← hP, Dense.mul_identity]
  | some m => rfl

/-! ## Stored entries -/

namespace Compressed

/-- An entry that is not stored is zero. -/
theorem entry_of_stored_eq_none {α : Type} [Zero α] [Add α] {A : Compressed α} {i j : Nat}
    (h : A.stored? i j = none) : A.entry i j = 0 := by
  have hnone : (A.pattern.positions i).filter (fun k => A.pattern.column k == j) = [] := by
    refine List.filter_eq_nil_iff.mpr fun k hk heq => ?_
    have hmem : (A.pattern.column k, A.value k) ∈ A.sparseRow i :=
      List.mem_map.mpr ⟨k, hk, rfl⟩
    have hne := List.lookup_eq_none_iff.mp h _ hmem
    simp only [beq_iff_eq] at heq
    simp [heq] at hne
  rw [entry, hnone]
  rfl

/-- Over a ring an entry that is stored once is what is stored. -/
theorem entry_of_stored_eq_some {R : Type} [CommRing R] {A : Compressed R}
    (a : A.pattern.Ascending) {i j : Nat} (hi : i < A.pattern.numRows) {x : R}
    (h : A.stored? i j = some x) : A.entry i j = x := by
  rw [entry_eq]
  have hrow := ascending_sparseRow a hi
  rw [stored?] at h
  generalize A.sparseRow i = row at h hrow
  induction row with
  | nil => cases h
  | cons p row ih =>
    obtain ⟨k, y⟩ := p
    rw [List.lookup_cons] at h
    rw [SparseRow.entry_cons]
    by_cases hkj : k = j
    · subst hkj
      rw [beq_self_eq_true, Option.some.injEq] at h
      rw [if_pos rfl, hrow.entry_rest (Nat.le_refl k), add_zero, h]
    · have hne : (j == k) = false := by simpa using Ne.symm hkj
      rw [hne] at h
      rw [if_neg hkj, zero_add]
      exact ih h hrow.tail

end Compressed

namespace Problem

variable {α : Type}

/-! ## What costs return -/

/-- The cost of a residual block returns a residual and, for each of its blocks, a matrix with a row
for each residual and a column for each parameter. -/
structure Returns (p : Problem α) (r : ResidualBlock α) (residual : Array α)
    (Gs : List (Dense α)) : Prop where
  residual_eq : r.cost.residual (p.valuesOf r) = .ok residual
  jacobians_eq : r.cost.jacobians (p.valuesOf r) = .ok (Gs.map Tensor.ofDense)
  length_eq : Gs.length = r.blocks.length
  shape : ∀ iG ∈ r.blocks.zip Gs,
    iG.2.rows = residual.size ∧ iG.2.cols = (p.blockAt iG.1).ambientSize

/-- Blocks with columns have a Jacobian of the shape that their sizes promise. -/
def Charted [Zero α] [One α] (p : Problem α) : Prop :=
  ∀ i, ColumnBounds.width p true i ≠ 0 → ∃ P, (p.blockAt i).plusJacobian = .ok P ∧
    P.rows = (p.blockAt i).ambientSize ∧ (P.cols : Int) = (p.blockAt i).tangentSize

/-- A block with columns is used, and has as many as tangent directions. -/
theorem width_of_ne_zero {p : Problem α} {i : Nat} (h : ColumnBounds.width p true i ≠ 0) :
    ColumnBounds.width p true i = (p.blockAt i).tangentSize ∧ ∃ r ∈ p.residuals, i ∈ r.blocks := by
  unfold ColumnBounds.width at h ⊢
  by_cases hnone : ((p.blockAt i).isConstant || !p.uses i) = true
  · simp [hnone] at h
  · simp only [if_neg hnone, if_true, true_and]
    simp only [Bool.or_eq_true, Bool.not_eq_true', not_or, Bool.not_eq_true, Bool.not_eq_false,
      uses, Array.any_eq_true, List.contains_eq_mem, decide_eq_true_eq] at hnone
    obtain ⟨k, hk, hmem⟩ := hnone.2
    exact ⟨_, Array.getElem_mem hk, hmem⟩

theorem size_rangeAt_make (p : Problem α) {i : Nat} (h : i < p.blocks.size) :
    ((ColumnBounds.make p true).rangeAt i).size = ColumnBounds.width p true i := by
  rw [ColumnBounds.rangeAt_make p true h]

/-- In a list of pairs the partner of a member is found under it. -/
theorem lookup_zip {β : Type} {l : List Nat} (h : l.Nodup) {j i : Nat} (hj : l[j]? = some i)
    (l' : List β) : (l.zip l').lookup i = l'[j]? := by
  induction l generalizing j l' with
  | nil => cases hj
  | cons k l ih =>
    obtain ⟨hk, hl⟩ := List.nodup_cons.mp h
    cases l' with
    | nil => simp
    | cons b l' =>
      rw [List.zip_cons_cons, List.lookup_cons]
      cases j with
      | zero =>
        obtain rfl : k = i := by simpa using hj
        simp
      | succ j =>
        have hj : l[j]? = some i := by simpa using hj
        have hne : (i == k) = false := by
          rw [beq_eq_false_iff_ne]
          rintro rfl
          exact hk (List.mem_of_getElem? hj)
        rw [hne, List.getElem?_cons_succ]
        exact ih hl hj l'

theorem lookup_zip_of_not_mem {β : Type} {l : List Nat} {i : Nat} (h : i ∉ l) (l' : List β) :
    (l.zip l').lookup i = none := by
  refine List.lookup_eq_none_iff.mpr fun p hp => ?_
  have hmem := (List.of_mem_zip hp).1
  rw [bne_iff_ne]
  rintro rfl
  exact h hmem

section Reading

variable [Zero α]

/-- Matrices of the right shapes are read as they are. -/
theorem readJacobians_ofDense {residuals : Nat} {xs : List (Array α)} {Gs : List (Dense α)}
    (hlength : Gs.length = xs.length)
    (h : ∀ xG ∈ xs.zip Gs, xG.2.rows = residuals ∧ xG.2.cols = xG.1.size) :
    Cost.readJacobians residuals xs (Gs.map Tensor.ofDense) = .ok Gs := by
  rw [Cost.readJacobians_eq, mapM_eq_ok_iff]
  induction xs generalizing Gs with
  | nil =>
    rw [List.length_eq_zero_iff.mp hlength]
    rfl
  | cons x xs ih =>
    cases Gs with
    | nil => cases hlength
    | cons G Gs =>
      obtain ⟨hrows, hcols⟩ := h (x, G) List.mem_cons_self
      have hread : Cost.readJacobian residuals x (Tensor.ofDense G) = .ok G := by
        unfold Cost.readJacobian
        rw [if_pos (by rw [← hrows, ← hcols]; exact G.size_eq), ← hrows, ← hcols]
        exact congrArg Except.ok G.ofArray_data
      simp only [List.map_cons, List.zip_cons_cons, hread, List.cons.injEq, true_and]
      exact ih (by simpa using hlength) fun xG hxG => h xG (List.mem_cons_of_mem _ hxG)

/-- A cost that returns what it should is evaluated to that. -/
theorem Returns.evaluate_eq {p : Problem α} {r : ResidualBlock α} {residual : Array α}
    {Gs : List (Dense α)} (h : p.Returns r residual Gs) :
    r.cost.evaluate (p.valuesOf r) = .ok (residual, Gs) := by
  refine Cost.evaluate_eq_ok_iff.mpr ⟨h.residual_eq, _, h.jacobians_eq, ?_⟩
  refine readJacobians_ofDense (by simp [valuesOf, h.length_eq]) ?_
  intro xG hxG
  rw [valuesOf, List.zip_map_left, List.mem_map] at hxG
  obtain ⟨iG, hiG, rfl⟩ := hxG
  exact h.shape iG hiG

omit [Zero α] in
theorem Returns.residualCount_eq {p : Problem α} {r : ResidualBlock α} {residual : Array α}
    {Gs : List (Dense α)} (h : p.Returns r residual Gs) : p.residualCount r = residual.size := by
  rw [residualCount, h.residual_eq]

end Reading

section Correcting

variable [Zero α] [One α] [Add α] [Sub α] [Mul α] [Div α] [NatCast α] [BEq α] [LE α]
  [DecidableLE α] [Elementary α]

/-- At a given residual each Jacobian is corrected on its own, and keeps its shape. -/
theorem exists_correction (r : ResidualBlock α) (applyLoss : Bool) (residual : Array α) :
    ∃ f : Dense α → Dense α,
      (∀ Gs Js, corrected r applyLoss residual Gs = .ok Js → Js = Gs.map f) ∧
      ∀ G, (f G).rows = G.rows ∧ (f G).cols = G.cols := by
  have hid : ∀ Gs Js : List (Dense α), (Except.ok Gs : Except Fault _) = .ok Js →
      Js = Gs.map id := fun Gs Js h => by
    cases h
    rw [List.map_id]
  unfold corrected
  cases applyLoss with
  | false => exact ⟨id, hid, fun _ => ⟨rfl, rfl⟩⟩
  | true =>
    cases r.cost.loss with
    | none => exact ⟨id, hid, fun _ => ⟨rfl, rfl⟩⟩
    | some loss =>
      cases hvalue : loss.evaluate (Dense.dot residual residual) with
      | error e =>
        refine ⟨id, fun Gs Js h => ?_, fun _ => ⟨rfl, rfl⟩⟩
        simp only [Loss.correct, hvalue] at h
        cases h
      | ok value =>
        simp only [Loss.correct, hvalue]
        by_cases hflat : (Dense.dot residual residual == 0 || value.curvature ≤ 0) = true
        · refine ⟨Dense.scale (Elementary.sqrt value.slope), fun Gs Js h => ?_, fun _ => ⟨rfl, rfl⟩⟩
          rw [if_pos hflat] at h
          cases h
          rfl
        · let s := Dense.dot residual residual
          let D := 1 + ((2 : Nat) : α) * s * value.curvature / value.slope
          refine ⟨Loss.bend (Elementary.sqrt value.slope) ((1 - Elementary.sqrt D) / s) residual,
            fun Gs Js h => ?_, fun _ => ⟨rfl, rfl⟩⟩
          rw [if_neg hflat] at h
          split at h
          · cases h
          · split at h
            · cases h
              rfl
            · cases h

/-- Corrections change the entries of Jacobians and not their shapes. -/
theorem exists_map_of_corrected {r : ResidualBlock α} {applyLoss : Bool} {residual : Array α}
    {Gs Js : List (Dense α)} (h : corrected r applyLoss residual Gs = .ok Js) :
    ∃ f : Dense α → Dense α, Js = Gs.map f ∧ ∀ G, (f G).rows = G.rows ∧ (f G).cols = G.cols := by
  obtain ⟨f, hmap, hshape⟩ := exists_correction r applyLoss residual
  exact ⟨f, hmap Gs Js h, hshape⟩

/-- Corrected Jacobians have the shapes of those that the cost returned. -/
theorem Returns.shape_corrected {p : Problem α} {r : ResidualBlock α} {residual : Array α}
    {Gs Js : List (Dense α)} {applyLoss : Bool} (h : p.Returns r residual Gs)
    (hcorrected : corrected r applyLoss residual Gs = .ok Js) :
    Js.length = r.blocks.length ∧ ∀ iJ ∈ r.blocks.zip Js,
      iJ.2.rows = residual.size ∧ iJ.2.cols = (p.blockAt iJ.1).ambientSize := by
  obtain ⟨f, rfl, hf⟩ := exists_map_of_corrected hcorrected
  refine ⟨by rw [List.length_map, h.length_eq], fun iJ hiJ => ?_⟩
  rw [List.zip_map_right, List.mem_map] at hiJ
  obtain ⟨iG, hiG, rfl⟩ := hiJ
  obtain ⟨hrows, hcols⟩ := h.shape iG hiG
  obtain ⟨hfrows, hfcols⟩ := hf iG.2
  exact ⟨hfrows.trans hrows, hfcols.trans hcols⟩

end Correcting

/-! ## Projected Jacobians -/

section Projecting

variable [Zero α] [One α] [Add α] [Mul α] {p : Problem α} {Ps : Array (Option (Dense α))}

omit [Add α] [Mul α] in
/-- Blocks with columns have projections. -/
theorem exists_projections (c : p.Charted) :
    ∃ Ps, p.projections (ColumnBounds.make p true) = .ok Ps := by
  rw [projections_eq (ColumnBounds.size_ranges_make p true)]
  obtain ⟨found, hfound⟩ : ∃ found, (List.range p.blocks.size).mapM
      (p.projectionAt (ColumnBounds.make p true)) = .ok found := by
    refine exists_mapM_eq_ok fun i hi => ?_
    unfold projectionAt
    rw [size_rangeAt_make p (List.mem_range.mp hi)]
    cases hmanifold : (p.blockAt i).manifold with
    | none => exact ⟨none, rfl⟩
    | some m =>
      by_cases hwidth : ColumnBounds.width p true i = 0
      · exact ⟨none, by simp [hwidth]⟩
      · obtain ⟨P, hP, -⟩ := c i hwidth
        unfold ParameterBlock.plusJacobian at hP
        simp only [hmanifold] at hP
        exact ⟨some P, by simp [hwidth, hP, Except.map]⟩
  exact ⟨_, by rw [hfound]; rfl⟩

/-- The Jacobian for a block with columns is taken along its tangent vectors. -/
theorem projectOne_eq_along (c : p.Charted)
    (hPs : p.projections (ColumnBounds.make p true) = .ok Ps) {i : Nat} {P J : Dense α}
    (hwidth : ColumnBounds.width p true i ≠ 0) (hi : i < p.blocks.size)
    (hP : (p.blockAt i).plusJacobian = .ok P) (hJ : J.cols = (p.blockAt i).ambientSize) :
    projectOne Ps i J = .ok ((p.blockAt i).along J P) := by
  have hat := projectionAt_of_projections (ColumnBounds.size_ranges_make p true) hPs hi
  obtain ⟨P', hP', hrows, -⟩ := c i hwidth
  rw [hP] at hP'
  cases hP'
  unfold projectionAt at hat
  unfold projectOne ParameterBlock.along
  unfold ParameterBlock.plusJacobian at hP
  cases hmanifold : (p.blockAt i).manifold with
  | none =>
    simp only [hmanifold, Except.ok.injEq] at hat
    simp only [← hat]
  | some m =>
    simp only [hmanifold] at hP
    simp only [hmanifold, size_rangeAt_make p hi, if_neg hwidth, hP, Except.map,
      Except.ok.injEq] at hat
    simp only [← hat]
    exact Dense.mul?_eq_ok (hJ.trans hrows.symm)

/-- Every Jacobian of the right shape is projected, and then as wide as its block's columns. -/
theorem exists_projectOne (c : p.Charted)
    (hPs : p.projections (ColumnBounds.make p true) = .ok Ps) {i : Nat} {J : Dense α}
    (hi : i < p.blocks.size) (hJ : J.cols = (p.blockAt i).ambientSize) :
    ∃ K, projectOne Ps i J = .ok K ∧ K.rows = J.rows ∧
      (ColumnBounds.width p true i ≠ 0 → (K.cols : Int) = ColumnBounds.width p true i) := by
  by_cases hwidth : ColumnBounds.width p true i = 0
  · have hat := projectionAt_of_projections (ColumnBounds.size_ranges_make p true) hPs hi
    have hnone : Ps.getD i none = none := by
      unfold projectionAt at hat
      rw [size_rangeAt_make p hi] at hat
      cases hmanifold : (p.blockAt i).manifold with
      | none => simpa [hmanifold, eq_comm] using hat
      | some m => simpa [hmanifold, hwidth, eq_comm] using hat
    exact ⟨J, by simp only [projectOne, hnone], rfl, fun hne => absurd hwidth hne⟩
  · obtain ⟨P, hP, hrows, hcols⟩ := c i hwidth
    refine ⟨_, projectOne_eq_along c hPs hwidth hi hP hJ, ?_, fun _ => ?_⟩
    · unfold ParameterBlock.along
      cases (p.blockAt i).manifold <;> rfl
    · rw [(width_of_ne_zero hwidth).1]
      unfold ParameterBlock.along
      cases hmanifold : (p.blockAt i).manifold with
      | none => simp [ParameterBlock.tangentSize, hmanifold, hJ]
      | some m => exact hcols

/-- Jacobians of the right shapes are projected, and fit. -/
theorem exists_project (c : p.Charted)
    (hPs : p.projections (ColumnBounds.make p true) = .ok Ps) {blocks : List Nat}
    {Js : List (Dense α)} {residuals : Nat} (hblocks : ∀ i ∈ blocks, i < p.blocks.size)
    (hJs : ∀ iJ ∈ blocks.zip Js, iJ.2.rows = residuals ∧
      iJ.2.cols = (p.blockAt iJ.1).ambientSize) :
    ∃ Ks, project Ps blocks Js = .ok Ks ∧
      Fits (ColumnBounds.make p true) residuals blocks Ks := by
  obtain ⟨Ks, hKs⟩ : ∃ Ks, project Ps blocks Js = .ok Ks := by
    rw [project_eq]
    refine exists_mapM_eq_ok fun iJ hiJ => ?_
    obtain ⟨K, hK, -⟩ :=
      exists_projectOne c hPs (hblocks _ (List.of_mem_zip hiJ).1) (hJs iJ hiJ).2
    exact ⟨K, hK⟩
  refine ⟨Ks, hKs, fun iK hiK hsize => ?_⟩
  obtain ⟨j, hj⟩ := List.mem_iff_getElem?.mp hiK
  obtain ⟨J, hJ, hone⟩ := projectOne_of_project hKs hj
  have hmem := List.mem_of_getElem? hJ
  have hi := hblocks _ (List.of_mem_zip hmem).1
  obtain ⟨hrows, hcols⟩ := hJs _ hmem
  obtain ⟨K, hK, hKrows, hKcols⟩ := exists_projectOne c hPs hi hcols
  rw [hone] at hK
  cases hK
  rw [size_rangeAt_make p hi] at hsize ⊢
  exact ⟨hKrows.trans hrows, hKcols hsize⟩

end Projecting

variable [Zero α] [One α] [Add α] [Sub α] [Mul α] [Div α] [NatCast α] [BEq α] [LE α]
  [DecidableLE α] [Elementary α]

/-! ## When there is a Jacobian -/

/-- With Jacobians of blocks of the promised shapes and corrections for all losses, there is a
Jacobian. -/
theorem exists_jacobian {p : Problem α} (s : p.Sound) (c : p.Charted) {applyLoss : Bool}
    (h : ∀ r ∈ p.residuals, ∃ residual Gs Js, p.Returns r residual Gs ∧
      corrected r applyLoss residual Gs = .ok Js) (schedule : Schedule) (threads : Int) :
    ∃ J, (p.jacobian schedule (ColumnBounds.make p true) applyLoss threads).answer = .ok J := by
  have hranges := ColumnBounds.size_ranges_make p true
  obtain ⟨Ps, hPs⟩ := exists_projections c
  have hevaluate : ∀ r ∈ p.residuals.toList, ∃ e, p.evaluate Ps applyLoss r = .ok e ∧
      Fits (ColumnBounds.make p true) e.residuals r.blocks e.jacobians := by
    intro r hr
    have hr := Array.mem_toList_iff.mp hr
    obtain ⟨residual, Gs, Js, hreturns, hcorrected⟩ := h r hr
    obtain ⟨Ks, hKs, hfits⟩ := exists_project c hPs (fun i hi => s.lt_size hr hi)
      (hreturns.shape_corrected hcorrected).2
    exact ⟨⟨residual.size, Ks⟩, evaluate_eq_ok_iff.mpr
      ⟨residual, Gs, Js, hreturns.evaluate_eq, hcorrected, hKs, rfl⟩, hfits⟩
  obtain ⟨found, hfound⟩ : ∃ found,
      p.residuals.toList.mapM (p.evaluate Ps applyLoss) = .ok found :=
    exists_mapM_eq_ok fun r hr => (hevaluate r hr).imp fun e he => he.1
  have hfits : ∀ re ∈ p.residuals.toList.zip found,
      Fits (ColumnBounds.make p true) re.2.residuals re.1.blocks re.2.jacobians := by
    intro re hre
    obtain ⟨k, hk⟩ := List.mem_iff_getElem?.mp hre
    obtain ⟨hr, he⟩ := List.getElem?_zip_eq_some.mp hk
    obtain ⟨e, he', hpe⟩ := getElem?_of_mapM_eq_ok hfound hr
    obtain ⟨e', he₂, hfitse⟩ := hevaluate re.1 (List.mem_of_getElem? hr)
    rw [he, Option.some.injEq] at he'
    rw [hpe, Except.ok.injEq] at he₂
    rw [he', he₂]
    exact hfitse
  exact jacobian_of_fits s hranges hPs hfound hfits schedule threads

/-- What a Jacobian was put together from, for costs that return what they should. -/
theorem evaluated_of_jacobian {p : Problem α} (s : p.Sound) {applyLoss : Bool}
    {schedule : Schedule} {threads : Int} {J : Compressed α}
    (h : (p.jacobian schedule (ColumnBounds.make p true) applyLoss threads).answer = .ok J) :
    ∃ Ps, p.projections (ColumnBounds.make p true) = .ok Ps ∧
      ∀ r ∈ p.residuals, ∀ residual Gs, p.Returns r residual Gs →
        ∃ Js Ks, corrected r applyLoss residual Gs = .ok Js ∧ project Ps r.blocks Js = .ok Ks ∧
          Fits (ColumnBounds.make p true) residual.size r.blocks Ks := by
  obtain ⟨Ps, found, rows, pieces, hPs, hfound, hstack, -⟩ := jacobian_eq_ok_iff.mp h
  have hblocks : ∀ re ∈ p.residuals.toList.zip found, ∀ i ∈ re.1.blocks,
      i < (ColumnBounds.make p true).ranges.size := by
    intro re hre i hi
    rw [ColumnBounds.size_ranges_make]
    exact s.lt_size (Array.mem_toList_iff.mp (List.of_mem_zip hre).1) hi
  have hfits := ((stack_eq_ok_iff hblocks).mp hstack).1
  refine ⟨Ps, hPs, fun r hr residual Gs hreturns => ?_⟩
  obtain ⟨k, hk⟩ := List.mem_iff_getElem?.mp (Array.mem_toList_iff.mpr hr)
  obtain ⟨e, he, hevaluate⟩ := getElem?_of_mapM_eq_ok hfound hk
  obtain ⟨residual', Gs', Js, hcost, hcorrected, hproject, hsize⟩ :=
    evaluate_eq_ok_iff.mp hevaluate
  rw [hreturns.evaluate_eq] at hcost
  cases hcost
  refine ⟨Js, e.jacobians, hcorrected, hproject, ?_⟩
  rw [← hsize]
  exact hfits (r, e) (List.mem_of_getElem? (List.getElem?_zip_eq_some.mpr ⟨hk, he⟩))

/-- Where there is a Jacobian, every block with columns has a Jacobian of the promised shape. -/
theorem charted_of_jacobian {p : Problem α} (s : p.Sound)
    (costs : ∀ r ∈ p.residuals, ∃ residual Gs, p.Returns r residual Gs) {applyLoss : Bool}
    {schedule : Schedule} {threads : Int} {J : Compressed α}
    (h : (p.jacobian schedule (ColumnBounds.make p true) applyLoss threads).answer = .ok J) :
    p.Charted := by
  obtain ⟨Ps, hPs, hparts⟩ := evaluated_of_jacobian s h
  intro i hwidth
  obtain ⟨htangent, r, hr, hir⟩ := width_of_ne_zero hwidth
  obtain ⟨residual, Gs, hreturns⟩ := costs r hr
  obtain ⟨Js, Ks, hcorrected, hproject, hfits⟩ := hparts r hr residual Gs hreturns
  obtain ⟨hlength, hshape⟩ := hreturns.shape_corrected hcorrected
  have hi := s.lt_size hr hir
  obtain ⟨j, hj⟩ := List.mem_iff_getElem?.mp hir
  obtain ⟨K, hK⟩ : ∃ K, Ks[j]? = some K := by
    have hlt : j < Ks.length := by
      rw [project_eq] at hproject
      rw [length_of_mapM_eq_ok hproject, List.length_zip, hlength, Nat.min_self]
      exact (List.getElem?_eq_some_iff.mp hj).1
    exact ⟨_, List.getElem?_eq_getElem hlt⟩
  have hpair : (r.blocks.zip Ks)[j]? = some (i, K) := List.getElem?_zip_eq_some.mpr ⟨hj, hK⟩
  obtain ⟨G, hG, hone⟩ := projectOne_of_project hproject hpair
  have hcols : G.cols = (p.blockAt i).ambientSize := (hshape _ (List.mem_of_getElem? hG)).2
  have hKcols : (K.cols : Int) = (p.blockAt i).tangentSize := by
    have hsize := size_rangeAt_make p hi
    rw [← htangent, ← hsize]
    exact (hfits _ (List.mem_of_getElem? hpair) (by rw [hsize]; exact hwidth)).2
  have hat := projectionAt_of_projections (ColumnBounds.size_ranges_make p true) hPs hi
  unfold projectionAt at hat
  unfold ParameterBlock.plusJacobian
  cases hmanifold : (p.blockAt i).manifold with
  | none =>
    refine ⟨_, rfl, rfl, ?_⟩
    simp [ParameterBlock.tangentSize, hmanifold, Dense.identity]
  | some m =>
    simp only [hmanifold, size_rangeAt_make p hi, if_neg hwidth] at hat
    obtain ⟨P, hP, hgetD⟩ := map_eq_ok_iff.mp hat
    simp only [projectOne, ← hgetD, Dense.mul?] at hone
    split at hone
    · rename_i hinner
      cases hone
      exact ⟨P, hP, by rw [← hinner, hcols], hKcols⟩
    · cases hone

/-! ## What is stored -/

/-- In the rows of a residual block, the columns of a parameter block store its Jacobian, corrected
and taken along the tangent vectors; those of a block that it does not use store nothing. -/
theorem stored_along {p : Problem α} (s : p.Sound) (c : p.Charted) {applyLoss : Bool}
    {schedule : Schedule} {threads : Int} {J : Compressed α}
    (h : (p.jacobian schedule (ColumnBounds.make p true) applyLoss threads).answer = .ok J)
    {k : Nat} {r : ResidualBlock α} (hr : p.residuals[k]? = some r) {residual : Array α}
    {Gs Js : List (Dense α)} (hreturns : p.Returns r residual Gs)
    (hcorrected : corrected r applyLoss residual Gs = .ok Js) {i : Nat} {P : Dense α}
    (hwidth : 0 < (ColumnBounds.make p true).widthAt i)
    (hP : (p.blockAt i).plusJacobian = .ok P) {u v : Nat} (hu : u < residual.size)
    (hv : v < (ColumnBounds.make p true).widthAt i) :
    (∀ (j : Nat) (G : Dense α), r.blocks[j]? = some i → Js[j]? = some G →
      J.stored? (p.rowStart k + u) (((ColumnBounds.make p true).rangeAt i).first + v) =
        some (((p.blockAt i).along G P).get u v)) ∧
    (i ∉ r.blocks →
      J.stored? (p.rowStart k + u) (((ColumnBounds.make p true).rangeAt i).first + v) = none) := by
  obtain ⟨Ps, found, hPs, hfound, -, -, hstored⟩ :=
    stored_jacobian s (ColumnBounds.tiled_make p true) (ColumnBounds.size_ranges_make p true) h
  have hr' : p.residuals.toList[k]? = some r := by rw [Array.getElem?_toList]; exact hr
  obtain ⟨e, he, hevaluate⟩ := getElem?_of_mapM_eq_ok hfound hr'
  have hread := (hstored k r e hr he).2 i u v (by rw [hreturns.residualCount_eq]; exact hu) hv
  obtain ⟨residual', Gs', Js', hcost, hcorrected', hproject, -⟩ := evaluate_eq_ok_iff.mp hevaluate
  rw [hreturns.evaluate_eq] at hcost
  cases hcost
  rw [hcorrected] at hcorrected'
  cases hcorrected'
  rw [hread]
  refine ⟨fun j G hj hG => ?_, fun hnot => ?_⟩
  · have hmem := List.mem_of_getElem? hj
    have hi := s.lt_size (Array.mem_of_getElem? hr) hmem
    have hne : ColumnBounds.width p true i ≠ 0 := by
      intro hzero
      rw [ColumnBounds.widthAt_make p true hi, hzero] at hwidth
      exact absurd hwidth (by decide)
    have hpair : (r.blocks.zip Js)[j]? = some (i, G) := List.getElem?_zip_eq_some.mpr ⟨hj, hG⟩
    have hcols := ((hreturns.shape_corrected hcorrected).2 _ (List.mem_of_getElem? hpair)).2
    rw [project_eq] at hproject
    obtain ⟨K, hK, hone⟩ := getElem?_of_mapM_eq_ok hproject hpair
    rw [projectOne_eq_along c hPs hne hi hP hcols, Except.ok.injEq] at hone
    rw [lookup_zip (s.nodup r (Array.mem_of_getElem? hr)) hj, hK, hone]
    rfl
  · rw [lookup_zip_of_not_mem hnot]
    rfl

/-- **The chain rule.** For a problem that calls have made, whose costs return one matrix of the
right shape for each of their blocks: there is a Jacobian over the free columns exactly when every
block with columns has a Jacobian of the promised shape and the losses that are applied have
corrections. It has a row for each residual; in the rows of a residual block and the columns of a
parameter block it stores the corrected Jacobian of the cost times the Jacobian of the block, and
nothing where the cost does not use the block. Holding blocks constant deletes their columns and
changes nothing else. -/
theorem jacobian_chain_rule {p : Problem α} (reachable : p.Reachable)
    (costs : ∀ r ∈ p.residuals, ∃ residual Gs, p.Returns r residual Gs) (schedule : Schedule)
    (applyLoss : Bool) (threads : Int) :
    ((∃ J, (p.jacobian schedule (ColumnBounds.make p true) applyLoss threads).answer = .ok J) ↔
      p.Charted ∧ ∀ r ∈ p.residuals, ∀ residual Gs, p.Returns r residual Gs →
        ∃ Js, corrected r applyLoss residual Gs = .ok Js) ∧
    ∀ J, (p.jacobian schedule (ColumnBounds.make p true) applyLoss threads).answer = .ok J →
      J.pattern.numRows = p.rowStart p.residuals.size ∧
      (J.pattern.numCols : Int) = (ColumnBounds.make p true).numCols ∧
      (∀ k r residual Gs, p.residuals[k]? = some r → p.Returns r residual Gs →
        ∃ Js, corrected r applyLoss residual Gs = .ok Js ∧ Js.length = r.blocks.length ∧
          ∀ i, 0 < (ColumnBounds.make p true).widthAt i →
            ∃ P, (p.blockAt i).plusJacobian = .ok P ∧ P.rows = (p.blockAt i).ambientSize ∧
              P.cols = (ColumnBounds.make p true).widthAt i ∧
              ∀ u v, u < residual.size → v < P.cols →
                (∀ (j : Nat) (G : Dense α), r.blocks[j]? = some i → Js[j]? = some G →
                  J.stored? (p.rowStart k + u)
                      (((ColumnBounds.make p true).rangeAt i).first + v) =
                    some (((p.blockAt i).along G P).get u v)) ∧
                (i ∉ r.blocks →
                  J.stored? (p.rowStart k + u)
                      (((ColumnBounds.make p true).rangeAt i).first + v) = none ∧
                    J.entry (p.rowStart k + u)
                      (((ColumnBounds.make p true).rangeAt i).first + v) = 0)) ∧
      ∀ handles, ∃ J', ((p.holdAll handles).jacobian schedule
          (ColumnBounds.make (p.holdAll handles) true) applyLoss threads).answer = .ok J' ∧
        J'.pattern.numRows = J.pattern.numRows ∧
        J'.pattern.numCols = (p.keptColumns handles).length ∧
        ∀ row c column, row < J.pattern.numRows → (p.keptColumns handles)[c]? = some column →
          J'.stored? row c = J.stored? row column := by
  have s := reachable.sound
  refine ⟨⟨?_, ?_⟩, fun J h => ?_⟩
  · rintro ⟨J, h⟩
    obtain ⟨Ps, -, hparts⟩ := evaluated_of_jacobian s h
    refine ⟨charted_of_jacobian s costs h, fun r hr residual Gs hreturns => ?_⟩
    obtain ⟨Js, -, hcorrected, -⟩ := hparts r hr residual Gs hreturns
    exact ⟨Js, hcorrected⟩
  · rintro ⟨c, hcorrected⟩
    refine exists_jacobian s c (fun r hr => ?_) schedule threads
    obtain ⟨residual, Gs, hreturns⟩ := costs r hr
    obtain ⟨Js, hJs⟩ := hcorrected r hr residual Gs hreturns
    exact ⟨residual, Gs, Js, hreturns, hJs⟩
  · have c := charted_of_jacobian s costs h
    have t := ColumnBounds.tiled_make p true
    obtain ⟨-, -, -, -, hrows, hcols, -⟩ :=
      stored_jacobian s t (ColumnBounds.size_ranges_make p true) h
    refine ⟨hrows, ?_, ?_, jacobian_holdAll s h⟩
    · rw [hcols, t.numCols_eq, Int.toNat_natCast]
    · intro k r residual Gs hr hreturns
      obtain ⟨Ps, -, hparts⟩ := evaluated_of_jacobian s h
      obtain ⟨Js, -, hcorrected, -⟩ :=
        hparts r (Array.mem_of_getElem? hr) residual Gs hreturns
      refine ⟨Js, hcorrected, (hreturns.shape_corrected hcorrected).1, fun i hwidth => ?_⟩
      obtain ⟨hne, hcast⟩ : ColumnBounds.width p true i ≠ 0 ∧
          ((ColumnBounds.make p true).widthAt i : Int) = ColumnBounds.width p true i := by
        have hi : i < p.blocks.size := by
          rw [← ColumnBounds.size_ranges_make p true]
          exact ColumnBounds.lt_size_of_widthAt_pos hwidth
        rw [ColumnBounds.widthAt_make p true hi] at hwidth ⊢
        omega
      obtain ⟨P, hP, hProws, hPcols⟩ := c i hne
      have hwide : P.cols = (ColumnBounds.make p true).widthAt i := by
        have htangent := (width_of_ne_zero hne).1
        omega
      refine ⟨P, hP, hProws, hwide, fun u v hu hv => ?_⟩
      rw [hwide] at hv
      obtain ⟨hused, hunused⟩ := stored_along s c h hr hreturns hcorrected hwidth hP hu hv
      exact ⟨hused, fun hnot => ⟨hunused hnot, Compressed.entry_of_stored_eq_none (hunused hnot)⟩⟩

/-! ## Two costs of three blocks

The second block moves along its second coordinate alone and the third one is held. The first cost
names its blocks against the order of their handles. -/

/-- Two coordinates of which the first one is constant. -/
def secondOnly : Subset := ⟨2, [0], by decide, by decide⟩

/-- Two residuals of the second and the first block. -/
def upperCost : Cost ℚ where
  residual _ := .ok #[1, 1]
  jacobians _ := .ok [⟨[2, 2], #[1, 2, 3, 4]⟩, ⟨[2, 1], #[5, 6]⟩]
  loss := none

/-- One residual of the third and the second block, with a loss. -/
def lowerCost : Cost ℚ where
  residual _ := .ok #[1]
  jacobians _ := .ok [⟨[1, 1], #[7]⟩, ⟨[1, 2], #[8, 9]⟩]
  loss := some .trivial

/-- The calls that make the problem. -/
def tripodEdits : List (Edit ℚ) :=
  [.addBlock #[1] none, .addBlock #[2, 3] (some (.ofSubset secondOnly)), .addBlock #[4] none,
    .setHeld (.integer 2) true, .addResidual [.integer 1, .integer 0] upperCost,
    .addResidual [.integer 2, .integer 1] lowerCost]

/-- The problem of the two costs. -/
def tripod : Problem ℚ := tripodEdits.foldl (fun p edit => (edit.run p).state) .empty

theorem reachable_tripod : tripod.Reachable :=
  .run _ (.run _ (.run _ (.run _ (.run _ (.run _ .empty)))))

theorem residuals_tripod : tripod.residuals =
    #[⟨[1, 0], [.integer 1, .integer 0], upperCost⟩,
      ⟨[2, 1], [.integer 2, .integer 1], lowerCost⟩] := by cbv

/-- The Jacobians of the first cost. -/
def upperJacobians : List (Dense ℚ) := [⟨2, 2, #[1, 2, 3, 4], rfl⟩, ⟨2, 1, #[5, 6], rfl⟩]

theorem returns_upper :
    tripod.Returns ⟨[1, 0], [.integer 1, .integer 0], upperCost⟩ #[1, 1] upperJacobians := by
  refine ⟨rfl, rfl, rfl, fun iG hiG => ?_⟩
  rcases hiG with _ | ⟨_, _ | ⟨_, ⟨⟩⟩⟩
  · exact ⟨rfl, by cbv⟩
  · exact ⟨rfl, by cbv⟩

/-- Both costs return what they should. -/
theorem returns_tripod : ∀ r ∈ tripod.residuals, ∃ residual Gs, tripod.Returns r residual Gs := by
  rw [residuals_tripod]
  intro r hr
  rcases List.mem_toArray.mp hr with _ | ⟨_, _ | ⟨_, ⟨⟩⟩⟩
  · exact ⟨_, _, returns_upper⟩
  · refine ⟨#[1], [⟨1, 1, #[7], rfl⟩, ⟨1, 2, #[8, 9], rfl⟩], rfl, rfl, rfl, fun iG hiG => ?_⟩
    rcases hiG with _ | ⟨_, _ | ⟨_, ⟨⟩⟩⟩
    · exact ⟨rfl, by cbv⟩
    · exact ⟨rfl, by cbv⟩

/-- In the second row and the second column stands the last entry of the first Jacobian, whose first
column is projected away; holding the first block moves it to the front. -/
theorem chain_rule_tripod :
    ∃ J, (tripod.jacobian .inOrder (ColumnBounds.make tripod true) true 1).answer = .ok J ∧
      J.pattern.numRows = 3 ∧ J.stored? 1 1 = some 4 ∧
      ∃ J', ((tripod.holdAll [.integer 0]).jacobian .inOrder
          (ColumnBounds.make (tripod.holdAll [.integer 0]) true) true 1).answer = .ok J' ∧
        J'.pattern.numCols = 1 ∧ J'.stored? 1 0 = some 4 := by
  have hanswer : (tripod.jacobian .inOrder (ColumnBounds.make tripod true) true 1).answer =
      .ok ⟨Pattern.ofRows 2 [[0, 1], [0, 1], [1]], #[5, 2, 6, 4, 9]⟩ := by cbv
  obtain ⟨-, hJ⟩ := jacobian_chain_rule reachable_tripod returns_tripod .inOrder true 1
  obtain ⟨hrows, -, hstored, hheld⟩ := hJ _ hanswer
  obtain ⟨Js, hcorrected, -, hblocks⟩ := hstored 0 _ _ _ (by rw [residuals_tripod]; rfl)
    returns_upper
  cases hcorrected
  obtain ⟨P, hP, -, -, hentries⟩ := hblocks 1 (by cbv)
  have hprojection : (tripod.blockAt 1).plusJacobian = .ok (Dense.ofArray 2 1 #[0, 1]) := by cbv
  rw [hprojection] at hP
  cases hP
  have hlast := (hentries 1 0 (by decide) (by decide)).1 0 _ rfl rfl
  have hfirst : ((ColumnBounds.make tripod true).rangeAt 1).first = 1 := by cbv
  have hproduct : ((tripod.blockAt 1).along ⟨2, 2, #[1, 2, 3, 4], rfl⟩
      (Dense.ofArray 2 1 #[0, 1])).get 1 0 = 4 := by cbv
  rw [hfirst, hproduct] at hlast
  obtain ⟨J', hJ', -, hcols', hstored'⟩ := hheld [.integer 0]
  have hkept : tripod.keptColumns [.integer 0] = [1] := by cbv
  refine ⟨_, hanswer, by rw [hrows]; cbv, hlast, J', hJ', by rw [hcols', hkept]; rfl, ?_⟩
  exact (hstored' 1 0 1 (by decide) (by rw [hkept]; rfl)).trans hlast

end Problem

end LeastSquares
