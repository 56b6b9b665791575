/-
LeastSquares.Proofs.Safety — whatever calls have made of a problem, its Jacobian can be evaluated.

Evaluating a Jacobian looks up the columns of every block that a residual block uses, compares every
projected matrix with these columns, and puts the entries of all of them into one list. None of this
can fail on a problem that calls have made, because residual blocks use existing blocks, and because
the width of a projected matrix and the width of its columns are both the tangent size of the block.

* `Edit.blockAt_runAll`: handles go on naming their blocks, and a block is what it was as long as no
  call names it to set something.
* `nodup_places_of_apart` and `pairwise_placedAll`: pieces lie apart from each other, so no two
  entries are put at one place.
* `jacobian_eq_error_iff`: on blocks with charts nothing fails but the residual blocks themselves,
  before anything is projected (`linearized`).
* `jacobian_safe` puts these together for every problem that calls have made.
-/
import LeastSquares.Manifold.Euclidean
import LeastSquares.Proofs.Acceptance
import LeastSquares.Proofs.Interleaving

namespace LeastSquares

variable {α : Type}

/-! ## Calls and blocks -/

namespace Edit

/-- The problem after some calls, refused ones among them. -/
def runAll (p : Problem α) (edits : List (Edit α)) : Problem α :=
  edits.foldl (fun p edit => (edit.run p).state) p

/-- Does a call name the block at a position, to set its manifold or to hold it? -/
def Sets : Edit α → Nat → Prop
  | .setManifold handle _, i | .setHeld handle _, i => handle.handle? = some (i : Int)
  | _, _ => False

/-- A call that does not name a block leaves it as it is. -/
theorem blockAt_run {p : Problem α} {edit : Edit α} {i : Nat} (hi : i < p.blocks.size)
    (h : ¬ edit.Sets i) : (edit.run p).state.blockAt i = p.blockAt i := by
  have hpush : ∀ values, (p.pushBlock values).blockAt i = p.blockAt i := fun values => by
    rw [Problem.blockAt_pushBlock, if_neg (Nat.ne_of_lt hi)]
  have hmodify : ∀ {handle : Atom} {j : Nat} {f : ParameterBlock α → ParameterBlock α},
      ¬ handle.handle? = some (i : Int) → p.position handle = .ok j →
        (p.modify j f).blockAt i = p.blockAt i := by
    intro handle j f hnot hj
    have hhandle := (Problem.position?_eq_some_iff.mp (Problem.position_eq_ok_iff.mp hj)).1
    have hne : j ≠ i := fun heq => hnot (by rw [hhandle, heq])
    rw [Problem.blockAt_modify, if_neg fun hij => hne hij.1]
  cases edit with
  | addBlock values manifold =>
    cases manifold with
    | none => exact hpush values
    | some m =>
      simp only [run, Problem.addBlock_some, Outcome.mapAnswer]
      split
      · rw [Problem.blockAt_modify, if_neg fun hij => Nat.ne_of_gt hi hij.1]
        exact hpush values
      · exact hpush values
  | addResidual handles cost =>
    show (p.addResidual handles cost).state.blockAt i = p.blockAt i
    cases hanswer : (p.addResidual handles cost).answer with
    | error e => rw [Problem.state_addResidual_of_error hanswer]
    | ok n =>
      obtain ⟨blocks, -, -, -, hstate⟩ := Problem.addResidual_eq_ok hanswer
      rw [hstate]
      rfl
  | setManifold handle manifold =>
    simp only [run]
    cases hset : p.setManifold handle manifold with
    | error e => rfl
    | ok q =>
      obtain ⟨j, hj, rfl, -⟩ := Problem.setManifold_eq_ok hset
      exact hmodify h hj
  | setHeld handle held =>
    simp only [run, Problem.setHeld_eq]
    cases hj : p.position handle with
    | error e => rfl
    | ok j => exact hmodify h hj

/-- Calls keep all blocks. -/
theorem keeps_runAll (p : Problem α) (edits : List (Edit α)) : p.Keeps (runAll p edits) := by
  induction edits generalizing p with
  | nil => exact .refl p
  | cons edit edits ih => exact (p.keeps_run edit).trans (ih (edit.run p).state)

/-- Calls that do not name a block leave it as it is. -/
theorem blockAt_runAll {p : Problem α} {edits : List (Edit α)} {i : Nat} (hi : i < p.blocks.size)
    (h : ∀ edit ∈ edits, ¬ edit.Sets i) : (runAll p edits).blockAt i = p.blockAt i := by
  induction edits generalizing p with
  | nil => rfl
  | cons edit edits ih =>
    have hlater := ih (p := (edit.run p).state) (Nat.lt_of_lt_of_le hi (p.keeps_run edit).size_le)
      fun later hlater => h later (List.mem_cons_of_mem _ hlater)
    exact hlater.trans (blockAt_run hi (h edit List.mem_cons_self))

end Edit

/-- A Jacobian that is read has a row for each residual and a column for each parameter. -/
theorem Cost.shape_of_readJacobian [Zero α] {residuals : Nat} {x : Array α} {T : Tensor α}
    {G : Dense α} (h : readJacobian residuals x T = .ok G) :
    G.rows = residuals ∧ G.cols = x.size := by
  unfold readJacobian at h
  split at h
  · cases h
    exact ⟨rfl, rfl⟩
  · cases h

namespace Problem

/-! ## Pieces that lie apart -/

section Pieces

variable {bounds : ColumnBounds}

/-- Two pieces that have no place in common. -/
def Piece.Apart (a b : Piece α) : Prop :=
  (a.row + a.entries.rows ≤ b.row ∨ b.row + b.entries.rows ≤ a.row) ∨
    a.col + a.entries.cols ≤ b.col ∨ b.col + b.entries.cols ≤ a.col

/-- The columns of different blocks lie one behind the other. -/
theorem first_add_widthAt_le (t : bounds.Tiled) {i j : Nat} (hij : i ≠ j)
    (hi : 0 < bounds.widthAt i) (hj : 0 < bounds.widthAt j) :
    (bounds.rangeAt i).first + bounds.widthAt i ≤ (bounds.rangeAt j).first ∨
      (bounds.rangeAt j).first + bounds.widthAt j ≤ (bounds.rangeAt i).first := by
  rw [t.first_eq (ColumnBounds.lt_size_of_widthAt_pos hi),
    t.first_eq (ColumnBounds.lt_size_of_widthAt_pos hj)]
  rcases Nat.lt_or_gt_of_ne hij with hlt | hlt
  · exact Or.inl (offset_add_le bounds.widthAt hlt)
  · exact Or.inr (offset_add_le bounds.widthAt hlt)

/-- The pieces of one residual block lie apart: they belong to different parameter blocks. -/
theorem pairwise_placed (t : bounds.Tiled) {row residuals : Nat} {blocks : List Nat}
    {Js : List (Dense α)} (fits : Fits bounds residuals blocks Js) (nodup : blocks.Nodup) :
    (placed bounds row blocks Js).Pairwise Piece.Apart := by
  have hdistinct : (blocks.zip Js).Pairwise fun a b => a.1 ≠ b.1 :=
    List.pairwise_map.mp (nodup_map_fst_zip nodup Js)
  refine List.pairwise_filterMap.mpr (hdistinct.imp_of_mem ?_)
  rintro ⟨i, J⟩ ⟨j, K⟩ hi hj hne a ha b hb
  simp only [Option.ite_none_left_eq_some, Option.some.injEq] at ha hb
  obtain ⟨hsize, rfl⟩ := ha
  obtain ⟨hsize', rfl⟩ := hb
  obtain ⟨-, hcols⟩ := fits (i, J) hi hsize
  obtain ⟨-, hcols'⟩ := fits (j, K) hj hsize'
  have hwidth : ∀ k, bounds.widthAt k = ((bounds.rangeAt k).size).toNat := fun k => rfl
  have hnonneg := t.size_nonneg i
  have hnonneg' := t.size_nonneg j
  simp only at hsize hsize' hcols hcols' hne
  refine Or.inr ?_
  have hle := first_add_widthAt_le t hne (by rw [hwidth]; omega) (by rw [hwidth]; omega)
  rw [hwidth, hwidth, ← hcols, ← hcols', Int.toNat_natCast, Int.toNat_natCast] at hle
  exact hle

/-- The pieces of one residual block are as high as it has residuals. -/
theorem rows_of_mem_placed {row residuals : Nat} {blocks : List Nat} {Js : List (Dense α)}
    (fits : Fits bounds residuals blocks Js) {piece : Piece α}
    (h : piece ∈ placed bounds row blocks Js) :
    piece.row = row ∧ piece.entries.rows = residuals := by
  obtain ⟨iJ, hiJ, hpiece⟩ := List.mem_filterMap.mp h
  simp only [Option.ite_none_left_eq_some, Option.some.injEq] at hpiece
  obtain ⟨hsize, rfl⟩ := hpiece
  exact ⟨rfl, (fits iJ hiJ hsize).1⟩

theorem le_row_of_mem_placedAll {row : Nat} {found : List (ResidualBlock α × Evaluated α)}
    (fits : ∀ re ∈ found, Fits bounds re.2.residuals re.1.blocks re.2.jacobians) {piece : Piece α}
    (h : piece ∈ placedAll bounds row found) : row ≤ piece.row := by
  induction found generalizing row with
  | nil => cases h
  | cons re found ih =>
    rcases List.mem_append.mp h with hhead | hrest
    · exact Nat.le_of_eq (rows_of_mem_placed (fits re List.mem_cons_self) hhead).1.symm
    · have hle := ih (fun q hq => fits q (List.mem_cons_of_mem _ hq)) hrest
      omega

/-- All pieces lie apart: those of different residual blocks have different rows. -/
theorem pairwise_placedAll (t : bounds.Tiled) {row : Nat}
    {found : List (ResidualBlock α × Evaluated α)}
    (fits : ∀ re ∈ found, Fits bounds re.2.residuals re.1.blocks re.2.jacobians)
    (nodup : ∀ re ∈ found, re.1.blocks.Nodup) :
    (placedAll bounds row found).Pairwise Piece.Apart := by
  induction found generalizing row with
  | nil => exact List.Pairwise.nil
  | cons re found ih =>
    have hfits := fun q hq => fits q (List.mem_cons_of_mem _ hq)
    have hnodup := fun q hq => nodup q (List.mem_cons_of_mem _ hq)
    refine List.pairwise_append.mpr ⟨pairwise_placed t (fits re List.mem_cons_self)
      (nodup re List.mem_cons_self), ih hfits hnodup, fun a ha b hb => ?_⟩
    obtain ⟨harow, harows⟩ := rows_of_mem_placed (fits re List.mem_cons_self) ha
    have hbrow := le_row_of_mem_placedAll hfits hb
    exact Or.inl (Or.inl (by omega))

end Pieces

/-! ## Places -/

section Places

variable [Zero α]

/-- The row and the column of every entry of some pieces. -/
def places (pieces : List (Piece α)) : List (Nat × Nat) :=
  (pieces.flatMap Piece.triplets).map fun t => (t.row, t.col)

theorem mem_places_piece {piece : Piece α} {r c : Nat} :
    (r, c) ∈ piece.triplets.map (fun t => (t.row, t.col)) ↔
      (piece.row ≤ r ∧ r < piece.row + piece.entries.rows) ∧
        piece.col ≤ c ∧ c < piece.col + piece.entries.cols := by
  simp only [Piece.triplets, List.map_flatMap, List.mem_flatMap, List.map_map, List.mem_map,
    List.mem_range, Function.comp_apply, Prod.mk.injEq]
  constructor
  · rintro ⟨i, hi, j, hj, rfl, rfl⟩
    omega
  · rintro ⟨⟨hr, hr'⟩, hc, hc'⟩
    exact ⟨r - piece.row, by omega, c - piece.col, by omega, by omega, by omega⟩

theorem nodup_places_piece (piece : Piece α) :
    (piece.triplets.map fun t => (t.row, t.col)).Nodup := by
  rw [Piece.triplets, List.map_flatMap, List.nodup_flatMap]
  constructor
  · intro i _
    rw [List.map_map]
    refine List.nodup_range.map fun j j' hjj' => ?_
    simpa using hjj'
  · refine List.nodup_range.imp fun {i i'} hne => ?_
    simp only [Function.onFun, List.map_map, List.disjoint_left, List.mem_map, Function.comp_apply]
    rintro _ ⟨j, -, rfl⟩ ⟨j', -, heq⟩
    simp only [Prod.mk.injEq] at heq
    omega

/-- Pieces that lie apart have no place twice. -/
theorem nodup_places_of_apart {pieces : List (Piece α)} (h : pieces.Pairwise Piece.Apart) :
    (places pieces).Nodup := by
  rw [places, List.map_flatMap, List.nodup_flatMap]
  refine ⟨fun piece _ => nodup_places_piece piece, h.imp fun {a b} hapart => ?_⟩
  rw [Function.onFun, List.disjoint_left]
  rintro ⟨r, c⟩ ha hb
  rw [mem_places_piece] at ha hb
  rcases hapart with (h | h) | h | h <;> omega

end Places

/-! ## Before anything is projected -/

section Linearizing

variable [Zero α] [One α] [Add α] [Sub α] [Mul α] [Div α] [NatCast α] [BEq α] [LE α]
  [DecidableLE α] [Elementary α] {p : Problem α} {r : ResidualBlock α} {applyLoss : Bool}

/-- A residual block by itself: its residual and its corrected Jacobians, by all parameters. -/
def linearized (p : Problem α) (applyLoss : Bool) (r : ResidualBlock α) :
    Except Fault (Array α × List (Dense α)) := do
  let found ← r.cost.evaluate (p.valuesOf r)
  let corrections ← corrected r applyLoss found.1 found.2
  return (found.1, corrections)

/-- The evaluation of a residual block ends with the projection of its Jacobians. -/
theorem evaluate_eq_bind (p : Problem α) (projections : Array (Option (Dense α)))
    (applyLoss : Bool) (r : ResidualBlock α) :
    p.evaluate projections applyLoss r = p.linearized applyLoss r >>= fun found =>
      (project projections r.blocks found.2).map fun Js => ⟨found.1.size, Js⟩ := by
  unfold evaluate linearized corrected
  cases r.cost.evaluate (p.valuesOf r) with
  | error e => rfl
  | ok found =>
    have hproject : ∀ corrections : List (Dense α),
        (project projections r.blocks corrections >>= fun Js =>
            pure (⟨found.1.size, Js⟩ : Evaluated α)) =
          (project projections r.blocks corrections).map fun Js => ⟨found.1.size, Js⟩ :=
      fun corrections => by cases project projections r.blocks corrections <;> rfl
    cases applyLoss with
    | false => exact hproject found.2
    | true =>
      cases hloss : r.cost.loss with
      | none => exact hproject found.2
      | some loss =>
        simp only [bind, Except.bind]
        cases loss.correct found.1 found.2 with
        | error e => rfl
        | ok corrections => exact hproject corrections

/-- The Jacobians have a row for each residual and a column for each parameter. -/
theorem shape_of_linearized {residual : Array α} {Js : List (Dense α)}
    (h : p.linearized applyLoss r = .ok (residual, Js)) {iJ : Nat × Dense α}
    (hiJ : iJ ∈ r.blocks.zip Js) :
    iJ.2.rows = residual.size ∧ iJ.2.cols = (p.blockAt iJ.1).ambientSize := by
  obtain ⟨⟨residual', Gs⟩, hevaluate, h⟩ := bind_eq_ok_iff.mp h
  obtain ⟨corrections, hcorrected, h⟩ := bind_eq_ok_iff.mp h
  cases h
  obtain ⟨f, rfl, hf⟩ := exists_map_of_corrected hcorrected
  obtain ⟨-, Ts, -, hread⟩ := Cost.evaluate_eq_ok_iff.mp hevaluate
  rw [Cost.readJacobians_eq] at hread
  rw [List.zip_map_right] at hiJ
  obtain ⟨⟨i, G⟩, hiG, rfl⟩ := List.mem_map.mp hiJ
  obtain ⟨k, hk⟩ := List.mem_iff_getElem?.mp hiG
  obtain ⟨hi, hG⟩ := List.getElem?_zip_eq_some.mp hk
  obtain ⟨⟨x, T⟩, hpair, hone⟩ := exists_getElem?_of_mapM_eq_ok hread hG
  obtain ⟨hx, -⟩ := List.getElem?_zip_eq_some.mp hpair
  obtain rfl : (p.blockAt i).values = x := by
    rw [valuesOf, List.getElem?_map, hi] at hx
    exact Option.some.inj hx
  obtain ⟨hrows, hcols⟩ := hf G
  obtain ⟨hrows', hcols'⟩ := Cost.shape_of_readJacobian hone
  exact ⟨hrows.trans hrows', hcols.trans hcols'⟩

/-- The parts of a residual block that a caller brings do not fail: the residual, the Jacobians and
the loss at this residual. -/
structure Answers (p : Problem α) (r : ResidualBlock α) : Prop where
  residual : ∃ residual, r.cost.residual (p.valuesOf r) = .ok residual
  jacobians : ∃ Ts, r.cost.jacobians (p.valuesOf r) = .ok Ts
  loss : ∀ loss residual, r.cost.loss = some loss → r.cost.residual (p.valuesOf r) = .ok residual →
    ∃ value, loss.evaluate (Dense.dot residual residual) = .ok value

/-- What is returned can be refused for two causes only: a Jacobian has another size than its
residual and its parameters, or the slope of a loss is zero. -/
theorem Answers.fault_of_linearized (h : p.Answers r) {e : Fault}
    (he : p.linearized applyLoss r = .error e) :
    (∃ shape residuals size, e = .jacobianShape shape residuals size) ∨ e = .divisionByZero := by
  obtain ⟨residual, hresidual⟩ := h.residual
  obtain ⟨Ts, hTs⟩ := h.jacobians
  rcases bind_eq_error_iff.mp he with hevaluate | ⟨⟨residual', Gs⟩, hevaluate, hrest⟩
  · have hmisfit := (Cost.evaluate_eq_error_iff hresidual hTs).mp hevaluate
    obtain ⟨xT, -, hxT⟩ := List.exists_of_findSome?_eq_some hmisfit
    simp only [Option.ite_none_left_eq_some, Option.some.injEq] at hxT
    exact Or.inl ⟨_, _, _, hxT.2.symm⟩
  · rcases bind_eq_error_iff.mp hrest with hcorrected | ⟨_, -, hpure⟩
    · obtain ⟨hresidual', Ts', -, hread⟩ := Cost.evaluate_eq_ok_iff.mp hevaluate
      unfold corrected at hcorrected
      split at hcorrected
      · rename_i loss hloss
        obtain ⟨value, hvalue⟩ := h.loss loss residual' hloss hresidual'
        simp only [Loss.correct, hvalue] at hcorrected
        split at hcorrected
        · cases hcorrected
        · split at hcorrected
          · cases hcorrected
            exact Or.inr rfl
          · split at hcorrected
            · cases hcorrected
            · -- every Jacobian was read with as many rows as there are residuals
              rename_i hrows
              refine absurd (List.all_eq_true.mpr fun G hG => ?_) hrows
              rw [Cost.readJacobians_eq] at hread
              obtain ⟨k, hk⟩ := List.mem_iff_getElem?.mp hG
              obtain ⟨xT, -, hone⟩ := exists_getElem?_of_mapM_eq_ok hread hk
              exact decide_eq_true (Cost.shape_of_readJacobian hone).1
      · cases hcorrected
    · cases hpure

end Linearizing

/-! ## Projecting and stacking -/

section Projecting

variable [Zero α] [One α] [Add α] [Sub α] [Mul α] [Div α] [NatCast α] [BEq α] [LE α]
  [DecidableLE α] [Elementary α] {p : Problem α} {applyLoss : Bool} {Ps : Array (Option (Dense α))}

/-- On blocks with charts no projection fails, and what is projected fits its columns. -/
theorem evaluate_of_charted (s : p.Sound) (c : p.Charted)
    (hPs : p.projections (ColumnBounds.make p true) = .ok Ps) {r : ResidualBlock α}
    (hr : r ∈ p.residuals) :
    failure? (p.evaluate Ps applyLoss r) = failure? (p.linearized applyLoss r) ∧
      ∀ e, p.evaluate Ps applyLoss r = .ok e →
        Fits (ColumnBounds.make p true) e.residuals r.blocks e.jacobians := by
  rw [evaluate_eq_bind]
  cases hlinearized : p.linearized applyLoss r with
  | error e => exact ⟨rfl, fun e' he' => nomatch he'⟩
  | ok found =>
    obtain ⟨residual, Js⟩ := found
    obtain ⟨Ks, hKs, hfits⟩ := exists_project c hPs (fun i hi => s.lt_size hr hi)
      fun iJ hiJ => shape_of_linearized hlinearized hiJ
    simp only [bind, Except.bind, hKs, Except.map, failure?_ok, Except.ok.injEq, true_and]
    rintro e rfl
    exact hfits

/-- On blocks with charts what is evaluated fits. -/
theorem fits_of_evaluated (s : p.Sound) (c : p.Charted)
    (hPs : p.projections (ColumnBounds.make p true) = .ok Ps) {found : List (Evaluated α)}
    (hfound : p.residuals.toList.mapM (p.evaluate Ps applyLoss) = .ok found) :
    ∀ re ∈ p.residuals.toList.zip found,
      Fits (ColumnBounds.make p true) re.2.residuals re.1.blocks re.2.jacobians := by
  intro re hre
  obtain ⟨k, hk⟩ := List.mem_iff_getElem?.mp hre
  obtain ⟨hr, he⟩ := List.getElem?_zip_eq_some.mp hk
  have hevaluate := eq_ok_of_mapM_eq_ok hfound hr he
  exact (evaluate_of_charted s c hPs (Array.mem_toList_iff.mp (List.mem_of_getElem? hr))).2 _
    hevaluate

/-- On blocks with charts a Jacobian fails for the residual blocks alone. -/
theorem jacobian_eq_error_iff (s : p.Sound) (c : p.Charted) {schedule : Schedule} {threads : Int}
    {e : Fault} :
    (p.jacobian schedule (ColumnBounds.make p true) applyLoss threads).answer = .error e ↔
      FailsFirst (p.linearized applyLoss) p.residuals.toList e := by
  obtain ⟨Ps, hPs⟩ := exists_projections c
  have hfaults : ∀ e, p.residuals.toList.mapM (p.evaluate Ps applyLoss) = .error e ↔
      p.residuals.toList.mapM (p.linearized applyLoss) = .error e := fun e => by
    rw [mapM_eq_error_iff, mapM_eq_error_iff, findSome?_congr fun r hr =>
      (evaluate_of_charted s c hPs (Array.mem_toList_iff.mp hr)).1]
  rw [← mapM_eq_error_iff_failsFirst, ← hfaults]
  cases hfound : p.residuals.toList.mapM (p.evaluate Ps applyLoss) with
  | error e' =>
    rw [jacobian_of_failsFirst hPs (mapM_eq_error_iff_failsFirst.mp hfound), Except.error.injEq,
      Except.error.injEq]
  | ok found =>
    obtain ⟨J, hJ⟩ := jacobian_of_fits s (ColumnBounds.size_ranges_make p true) hPs hfound
      (fits_of_evaluated s c hPs hfound) schedule threads
    simp [hJ]

/-- What is evaluated is complete, fits and is stacked with no place taken twice. -/
theorem stack_of_evaluateAll (s : p.Sound) (c : p.Charted) {schedule : Schedule} {threads : Int}
    {found : List (Evaluated α)}
    (h : p.evaluateAll schedule (ColumnBounds.make p true) applyLoss threads = .ok found) :
    found.length = p.residuals.size ∧
      (∀ re ∈ p.residuals.toList.zip found,
        Fits (ColumnBounds.make p true) re.2.residuals re.1.blocks re.2.jacobians) ∧
      ∃ rows pieces, stack (ColumnBounds.make p true) 0 (p.residuals.toList.zip found) =
        .ok (rows, pieces) ∧ (places pieces).Nodup := by
  obtain ⟨Ps, hPs⟩ := exists_projections c
  rw [evaluateAll_eq, hPs] at h
  have hfits := fits_of_evaluated s c hPs h
  have hmem : ∀ re ∈ p.residuals.toList.zip found, re.1 ∈ p.residuals := fun re hre =>
    Array.mem_toList_iff.mp (List.of_mem_zip hre).1
  have hstack : stack (ColumnBounds.make p true) 0 (p.residuals.toList.zip found) = .ok (_, _) :=
    (stack_eq_ok_iff fun re hre i hi => by
      rw [ColumnBounds.size_ranges_make]
      exact s.lt_size (hmem re hre) hi).mpr ⟨hfits, rfl, rfl⟩
  refine ⟨by rw [length_of_mapM_eq_ok h, Array.length_toList], hfits, _, _, hstack, ?_⟩
  refine nodup_places_of_apart (pairwise_placedAll (ColumnBounds.tiled_make p true) hfits fun re hre => ?_)
  exact s.nodup _ (hmem re hre)

end Projecting

/-! ## All problems that calls have made -/

/-- The handle of a block that was added names it. -/
theorem position_of_addBlock {p : Problem α} {values : Array α} {manifold : Option (Manifold α)}
    {n : Nat} (h : (p.addBlock values manifold).answer = .ok n) :
    (p.addBlock values manifold).state.position (.integer n) = .ok n ∧
      ((p.addBlock values manifold).state.blockAt n).values = values := by
  have hnamed : ∀ q : Problem α, n < q.blocks.size → q.position (.integer n) = .ok n := fun q hn =>
    position_eq_ok_iff.mpr ((q.position?_integer n n).mpr ⟨rfl, hn⟩)
  cases manifold with
  | none =>
    obtain rfl : p.blocks.size = n := Except.ok.inj h
    refine ⟨hnamed _ ?_, ?_⟩
    · show p.blocks.size < (p.pushBlock values).blocks.size
      rw [size_pushBlock]
      exact Nat.lt_succ_self _
    · show ((p.pushBlock values).blockAt p.blocks.size).values = values
      rw [blockAt_pushBlock, if_pos rfl]
  | some m =>
    rw [addBlock_some] at h ⊢
    split at h
    · rename_i hsize
      obtain rfl : p.blocks.size = n := Except.ok.inj h
      rw [if_pos hsize]
      refine ⟨hnamed _ ?_, ?_⟩
      · simp
      · simp [blockAt_modify, blockAt_pushBlock]
    · cases h

section Main

variable [Zero α] [One α] [Add α] [Sub α] [Mul α] [Div α] [NatCast α] [BEq α] [LE α]
  [DecidableLE α] [Elementary α] {p : Problem α}

/-- **Jacobians are safe to evaluate.** Take any problem that calls have made, refused ones among
them. Its residual blocks name different existing blocks and at least one, the manifolds have the
sizes of their blocks, and a handle keeps its block, which only calls that name it change. So where
the blocks with columns have Jacobians of the promised shape, evaluation fails for the residual
blocks alone, before anything is projected: if their own functions do not fail, then only for a
Jacobian of a wrong size or for the slope of a loss. No block is without columns to look up, no
residual block is left out, what is projected is as high and as wide as its place, and no two
entries are put at one place. -/
theorem jacobian_safe (reachable : p.Reachable) :
    (∀ r ∈ p.residuals, r.blocks ≠ [] ∧ r.blocks.Nodup ∧
      r.handles.map p.position? = r.blocks.map some) ∧
    (∀ i m, (p.blockAt i).manifold = some m →
      m.ambientSize = ((p.blockAt i).ambientSize : Int)) ∧
    (∀ values manifold n, (p.addBlock values manifold).answer = .ok n →
      (p.addBlock values manifold).state.position (.integer n) = .ok n ∧
        ((p.addBlock values manifold).state.blockAt n).values = values) ∧
    (∀ edits a i, p.position a = .ok i →
      (Edit.runAll p edits).position a = .ok i ∧
      ((Edit.runAll p edits).blockAt i).values = (p.blockAt i).values ∧
      ((∀ edit ∈ edits, ¬ edit.Sets i) → (Edit.runAll p edits).blockAt i = p.blockAt i)) ∧
    (p.Charted → ∀ schedule applyLoss threads,
      (∀ e, (p.jacobian schedule (ColumnBounds.make p true) applyLoss threads).answer = .error e ↔
        FailsFirst (p.linearized applyLoss) p.residuals.toList e) ∧
      ((∀ r ∈ p.residuals, p.Answers r) → ∀ e,
        (p.jacobian schedule (ColumnBounds.make p true) applyLoss threads).answer = .error e →
          (∃ shape residuals size, e = .jacobianShape shape residuals size) ∨
            e = .divisionByZero) ∧
      ∀ found, p.evaluateAll schedule (ColumnBounds.make p true) applyLoss threads = .ok found →
        found.length = p.residuals.size ∧
        (∀ re ∈ p.residuals.toList.zip found,
          Fits (ColumnBounds.make p true) re.2.residuals re.1.blocks re.2.jacobians) ∧
        ∃ rows pieces, stack (ColumnBounds.make p true) 0 (p.residuals.toList.zip found) =
          .ok (rows, pieces) ∧ (places pieces).Nodup) := by
  have s := reachable.sound
  refine ⟨fun r hr => ⟨s.nonempty r hr, s.nodup r hr, s.named r hr⟩, fun i => (p.blockAt i).fits,
    fun values manifold n h => position_of_addBlock h, fun edits a i ha => ?_, ?_⟩
  · have keeps := Edit.keeps_runAll p edits
    have hi := lt_size_of_position ha
    exact ⟨keeps.position_eq_ok ha, keeps.values_eq i hi, Edit.blockAt_runAll hi⟩
  · intro c schedule applyLoss threads
    refine ⟨fun e => jacobian_eq_error_iff s c, fun answers e he => ?_,
      fun found h => stack_of_evaluateAll s c h⟩
    obtain ⟨before, r, rest, hsplit, hfault, -⟩ := (jacobian_eq_error_iff s c).mp he
    have hr : r ∈ p.residuals := by
      rw [← Array.mem_toList_iff, hsplit]
      exact List.mem_append_right _ List.mem_cons_self
    exact (answers r hr).fault_of_linearized hfault

end Main

/-! ## A problem with refused calls

The second block is added with a manifold that is refused, and gets another one when it is already
in use. -/

/-- The calls: all but the first, the third and the sixth are refused, and the second one adds its
block all the same. -/
def patchedEdits : List (Edit ℚ) :=
  [.addBlock #[1] none, .addBlock #[2, 3] (some (.euclidean 3)),
    .addResidual [.integer 1, .integer 0] upperCost,
    .addResidual [.integer 0, .integer 0] upperCost, .addResidual [] upperCost,
    .setManifold (.integer 1) (some (.ofSubset secondOnly)),
    .setManifold (.integer 1) (some (.euclidean 3)), .setHeld (.integer 7) true]

/-- The problem after these calls. -/
def patched : Problem ℚ := Edit.runAll .empty patchedEdits

theorem reachable_patched : patched.Reachable :=
  .run _ (.run _ (.run _ (.run _ (.run _ (.run _ (.run _ (.run _ .empty)))))))

/-- The first block has one direction, the second one has one left. -/
theorem charted_patched : patched.Charted := by
  intro i hwidth
  obtain ⟨-, r, hr, hi⟩ := width_of_ne_zero hwidth
  have hresiduals : patched.residuals = #[⟨[1, 0], [.integer 1, .integer 0], upperCost⟩] := by cbv
  rw [hresiduals, List.mem_toArray, List.mem_singleton] at hr
  subst hr
  rcases hi with _ | ⟨_, _ | ⟨_, ⟨⟩⟩⟩
  · exact ⟨Dense.ofArray 2 1 #[0, 1], by cbv, by cbv, by cbv⟩
  · exact ⟨Dense.ofArray 1 1 #[1], by cbv, by cbv, by cbv⟩

/-- Two residuals and two columns are four entries, at four places; holding the first block
constant leaves the second one as it is. -/
theorem jacobian_safe_patched :
    ((Edit.addBlock #[2, 3] (some (Manifold.euclidean 3))).run
        (Edit.runAll (Problem.empty : Problem ℚ) (patchedEdits.take 1))).answer =
      .error (.manifoldSize 3 (.integer 1) 2) ∧
    (∃ found rows pieces,
      patched.evaluateAll .inOrder (ColumnBounds.make patched true) true 1 = .ok found ∧
      stack (ColumnBounds.make patched true) 0 (patched.residuals.toList.zip found) =
        .ok (rows, pieces) ∧
      places pieces = [(0, 1), (1, 1), (0, 0), (1, 0)] ∧ (places pieces).Nodup) ∧
    (Edit.runAll patched [.setHeld (.integer 0) true]).blockAt 1 = patched.blockAt 1 := by
  obtain ⟨-, -, -, hkeeps, hsafe⟩ := jacobian_safe reachable_patched
  obtain ⟨-, -, hstack⟩ := hsafe charted_patched .inOrder true 1
  refine ⟨by cbv, ?_, ?_⟩
  · have hfound : patched.evaluateAll .inOrder (ColumnBounds.make patched true) true 1 =
        .ok [⟨2, [Dense.ofArray 2 1 #[2, 4], Dense.ofArray 2 1 #[5, 6]]⟩] := by cbv
    obtain ⟨-, -, rows, pieces, hpieces, hnodup⟩ := hstack _ hfound
    have hplaced : stack (ColumnBounds.make patched true) 0 (patched.residuals.toList.zip
        [⟨2, [Dense.ofArray 2 1 #[2, 4], Dense.ofArray 2 1 #[5, 6]]⟩]) =
          .ok (2, [⟨0, 1, Dense.ofArray 2 1 #[2, 4]⟩, ⟨0, 0, Dense.ofArray 2 1 #[5, 6]⟩]) := by cbv
    refine ⟨_, rows, pieces, hfound, hpieces, ?_, hnodup⟩
    rw [hplaced] at hpieces
    cases hpieces
    cbv
  · refine (hkeeps [.setHeld (.integer 0) true] (.integer 1) 1 (by cbv)).2.2 ?_
    simp [Edit.Sets, Atom.handle?]

end Problem

end LeastSquares
