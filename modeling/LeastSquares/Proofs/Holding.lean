/-
LeastSquares.Proofs.Holding — holding blocks constant deletes their columns.

A block that is held constant has no columns, and the columns of the other blocks move up. So the
columns that are left are those of the blocks that are not held, in the same order (`keptColumns`),
and a column of the smaller Jacobian stores what the kept column stores (`jacobian_holdAll`). The
residual blocks are evaluated as before; of their Jacobians only those of blocks that are held are
projected no more, and these go nowhere (`project_held`).
-/
import LeastSquares.Proofs.Placement

namespace LeastSquares

namespace Problem

variable {α : Type}

/-! ## Held blocks -/

/-- Hold constant the blocks that some handles name. -/
def holdAll (p : Problem α) (handles : List Atom) : Problem α :=
  handles.foldl (fun p handle => ((Edit.setHeld handle true).run p).state) p

/-- The blocks that some handles name. -/
def named (p : Problem α) (handles : List Atom) : List Nat := handles.filterMap p.position?

theorem Reachable.holdAll {p : Problem α} (h : p.Reachable) (handles : List Atom) :
    (p.holdAll handles).Reachable := by
  induction handles generalizing p with
  | nil => exact h
  | cons handle handles ih => exact ih (.run (.setHeld handle true) h)

theorem Sound.holdAll {p : Problem α} (s : p.Sound) (handles : List Atom) :
    (p.holdAll handles).Sound := by
  induction handles generalizing p with
  | nil => exact s
  | cons handle handles ih => exact ih (s.run (.setHeld handle true))

theorem state_setHeld (p : Problem α) (handle : Atom) :
    ((Edit.setHeld handle true).run p).state =
      (p.position? handle).elim p fun i => p.modify i fun b => { b with held := true } := by
  rw [Edit.run, setHeld_eq, position]
  cases p.position? handle with
  | none => rfl
  | some i => rfl

@[simp] theorem size_state_setHeld (p : Problem α) (handle : Atom) :
    ((Edit.setHeld handle true).run p).state.blocks.size = p.blocks.size := by
  rw [state_setHeld]
  cases p.position? handle with
  | none => rfl
  | some i => exact size_modify p i _

@[simp] theorem residuals_holdAll (p : Problem α) (handles : List Atom) :
    (p.holdAll handles).residuals = p.residuals := by
  induction handles generalizing p with
  | nil => rfl
  | cons handle handles ih =>
    refine (ih ((Edit.setHeld handle true).run p).state).trans ?_
    rw [state_setHeld]
    cases p.position? handle <;> rfl

@[simp] theorem size_holdAll (p : Problem α) (handles : List Atom) :
    (p.holdAll handles).blocks.size = p.blocks.size := by
  induction handles generalizing p with
  | nil => rfl
  | cons handle handles ih =>
    exact (ih ((Edit.setHeld handle true).run p).state).trans (size_state_setHeld p handle)

/-- The blocks that are named are held, the others are left. -/
theorem blockAt_holdAll (p : Problem α) (handles : List Atom) (i : Nat) :
    (p.holdAll handles).blockAt i =
      if i ∈ p.named handles then { p.blockAt i with held := true } else p.blockAt i := by
  induction handles generalizing p with
  | nil => rfl
  | cons handle handles ih =>
    have hposition : ((Edit.setHeld handle true).run p).state.position? = p.position? := by
      funext a
      rw [position?, position?, size_state_setHeld]
    have hnamed : ((Edit.setHeld handle true).run p).state.named handles = p.named handles := by
      rw [named, named, hposition]
    have hfirst : (((Edit.setHeld handle true).run p).state).blockAt i =
        if p.position? handle = some i then { p.blockAt i with held := true }
        else p.blockAt i := by
      rw [state_setHeld]
      cases hj : p.position? handle with
      | none => simp
      | some j =>
        simp only [Option.elim_some, blockAt_modify, Option.some.injEq]
        have hlt := lt_size_of_position? hj
        by_cases hji : j = i
        · subst hji
          simp [hlt]
        · simp [hji]
    have hmem : i ∈ p.named (handle :: handles) ↔
        p.position? handle = some i ∨ i ∈ p.named handles := by
      simp [named, List.mem_filterMap]
    refine (ih ((Edit.setHeld handle true).run p).state).trans ?_
    rw [hnamed, hfirst]
    by_cases hhandle : p.position? handle = some i
    · simp [hhandle, hmem]
    · simp [hhandle, hmem]

theorem valuesOf_holdAll (p : Problem α) (handles : List Atom) (r : ResidualBlock α) :
    (p.holdAll handles).valuesOf r = p.valuesOf r := by
  refine List.map_congr_left fun i _ => ?_
  rw [blockAt_holdAll]
  split <;> rfl

theorem residualCount_holdAll (p : Problem α) (handles : List Atom) (r : ResidualBlock α) :
    (p.holdAll handles).residualCount r = p.residualCount r := by
  rw [residualCount, residualCount, valuesOf_holdAll]

theorem rowStart_holdAll (p : Problem α) (handles : List Atom) (k : Nat) :
    (p.holdAll handles).rowStart k = p.rowStart k := by
  rw [rowStart, rowStart, residuals_holdAll]
  refine congrArg (fun counts => totalSize (List.take k counts)) ?_
  exact List.map_congr_left fun r _ => residualCount_holdAll p handles r

/-! ## Their columns -/

theorem width_holdAll (p : Problem α) (handles : List Atom) (i : Nat) :
    ColumnBounds.width (p.holdAll handles) true i =
      if i ∈ p.named handles then 0 else ColumnBounds.width p true i := by
  have huses : (p.holdAll handles).uses i = p.uses i := by rw [uses, uses, residuals_holdAll]
  unfold ColumnBounds.width
  rw [blockAt_holdAll, huses]
  split
  · simp [ParameterBlock.isConstant]
  · rfl

/-- A held block has no columns, the others have as many as before. -/
theorem size_rangeAt_holdAll (p : Problem α) (handles : List Atom) (i : Nat) :
    ((ColumnBounds.make (p.holdAll handles) true).rangeAt i).size =
      if i ∈ p.named handles then 0 else ((ColumnBounds.make p true).rangeAt i).size := by
  rcases Nat.lt_or_ge i p.blocks.size with hi | hi
  · rw [ColumnBounds.rangeAt_make _ _ hi, ColumnBounds.rangeAt_make _ _ (by simpa using hi),
      width_holdAll]
  · rw [ColumnBounds.rangeAt_of_size_le _ (by simpa [ColumnBounds.size_ranges_make] using hi),
      ColumnBounds.rangeAt_of_size_le _ (by simpa [ColumnBounds.size_ranges_make] using hi)]
    simp

theorem widthAt_holdAll (p : Problem α) (handles : List Atom) (i : Nat) :
    (ColumnBounds.make (p.holdAll handles) true).widthAt i =
      if i ∈ p.named handles then 0 else (ColumnBounds.make p true).widthAt i := by
  unfold ColumnBounds.widthAt ColumnRange.width
  rw [size_rangeAt_holdAll]
  split <;> rfl

/-- The columns of the blocks that are not named, in order. -/
def keptColumns (p : Problem α) (handles : List Atom) : List Nat :=
  (List.range p.blocks.size).flatMap fun i =>
    if i ∈ p.named handles then [] else ((ColumnBounds.make p true).rangeAt i).columns

theorem length_kept (p : Problem α) (handles : List Atom) (i : Nat) :
    (if i ∈ p.named handles then [] else ((ColumnBounds.make p true).rangeAt i).columns).length =
      (ColumnBounds.make (p.holdAll handles) true).widthAt i := by
  rw [widthAt_holdAll]
  split
  · rfl
  · exact List.length_range'

theorem length_keptColumns (p : Problem α) (handles : List Atom) :
    (p.keptColumns handles).length =
      (ColumnBounds.make (p.holdAll handles) true).numCols.toNat := by
  rw [keptColumns, length_flatMap_range, (ColumnBounds.tiled_make _ true).toNat_numCols,
    ColumnBounds.size_ranges_make, size_holdAll]
  exact offset_congr fun i _ => length_kept p handles i

/-- A column that is left is the kept column of its block. -/
theorem getElem?_keptColumns (p : Problem α) (handles : List Atom) {i v : Nat}
    (hv : v < (ColumnBounds.make (p.holdAll handles) true).widthAt i) :
    (p.keptColumns handles)[((ColumnBounds.make (p.holdAll handles) true).rangeAt i).first + v]? =
      some (((ColumnBounds.make p true).rangeAt i).first + v) := by
  have hi : i < (ColumnBounds.make (p.holdAll handles) true).ranges.size :=
    ColumnBounds.lt_size_of_widthAt_pos (Nat.lt_of_le_of_lt (Nat.zero_le v) hv)
  have hsize : i < p.blocks.size := by simpa [ColumnBounds.size_ranges_make] using hi
  have hread := getElem?_flatMap_range
    (fun i => if i ∈ p.named handles then [] else ((ColumnBounds.make p true).rangeAt i).columns)
    hsize (by rw [length_kept]; exact hv)
  rw [(ColumnBounds.tiled_make _ true).first_eq hi,
    offset_congr fun j _ => (length_kept p handles j).symm]
  refine hread.trans ?_
  rw [widthAt_holdAll] at hv
  split
  · rename_i hnamed
    rw [if_pos hnamed] at hv
    omega
  · rename_i hnamed
    rw [if_neg hnamed] at hv
    have hv : v < ((ColumnBounds.make p true).rangeAt i).width := hv
    rw [ColumnRange.columns, List.getElem?_range' hv, Nat.one_mul]

/-! ## The Jacobian -/

/-- Without their projections, the Jacobians of held blocks stay; the others are projected as
before. -/
theorem project_held [Zero α] [Add α] [Mul α] {Ps Qs : Array (Option (Dense α))} {held : List Nat}
    {blocks : List Nat}
    (h : ∀ i ∈ blocks, Qs.getD i none = if i ∈ held then none else Ps.getD i none)
    {Js Ks : List (Dense α)} (hproject : project Ps blocks Js = .ok Ks) :
    ∃ Ks', project Qs blocks Js = .ok Ks' ∧
      (∀ iK ∈ blocks.zip Ks', iK.1 ∉ held → iK ∈ blocks.zip Ks) ∧
      ∀ i, i ∉ held → (blocks.zip Ks').lookup i = (blocks.zip Ks).lookup i := by
  induction blocks generalizing Js Ks with
  | nil => exact ⟨[], rfl, by simp, by simp⟩
  | cons i blocks ih =>
    cases Js with
    | nil =>
      cases hproject
      exact ⟨[], rfl, by simp, by simp⟩
    | cons J Js =>
      rw [project_eq, List.zip_cons_cons, List.mapM_cons, ← project_eq] at hproject
      obtain ⟨K, hK, hcons⟩ := bind_eq_ok_iff.mp hproject
      obtain ⟨rest, hrest, heq⟩ := bind_eq_ok_iff.mp hcons
      cases heq
      obtain ⟨rest', hrest', hmem, hlookup⟩ :=
        ih (fun j hj => h j (List.mem_cons_of_mem _ hj)) hrest
      have hstep : ∃ K', projectOne Qs i J = .ok K' ∧ (i ∉ held → K' = K) := by
        have hi := h i List.mem_cons_self
        by_cases hheld : i ∈ held
        · rw [if_pos hheld] at hi
          exact ⟨J, by simp only [projectOne, hi], fun hnot => absurd hheld hnot⟩
        · rw [if_neg hheld] at hi
          refine ⟨K, ?_, fun _ => rfl⟩
          simp only [projectOne, hi]
          exact hK
      obtain ⟨K', hK', hsame⟩ := hstep
      refine ⟨K' :: rest', ?_, ?_, ?_⟩
      · rw [project_eq, List.zip_cons_cons, List.mapM_cons, ← project_eq]
        exact bind_eq_ok_iff.mpr ⟨K', hK', bind_eq_ok_iff.mpr ⟨rest', hrest', rfl⟩⟩
      · intro jK hjK hheld
        rw [List.zip_cons_cons] at hjK ⊢
        rcases List.mem_cons.mp hjK with rfl | hjK
        · rw [hsame hheld]
          exact List.mem_cons_self
        · exact List.mem_cons_of_mem _ (hmem jK hjK hheld)
      · intro j hj
        rw [List.zip_cons_cons, List.zip_cons_cons, List.lookup_cons, List.lookup_cons,
          hlookup j hj]
        by_cases hji : j = i
        · subst hji
          rw [hsame hj]
        · have hne : (j == i) = false := by simpa using hji
          rw [hne]

/-- The projections of held blocks are gone, the others are there as before. -/
theorem projections_holdAll {p : Problem α} {Ps : Array (Option (Dense α))}
    (h : p.projections (ColumnBounds.make p true) = .ok Ps) (handles : List Atom) :
    ∃ Qs, (p.holdAll handles).projections (ColumnBounds.make (p.holdAll handles) true) = .ok Qs ∧
      ∀ i, i < p.blocks.size →
        Qs.getD i none = if i ∈ p.named handles then none else Ps.getD i none := by
  have hstep : ∀ i ∈ List.range p.blocks.size,
      (p.holdAll handles).projectionAt (ColumnBounds.make (p.holdAll handles) true) i =
        .ok (if i ∈ p.named handles then none else Ps.getD i none) := by
    intro i hi
    have hat := projectionAt_of_projections (ColumnBounds.size_ranges_make p true) h
      (List.mem_range.mp hi)
    unfold projectionAt at hat ⊢
    rw [blockAt_holdAll, size_rangeAt_holdAll]
    by_cases hnamed : i ∈ p.named handles
    · simp only [if_pos hnamed, if_true]
      cases (p.blockAt i).manifold <;> rfl
    · simp only [if_neg hnamed]
      exact hat
  refine ⟨((List.range p.blocks.size).map fun i =>
    if i ∈ p.named handles then none else Ps.getD i none).toArray, ?_, ?_⟩
  · rw [projections_eq (ColumnBounds.size_ranges_make _ true), size_holdAll]
    refine map_eq_ok_iff.mpr ⟨_, mapM_eq_ok_iff.mpr ?_, rfl⟩
    rw [List.map_map]
    exact List.map_congr_left hstep
  · intro i hi
    simp [Array.getD_eq_getD_getElem?, hi]

/-- Two evaluations of a residual block that differ at most in the Jacobians of held blocks. -/
structure AgreeBeside (held : List Nat) (r : ResidualBlock α) (e e' : Evaluated α) : Prop where
  residuals_eq : e'.residuals = e.residuals
  mem_zip : ∀ iK ∈ r.blocks.zip e'.jacobians, iK.1 ∉ held → iK ∈ r.blocks.zip e.jacobians
  lookup_eq : ∀ i, i ∉ held →
    (r.blocks.zip e'.jacobians).lookup i = (r.blocks.zip e.jacobians).lookup i

/-- What is left of Jacobians that fit fits the columns that are left. -/
theorem AgreeBeside.fits {p : Problem α} {handles : List Atom} {r : ResidualBlock α}
    {e e' : Evaluated α} (a : AgreeBeside (p.named handles) r e e')
    (h : Fits (ColumnBounds.make p true) e.residuals r.blocks e.jacobians) :
    Fits (ColumnBounds.make (p.holdAll handles) true) e'.residuals r.blocks e'.jacobians := by
  intro iK hiK hsize
  rw [size_rangeAt_holdAll] at hsize ⊢
  split at hsize
  · exact absurd rfl hsize
  · rename_i hnamed
    rw [if_neg hnamed, a.residuals_eq]
    exact h iK (a.mem_zip iK hiK hnamed) hsize

variable [Zero α] [One α] [Add α] [Sub α] [Mul α] [Div α] [NatCast α] [BEq α] [LE α]
  [DecidableLE α] [Elementary α]

/-- A residual block is evaluated as before, except for the Jacobians of held blocks. -/
theorem evaluate_holdAll {p : Problem α} {handles : List Atom} {Ps Qs : Array (Option (Dense α))}
    {applyLoss : Bool} {r : ResidualBlock α} {e : Evaluated α}
    (h : ∀ i ∈ r.blocks, Qs.getD i none = if i ∈ p.named handles then none else Ps.getD i none)
    (hevaluate : p.evaluate Ps applyLoss r = .ok e) :
    ∃ e', (p.holdAll handles).evaluate Qs applyLoss r = .ok e' ∧
      AgreeBeside (p.named handles) r e e' := by
  obtain ⟨residual, Js, corrections, hcost, hcorrected, hproject, hsize⟩ :=
    evaluate_eq_ok_iff.mp hevaluate
  obtain ⟨Ks', hproject', hmem, hlookup⟩ := project_held h hproject
  refine ⟨⟨residual.size, Ks'⟩, ?_, hsize.symm, hmem, hlookup⟩
  refine evaluate_eq_ok_iff.mpr ⟨residual, Js, corrections, ?_, hcorrected, hproject', rfl⟩
  rw [valuesOf_holdAll]
  exact hcost

/-- Where all residual blocks are evaluated, they are evaluated with blocks held. -/
theorem mapM_evaluate_holdAll {p : Problem α} (s : p.Sound) {handles : List Atom}
    {Ps Qs : Array (Option (Dense α))} {applyLoss : Bool} {found : List (Evaluated α)}
    (h : ∀ i, i < p.blocks.size →
      Qs.getD i none = if i ∈ p.named handles then none else Ps.getD i none)
    (hfound : p.residuals.toList.mapM (p.evaluate Ps applyLoss) = .ok found) :
    ∃ found', p.residuals.toList.mapM ((p.holdAll handles).evaluate Qs applyLoss) = .ok found' ∧
      ∀ (k : Nat) (r : ResidualBlock α) (e' : Evaluated α), p.residuals[k]? = some r →
        found'[k]? = some e' → ∃ e, found[k]? = some e ∧ AgreeBeside (p.named handles) r e e' := by
  have hstep : ∀ r ∈ p.residuals.toList, ∀ e, p.evaluate Ps applyLoss r = .ok e →
      ∃ e', (p.holdAll handles).evaluate Qs applyLoss r = .ok e' ∧
        AgreeBeside (p.named handles) r e e' := by
    intro r hr e he
    exact evaluate_holdAll (fun i hi => h i (s.lt_size (Array.mem_toList_iff.mp hr) hi)) he
  obtain ⟨found', hfound'⟩ : ∃ found', p.residuals.toList.mapM
      ((p.holdAll handles).evaluate Qs applyLoss) = .ok found' := by
    refine exists_mapM_eq_ok fun r hr => ?_
    obtain ⟨e, -, he⟩ := exists_mem_of_mapM_eq_ok hfound hr
    obtain ⟨e', he', -⟩ := hstep r hr e he
    exact ⟨e', he'⟩
  refine ⟨found', hfound', ?_⟩
  intro k r e' hr he'
  rw [← Array.getElem?_toList] at hr
  obtain ⟨e, he, hevaluate⟩ := getElem?_of_mapM_eq_ok hfound hr
  obtain ⟨e₂, he₂, hagree⟩ := hstep r (List.mem_of_getElem? hr) e hevaluate
  rw [eq_ok_of_mapM_eq_ok hfound' hr he'] at he₂
  cases he₂
  exact ⟨e, he, hagree⟩

/-- **Holding blocks constant** deletes their columns from a Jacobian and leaves the others. -/
theorem jacobian_holdAll {p : Problem α} (s : p.Sound) {schedule : Schedule} {applyLoss : Bool}
    {threads : Int} {J : Compressed α}
    (h : (p.jacobian schedule (ColumnBounds.make p true) applyLoss threads).answer = .ok J)
    (handles : List Atom) :
    ∃ J', ((p.holdAll handles).jacobian schedule (ColumnBounds.make (p.holdAll handles) true)
        applyLoss threads).answer = .ok J' ∧
      J'.pattern.numRows = J.pattern.numRows ∧
      J'.pattern.numCols = (p.keptColumns handles).length ∧
      ∀ r c column, r < J.pattern.numRows → (p.keptColumns handles)[c]? = some column →
        J'.stored? r c = J.stored? r column := by
  have t := ColumnBounds.tiled_make p true
  have t' := ColumnBounds.tiled_make (p.holdAll handles) true
  have hranges' := ColumnBounds.size_ranges_make (p.holdAll handles) true
  obtain ⟨Ps, found, hPs, hfound, hrows, -, hstored⟩ :=
    stored_jacobian s t (ColumnBounds.size_ranges_make p true) h
  obtain ⟨Qs, hQs, hgetD⟩ := projections_holdAll hPs handles
  obtain ⟨found', hfound', hagree⟩ := mapM_evaluate_holdAll s hgetD hfound
  have hfits : ∀ re ∈ p.residuals.toList.zip found',
      Fits (ColumnBounds.make (p.holdAll handles) true) re.2.residuals re.1.blocks
        re.2.jacobians := by
    intro re hre
    obtain ⟨k, hk⟩ := List.mem_iff_getElem?.mp hre
    obtain ⟨hr, he'⟩ := List.getElem?_zip_eq_some.mp hk
    obtain ⟨e₁, he₁, hevaluate⟩ := getElem?_of_mapM_eq_ok hfound hr
    rw [Array.getElem?_toList] at hr
    obtain ⟨e, he, a⟩ := hagree k re.1 re.2 hr he'
    rw [he] at he₁
    cases he₁
    refine a.fits ?_
    rw [residuals_of_evaluate hevaluate]
    exact (hstored k re.1 _ hr he).1
  obtain ⟨J', hJ'⟩ : ∃ J', ((p.holdAll handles).jacobian schedule
      (ColumnBounds.make (p.holdAll handles) true) applyLoss threads).answer = .ok J' := by
    rw [← residuals_holdAll p handles] at hfound' hfits
    exact jacobian_of_fits (s.holdAll handles) hranges' hQs hfound' hfits schedule threads
  obtain ⟨Qs', found₂, hQs', hfound₂, hrows', hcols', hstored'⟩ :=
    stored_jacobian (s.holdAll handles) t' hranges' hJ'
  rw [hQs] at hQs'
  cases hQs'
  rw [residuals_holdAll, hfound'] at hfound₂
  cases hfound₂
  rw [residuals_holdAll, rowStart_holdAll] at hrows'
  refine ⟨J', hJ', by rw [hrows', hrows], ?_, ?_⟩
  · rw [hcols', length_keptColumns p]
  · -- a row lies in a residual block, a column that is left in a block that is not held
    intro row c column hrow hcolumn
    rw [hrows] at hrow
    obtain ⟨k, r, u, hr, hu, rfl⟩ := exists_rowStart_add hrow
    obtain ⟨e', he', -⟩ := getElem?_of_mapM_eq_ok hfound' (by rw [Array.getElem?_toList]; exact hr)
    obtain ⟨e, he, a⟩ := hagree k r e' hr he'
    have hc : c < (ColumnBounds.make (p.holdAll handles) true).numCols.toNat := by
      rw [← length_keptColumns p]
      exact (List.getElem?_eq_some_iff.mp hcolumn).1
    obtain ⟨i, -, hmem⟩ := t'.exists_mem_columns hc
    obtain ⟨hle, hlt⟩ := ColumnRange.mem_columns.mp hmem
    obtain ⟨v, rfl⟩ := Nat.exists_eq_add_of_le hle
    have hv : v < (ColumnBounds.make (p.holdAll handles) true).widthAt i :=
      Nat.lt_of_add_lt_add_left hlt
    rw [getElem?_keptColumns p handles hv, Option.some.injEq] at hcolumn
    subst hcolumn
    have hread' := (hstored' k r e' (by rwa [residuals_holdAll]) he').2 i u v
      (by rwa [residualCount_holdAll]) hv
    rw [widthAt_holdAll] at hv
    split at hv
    · omega
    · rename_i hnamed
      have hread := (hstored k r e hr he).2 i u v hu hv
      rw [rowStart_holdAll, a.lookup_eq i hnamed] at hread'
      exact hread'.trans hread.symm

end Problem

end LeastSquares
