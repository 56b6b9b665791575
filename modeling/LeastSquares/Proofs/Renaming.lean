/-
LeastSquares.Proofs.Renaming — the order in which things are created does not matter.

A second problem has the parameter blocks and the residual blocks of a first one, created in another
order (`Problem.Renamed`): blocks are renamed by a permutation of their positions, and each residual
block may list its blocks, with their Jacobians, in any order. Columns, rows, the pattern and all
offsets are then different. But the columns of a block are its directions still, and a residual
block has the same Jacobian for a block under its new name (`Problem.Renames.jacobianOf_eq`), so
that the normal matrix, as a sum over the residual blocks, is the same up to the names of its
directions (`Problem.Renamed.gram_eq`). So is its inverse, and what is answered about two positions
is answered about their new ones (`Covariance.answerAt_of_carries`,
`Covariance.answers_of_renamed`).
-/
import Mathlib.Data.Fintype.EquivFin
import LeastSquares.Proofs.Blockwise
import LeastSquares.Proofs.Inversion

namespace LeastSquares

open Matrix

/-! ## Partners of renamed keys -/

section Lookup

variable {β : Type} {l l' : List (Nat × β)}

/-- Where no key stands twice, the pairs of a list are what is found in it. -/
theorem lookup_eq_some_iff_mem (h : (l.map Prod.fst).Nodup) {i : Nat} {x : β} :
    l.lookup i = some x ↔ (i, x) ∈ l := by
  refine ⟨mem_of_lookup_eq_some, fun hmem => ?_⟩
  induction l with
  | nil => cases hmem
  | cons y l ih =>
    obtain ⟨j, y⟩ := y
    obtain ⟨hnot, hnodup⟩ := List.nodup_cons.mp h
    rw [List.lookup_cons]
    rcases List.mem_cons.mp hmem with heq | hrest
    · cases heq
      simp
    · have hne : i ≠ j := by
        rintro rfl
        exact hnot (List.mem_map.mpr ⟨_, hrest, rfl⟩)
      simp only [beq_eq_false_iff_ne.mpr hne]
      exact ih hnodup hrest

/-- Under a renamed key stands what stood under the key, in any order of the pairs. -/
theorem lookup_of_perm {π : Equiv.Perm Nat} (h : l'.Perm (l.map (Prod.map π id)))
    (nodup : (l.map Prod.fst).Nodup) (i : Nat) : l'.lookup (π i) = l.lookup i := by
  have hkeys : (l.map (Prod.map π id)).map Prod.fst = (l.map Prod.fst).map π := by
    simp only [List.map_map, Function.comp_def, Prod.map_fst]
  have nodup' : (l'.map Prod.fst).Nodup := by
    rw [(h.map Prod.fst).nodup_iff, hkeys]
    exact nodup.map π.injective
  refine Option.ext fun x => ?_
  rw [lookup_eq_some_iff_mem nodup, lookup_eq_some_iff_mem nodup', h.mem_iff, List.mem_map]
  constructor
  · rintro ⟨⟨j, y⟩, hmem, heq⟩
    obtain ⟨hj, rfl⟩ := Prod.mk.inj heq
    rwa [← π.injective hj]
  · exact fun hmem => ⟨(i, x), hmem, rfl⟩

end Lookup

/-! ## Renamed problems -/

namespace Problem

section Renaming

variable {α : Type}

/-- A residual block of one problem, with its blocks renamed for another one: its list of blocks,
and the Jacobians together with it, stand in any order. -/
structure Renames (p q : Problem α) (π : Equiv.Perm Nat) (r r' : ResidualBlock α) : Prop where
  blocks_perm : r'.blocks.Perm (r.blocks.map π)
  loss_eq : r'.cost.loss = r.cost.loss
  residual_eq : r'.cost.residual (q.valuesOf r') = r.cost.residual (p.valuesOf r)
  jacobians_perm : ∀ Ts Ts', r.cost.jacobians (p.valuesOf r) = .ok Ts →
    r'.cost.jacobians (q.valuesOf r') = .ok Ts' →
      (r'.blocks.zip Ts').Perm ((r.blocks.zip Ts).map (Prod.map π id))

/-- The second problem has the parameter blocks and the residual blocks of the first one, both
created in any order. -/
structure Renamed (π : Equiv.Perm Nat) (p q : Problem α) : Prop where
  size_eq : q.blocks.size = p.blocks.size
  lt_size_iff : ∀ i, π i < p.blocks.size ↔ i < p.blocks.size
  blockAt_eq : ∀ i, q.blockAt (π i) = p.blockAt i
  residuals_perm : ∃ rs, q.residuals.toList.Perm rs ∧
    List.Forall₂ (Renames p q π) p.residuals.toList rs

namespace Renamed

variable {π : Equiv.Perm Nat} {p q : Problem α}

/-- What is the same for renamed residual blocks is the same for both problems, up to the order. -/
theorem map_residuals_perm (h : p.Renamed π q) {β : Type} {F F' : ResidualBlock α → β}
    (hF : ∀ r ∈ p.residuals, ∀ r' ∈ q.residuals, Renames p q π r r' → F' r' = F r) :
    (q.residuals.toList.map F').Perm (p.residuals.toList.map F) := by
  obtain ⟨rs, hperm, hrs⟩ := h.residuals_perm
  obtain ⟨hlength, hrenames⟩ := List.forall₂_iff_get.mp hrs
  have hmap : rs.map F' = p.residuals.toList.map F := by
    refine List.ext_getElem (by simpa using hlength.symm) fun k hk hk' => ?_
    rw [List.length_map] at hk hk'
    rw [List.getElem_map, List.getElem_map]
    refine hF _ (Array.mem_toList_iff.mp (List.getElem_mem hk')) _ ?_ (hrenames k hk' hk)
    exact Array.mem_toList_iff.mp (hperm.mem_iff.mpr (List.getElem_mem hk))
  rw [← hmap]
  exact hperm.map F'

/-- A block is used under its new name if it was used under its old one. -/
theorem uses_eq (h : p.Renamed π q) (i : Nat) : q.uses (π i) = p.uses i := by
  have hany : ∀ (p : Problem α) (j : Nat),
      p.uses j = (p.residuals.toList.map fun r => r.blocks.contains j).any id := fun p j => by
    rw [uses, ← Array.any_toList, List.any_map]
    rfl
  rw [hany, hany]
  refine (h.map_residuals_perm fun r _ r' _ hr => ?_).any_eq
  rw [Bool.eq_iff_iff, List.contains_iff_mem, List.contains_iff_mem, hr.blocks_perm.mem_iff,
    List.mem_map_of_injective π.injective]

/-- All blocks have their columns under their new names. -/
theorem width_eq (h : p.Renamed π q) (tangentSpace : Bool) (i : Nat) :
    ColumnBounds.width q tangentSpace (π i) = ColumnBounds.width p tangentSpace i := by
  simp only [ColumnBounds.width, h.blockAt_eq, h.uses_eq]

theorem widthAt_eq (h : p.Renamed π q) (tangentSpace : Bool) (i : Nat) :
    (ColumnBounds.make q tangentSpace).widthAt (π i) =
      (ColumnBounds.make p tangentSpace).widthAt i := by
  by_cases hi : i < p.blocks.size
  · have hi' : π i < q.blocks.size := by
      rw [h.size_eq]
      exact (h.lt_size_iff i).mpr hi
    rw [ColumnBounds.widthAt_make q tangentSpace hi', ColumnBounds.widthAt_make p tangentSpace hi,
      h.width_eq]
  · have hzero : ∀ (p : Problem α) {j : Nat}, ¬ j < p.blocks.size →
        (ColumnBounds.make p tangentSpace).widthAt j = 0 := fun p j hj => by
      rw [← ColumnBounds.size_ranges_make p tangentSpace] at hj
      exact Nat.eq_zero_of_not_pos fun hpos => hj (ColumnBounds.lt_size_of_widthAt_pos hpos)
    rw [hzero p hi, hzero q (by rw [h.size_eq, h.lt_size_iff]; exact hi)]

/-- The projection of a block goes with its name. -/
theorem projectionAt_eq [Zero α] [One α] (h : p.Renamed π q) {i : Nat} (hi : i < p.blocks.size) :
    q.projectionAt (ColumnBounds.make q true) (π i) =
      p.projectionAt (ColumnBounds.make p true) i := by
  have hrange : ((ColumnBounds.make q true).rangeAt (π i)).size =
      ((ColumnBounds.make p true).rangeAt i).size := by
    rw [size_rangeAt_make q (by rw [h.size_eq]; exact (h.lt_size_iff i).mpr hi),
      size_rangeAt_make p hi, h.width_eq]
  simp only [projectionAt, h.blockAt_eq, hrange]

/-- Directions of blocks under their old and their new names. -/
def placeEquiv (h : p.Renamed π q) :
    (ColumnBounds.make p true).Place ≃ (ColumnBounds.make q true).Place :=
  Equiv.sigmaCongr
    { toFun := fun i => ⟨π i, by
        have := i.isLt
        simp only [ColumnBounds.size_ranges_make] at this ⊢
        rw [h.size_eq, h.lt_size_iff]
        exact this⟩
      invFun := fun i => ⟨π.symm i, by
        have := i.isLt
        simp only [ColumnBounds.size_ranges_make] at this ⊢
        rw [h.size_eq] at this
        rw [← h.lt_size_iff, Equiv.apply_symm_apply]
        exact this⟩
      left_inv := fun i => Fin.ext (π.symm_apply_apply i)
      right_inv := fun i => Fin.ext (π.apply_symm_apply i) }
    fun i => finCongr (h.widthAt_eq true i).symm

@[simp] theorem fst_placeEquiv (h : p.Renamed π q) (c : (ColumnBounds.make p true).Place) :
    ((h.placeEquiv c).1 : Nat) = π c.1 := rfl

@[simp] theorem snd_placeEquiv (h : p.Renamed π q) (c : (ColumnBounds.make p true).Place) :
    ((h.placeEquiv c).2 : Nat) = c.2 := rfl

end Renamed

end Renaming

/-! ## Jacobians of renamed residual blocks -/

section Evaluating

variable {α : Type} [Zero α] {p q : Problem α}

/-- What is read for a block is what was returned for it. -/
theorem lookup_of_readJacobians {n : Nat} {blocks : List Nat} {Ts : List (Tensor α)}
    {Gs : List (Dense α)}
    (h : Cost.readJacobians n (blocks.map fun i => (p.blockAt i).values) Ts = .ok Gs) (i : Nat) :
    (blocks.zip Gs).lookup i = ((blocks.zip Ts).lookup i).map fun T =>
      Dense.ofArray n (p.blockAt i).values.size T.data := by
  induction blocks generalizing Ts Gs with
  | nil => rfl
  | cons j blocks ih =>
    cases Ts with
    | nil =>
      cases h
      rfl
    | cons T Ts =>
      rw [List.map_cons, Cost.readJacobians] at h
      split at h
      · cases hrest : Cost.readJacobians n (blocks.map fun i => (p.blockAt i).values) Ts with
        | error e =>
          rw [hrest] at h
          cases h
        | ok rest =>
          rw [hrest] at h
          cases h
          rw [List.zip_cons_cons, List.zip_cons_cons, List.lookup_cons, List.lookup_cons]
          cases hij : i == j with
          | true =>
            obtain rfl := eq_of_beq hij
            rfl
          | false => exact ih hrest
      · cases h

omit [Zero α] in
theorem lookup_zip_map (blocks : List Nat) (Gs : List (Dense α)) (f : Dense α → Dense α)
    (i : Nat) : (blocks.zip (Gs.map f)).lookup i = ((blocks.zip Gs).lookup i).map f := by
  induction blocks generalizing Gs with
  | nil => rfl
  | cons j blocks ih =>
    cases Gs with
    | nil => rfl
    | cons G Gs =>
      rw [List.map_cons, List.zip_cons_cons, List.zip_cons_cons, List.lookup_cons,
        List.lookup_cons]
      cases i == j with
      | true => rfl
      | false => exact ih Gs

variable [One α] [Add α] [Sub α] [Mul α] [Div α] [NatCast α] [BEq α] [LE α] [DecidableLE α]
  [Elementary α] {π : Equiv.Perm Nat} {r r' : ResidualBlock α} {applyLoss : Bool}

theorem exists_of_linearized {residual : Array α} {Js : List (Dense α)}
    (h : p.linearized applyLoss r = .ok (residual, Js)) :
    ∃ Ts Gs, r.cost.residual (p.valuesOf r) = .ok residual ∧
      r.cost.jacobians (p.valuesOf r) = .ok Ts ∧
      Cost.readJacobians residual.size (p.valuesOf r) Ts = .ok Gs ∧
      corrected r applyLoss residual Gs = .ok Js := by
  obtain ⟨⟨residual', Gs⟩, hcost, hrest⟩ := bind_eq_ok_iff.mp h
  obtain ⟨Js', hcorrected, hpair⟩ := bind_eq_ok_iff.mp hrest
  cases hpair
  obtain ⟨hresidual, Ts, hTs, hGs⟩ := Cost.evaluate_eq_ok_iff.mp hcost
  exact ⟨Ts, Gs, hresidual, hTs, hGs, hcorrected⟩

/-- The Jacobian for a block, before it is projected, goes with the name of the block. -/
theorem Renames.lookup_eq (h : Renames p q π r r') (hblocks : ∀ i, q.blockAt (π i) = p.blockAt i)
    (nodup : r.blocks.Nodup) {residual residual' : Array α} {Js Js' : List (Dense α)}
    (hp : p.linearized applyLoss r = .ok (residual, Js))
    (hq : q.linearized applyLoss r' = .ok (residual', Js')) (i : Nat) :
    (r'.blocks.zip Js').lookup (π i) = (r.blocks.zip Js).lookup i := by
  obtain ⟨Ts, Gs, hresidual, hTs, hGs, hcorrected⟩ := exists_of_linearized hp
  obtain ⟨Ts', Gs', hresidual', hTs', hGs', hcorrected'⟩ := exists_of_linearized hq
  rw [h.residual_eq, hresidual, Except.ok.injEq] at hresidual'
  subst hresidual'
  obtain ⟨f, hf, -⟩ := exists_correction r applyLoss residual
  have hsame : corrected r' applyLoss residual Gs' = corrected r applyLoss residual Gs' := by
    simp only [corrected, h.loss_eq]
  obtain rfl := hf Gs Js hcorrected
  obtain rfl := hf Gs' Js' (hsame.symm.trans hcorrected')
  have hkeys : ((r.blocks.zip Ts).map Prod.fst).Nodup := nodup_map_fst_zip nodup Ts
  rw [lookup_zip_map, lookup_zip_map, lookup_of_readJacobians hGs', lookup_of_readJacobians hGs,
    hblocks, lookup_of_perm (h.jacobians_perm Ts Ts' hTs hTs') hkeys]

/-- The projected Jacobian for a block goes with the name of the block. -/
theorem Renames.jacobianOf_eq (h : Renames p q π r r') (renamed : p.Renamed π q)
    (nodup : r.blocks.Nodup) {Ps Qs : Array (Option (Dense α))}
    (hPs : p.projections (ColumnBounds.make p true) = .ok Ps)
    (hQs : q.projections (ColumnBounds.make q true) = .ok Qs) {e e' : Evaluated α}
    (he : p.evaluate Ps applyLoss r = .ok e) (he' : q.evaluate Qs applyLoss r' = .ok e') {i : Nat}
    (hi : i < p.blocks.size) :
    q.jacobianOf Qs applyLoss r' (π i) = p.jacobianOf Ps applyLoss r i := by
  obtain ⟨residual, Js, hlinearized, hprojected⟩ := exists_linearized_of_evaluate he
  obtain ⟨residual', Js', hlinearized', hprojected'⟩ := exists_linearized_of_evaluate he'
  have hp := projectionAt_of_projections (ColumnBounds.size_ranges_make p true) hPs hi
  have hq := projectionAt_of_projections (ColumnBounds.size_ranges_make q true) hQs
    (i := π i) (by rw [renamed.size_eq]; exact (renamed.lt_size_iff i).mpr hi)
  rw [renamed.projectionAt_eq hi, hp, Except.ok.injEq] at hq
  have hone : projectOne Qs (π i) = projectOne Ps i := by
    funext J
    simp only [projectOne, hq]
  have hlookup := hprojected' (π i)
  rw [h.lookup_eq renamed.blockAt_eq nodup hlinearized hlinearized', hone, hprojected i] at hlookup
  exact (Except.ok.inj hlookup).symm

end Evaluating

/-! ## The normal matrix -/

section Sums

variable {K : Type} [Field K] [BEq K] [LE K] [DecidableLE K] [Elementary K] {p q : Problem K}
  {π : Equiv.Perm Nat} {applyLoss : Bool}

/-- **The normal matrix under new names.** Residual blocks add to it what they added under the old
names, and the order in which they do so does not matter. -/
theorem Renamed.gram_eq (h : p.Renamed π q) (s : p.Sound) {Ps Qs : Array (Option (Dense K))}
    (hPs : p.projections (ColumnBounds.make p true) = .ok Ps)
    (hQs : q.projections (ColumnBounds.make q true) = .ok Qs)
    (hp : ∀ r ∈ p.residuals, ∃ e, p.evaluate Ps applyLoss r = .ok e)
    (hq : ∀ r ∈ q.residuals, ∃ e, q.evaluate Qs applyLoss r = .ok e) :
    (q.gram (ColumnBounds.make q true) Qs applyLoss).submatrix h.placeEquiv h.placeEquiv =
      p.gram (ColumnBounds.make p true) Ps applyLoss := by
  ext c d
  refine (h.map_residuals_perm fun r hr r' hr' renames => ?_).sum_eq
  have hlt : ∀ c : (ColumnBounds.make p true).Place, (c.1 : Nat) < p.blocks.size := fun c =>
    Nat.lt_of_lt_of_eq c.1.isLt (ColumnBounds.size_ranges_make p true)
  obtain ⟨e, he⟩ := hp r hr
  obtain ⟨e', he'⟩ := hq r' hr'
  have hjacobian : ∀ c : (ColumnBounds.make p true).Place,
      q.jacobianOf Qs applyLoss r' (π c.1) = p.jacobianOf Ps applyLoss r c.1 := fun c =>
    renames.jacobianOf_eq h (s.nodup r hr) hPs hQs he he' (hlt c)
  have hcount : q.residualCount r' = p.residualCount r := by
    simp only [residualCount, renames.residual_eq]
  simp only [addend, entryOf, fst_placeEquiv, snd_placeEquiv, hjacobian, hcount]

end Sums

end Problem

/-! ## Answers under new names -/

namespace Covariance

section Answers

variable {K : Type} [Field K] {p q : Problem K} {π : Equiv.Perm Nat} {request request' : List Item}
  {plan plan' : Plan} {f f' : Nat → Nat → K}

/-- Under the new names there are the same blocks for the second plan as for the first one under the
old names. -/
structure Carries (π : Equiv.Perm Nat) (plan plan' : Plan) (f f' : Nat → Nat → K) : Prop where
  widthAt_eq : ∀ i, plan'.bounds.widthAt (π i) = plan.bounds.widthAt i
  covers_iff : ∀ i j, 0 < plan.bounds.widthAt i → 0 < plan.bounds.widthAt j →
    (plan'.Covers (π i) (π j) ↔ plan.Covers i j)
  blockOf_eq : ∀ i j, 0 < plan.bounds.widthAt i → 0 < plan.bounds.widthAt j → plan.Covers i j →
    blockOf f' plan'.bounds (π i) (π j) = blockOf f plan.bounds i j

/-- What is answered about two positions is answered about their new ones. -/
theorem answerAt_of_carries (h : p.Renamed π q) (carries : Carries π plan plan' f f')
    (coordinates : Coordinates) (i j : Nat) :
    answerAt f' plan' q coordinates (π i) (π j) = answerAt f plan p coordinates i j := by
  have hsame : decide (π i = π j) = decide (i = j) := decide_eq_decide.mpr π.injective.eq_iff
  unfold answerAt
  simp only [carries.widthAt_eq, h.blockAt_eq, hsame]
  split
  · rfl
  · rename_i hempty
    obtain ⟨hi, hj⟩ : 0 < plan.bounds.widthAt i ∧ 0 < plan.bounds.widthAt j := by omega
    by_cases hcovers : plan.Covers i j
    · rw [if_pos hcovers, if_pos ((carries.covers_iff i j hi hj).mpr hcovers),
        carries.blockOf_eq i j hi hj hcovers]
    · rw [if_neg hcovers, if_neg (mt (carries.covers_iff i j hi hj).mp hcovers)]

end Answers

section Results

variable {K : Type} [Field K] [LinearOrder K] [Elementary K] {p q : Problem K}
  {π : Equiv.Perm Nat}

/-- The inverse of the normal matrix has the same blocks under the new names. -/
theorem blockOf_eq_of_renamed (h : p.Renamed π q) (s : p.Sound) {applyLoss : Bool}
    {Ps Qs : Array (Option (Dense K))} {f f' : Nat → Nat → K}
    (hp : Inverts p (ColumnBounds.make p true) applyLoss Ps f)
    (hq : Inverts q (ColumnBounds.make q true) applyLoss Qs f') {i j : Nat}
    (hi : 0 < (ColumnBounds.make p true).widthAt i)
    (hj : 0 < (ColumnBounds.make p true).widthAt j) :
    blockOf f' (ColumnBounds.make q true) (π i) (π j) =
      blockOf f (ColumnBounds.make p true) i j := by
  have hgram := h.gram_eq s hp.projected hq.projected
    (fun r hr => (hp.evaluated r hr).imp fun e he => he.1)
    (fun r hr => (hq.evaluated r hr).imp fun e he => he.1)
  refine Dense.ext_get (h.widthAt_eq true i) (h.widthAt_eq true j) fun u v hu hv => ?_
  have hu' : u < (ColumnBounds.make q true).widthAt (π i) := hu
  have hv' : v < (ColumnBounds.make q true).widthAt (π j) := hv
  have hu : u < (ColumnBounds.make p true).widthAt i := by rwa [h.widthAt_eq] at hu'
  have hv : v < (ColumnBounds.make p true).widthAt j := by rwa [h.widthAt_eq] at hv'
  let a : (ColumnBounds.make p true).Place :=
    ⟨⟨i, ColumnBounds.lt_size_of_widthAt_pos hi⟩, ⟨u, hu⟩⟩
  let b : (ColumnBounds.make p true).Place :=
    ⟨⟨j, ColumnBounds.lt_size_of_widthAt_pos hj⟩, ⟨v, hv⟩⟩
  calc (blockOf f' (ColumnBounds.make q true) (π i) (π j)).get u v
      = (q.gram (ColumnBounds.make q true) Qs applyLoss)⁻¹ (h.placeEquiv a) (h.placeEquiv b) :=
        (Dense.get_ofFn_of_lt _ hu' hv').trans (hq.entry_eq (h.placeEquiv a) (h.placeEquiv b))
    _ = (p.gram (ColumnBounds.make p true) Ps applyLoss)⁻¹ a b := by
        rw [← hgram, inv_submatrix_equiv]
        rfl
    _ = (blockOf f (ColumnBounds.make p true) i j).get u v :=
        ((Dense.get_ofFn_of_lt _ hu hv).trans (hp.entry_eq a b)).symm

variable [IsStrictOrderedRing K] {engine : Engine K} {c : Covariance K}
  {request request' : List Item}

/-- With exact factorisations the two computations leave the same blocks under the old and the new
names. -/
theorem exists_carries_of_compute (s : p.Sound) (s' : q.Sound) (h : p.Renamed π q)
    (hrequest : ∀ i j, i < p.blocks.size → j < p.blocks.size →
      (Requested request' (π i) (π j) ↔ Requested request i j))
    (exact : engine.FactorsExactly) (halgorithm : c.options.algorithm = .sparseQr)
    (hlibrary : c.options.library = .elimination)
    (hp : (compute engine c p request).answer = .ok true)
    (hq : (compute engine c q request').answer = .ok true) :
    ∃ plan plan' f f', planOf p request = .ok plan ∧ planOf q request' = .ok plan' ∧
      (compute engine c p request).state = c.holding plan (Truncation.gather f plan.pattern) ∧
      (compute engine c q request').state = c.holding plan' (Truncation.gather f' plan'.pattern) ∧
      Carries π plan plan' f f' ∧ ∀ i j, Fitted plan p i j := by
  obtain ⟨plan, f, hplan, hstate, hinverts⟩ :=
    exists_inverts_of_compute s exact halgorithm hlibrary hp
  obtain ⟨plan', f', hplan', hstate', hinverts'⟩ :=
    exists_inverts_of_compute s' exact halgorithm hlibrary hq
  have hbounds := bounds_of_planOf hplan
  have hbounds' := bounds_of_planOf hplan'
  have hwidth : ∀ i, plan'.bounds.widthAt (π i) = plan.bounds.widthAt i := fun i => by
    rw [hbounds, hbounds', h.widthAt_eq]
  have hlt : ∀ {i}, 0 < plan.bounds.widthAt i → i < p.blocks.size := fun hi => by
    have hlt := ColumnBounds.lt_size_of_widthAt_pos hi
    rwa [hbounds, ColumnBounds.size_ranges_make] at hlt
  have hcovers : ∀ i j, 0 < plan.bounds.widthAt i → 0 < plan.bounds.widthAt j →
      (plan'.Covers (π i) (π j) ↔ plan.Covers i j) := fun i j hi hj => by
    rw [covers_iff_requested hplan hi hj, covers_iff_requested hplan' (by rwa [hwidth])
      (by rwa [hwidth]), hrequest i j (hlt hi) (hlt hj)]
  refine ⟨plan, plan', f, f', hplan, hplan', hstate, hstate', ⟨hwidth, hcovers, ?_⟩,
    fitted_of_inverts hplan hinverts⟩
  intro i j hi hj hcovered
  have hnonzeros := (regular_of_planOf hplan).1.toWellFormed.nonzeros_ne_zero hcovered
  have hnonzeros' := (regular_of_planOf hplan').1.toWellFormed.nonzeros_ne_zero
    ((hcovers i j hi hj).mpr hcovered)
  obtain ⟨Ps, inverts⟩ := hinverts hnonzeros
  obtain ⟨Qs, inverts'⟩ := hinverts' hnonzeros'
  rw [hbounds] at hi hj inverts ⊢
  rw [hbounds'] at inverts' ⊢
  exact blockOf_eq_of_renamed h s inverts inverts' hi hj

/-- **The order of creation does not matter.** Let a second problem have the parameter blocks and
the residual blocks of a first one, created in any other order, where each residual block may list
its blocks, with their Jacobians, in any order; and let it be asked for the same pairs under their
new names, in any order and orientation. If both computations succeed by elimination with exact
factorisations, the block of two handles is answered as it is under the new handles, in either
coordinates, and so is the joint matrix of any handles. There is an answer about every block, and a
joint matrix of the parameters. -/
theorem answers_of_renamed (reachable : p.Reachable) (reachable' : q.Reachable)
    (h : p.Renamed π q)
    (hrequest : ∀ i j, i < p.blocks.size → j < p.blocks.size →
      (Requested request' (π i) (π j) ↔ Requested request i j))
    (exact : engine.FactorsExactly) (halgorithm : c.options.algorithm = .sparseQr)
    (hlibrary : c.options.library = .elimination)
    (hp : (compute engine c p request).answer = .ok true)
    (hq : (compute engine c q request').answer = .ok true) :
    let first := (compute engine c p request).state
    let second := (compute engine c q request').state
    (∀ a b a' b' i j, p.position a = .ok i → p.position b = .ok j →
      q.position a' = .ok (π i) → q.position b' = .ok (π j) →
      (∀ coordinates, (second.block q coordinates a' b').answer =
        (first.block p coordinates a b).answer) ∧
      (∃ found, (first.block p .ambient a b).answer = .ok found) ∧
      ∃ found, (first.block p .tangent a b).answer = .ok found) ∧
    ∀ (engine' : Engine K) handles handles' positions,
      handles.mapM p.position = .ok positions →
      handles'.mapM q.position = .ok (positions.map π) →
      (∀ coordinates, (second.matrix engine' q coordinates handles').answer =
        (first.matrix engine' p coordinates handles).answer) ∧
      ∃ found, (first.matrix engine' p .ambient handles).answer = .ok found := by
  intro first second
  obtain ⟨plan, plan', f, f', hplan, hplan', hstate, hstate', carries, fitted⟩ :=
    exists_carries_of_compute reachable.sound reachable'.sound h hrequest exact halgorithm
      hlibrary hp hq
  have hanswer := answerAt_of_carries h carries
  simp only [first, second, hstate, hstate']
  refine ⟨fun a b a' b' i j ha hb ha' hb' => ?_,
    fun engine' handles handles' positions hpositions hpositions' => ?_⟩
  · have hfirst := fun coordinates => answer_block_holding f hplan c coordinates ha hb
      (lt_ranges_of_position hplan ha) (lt_ranges_of_position hplan hb)
    have hsecond := fun coordinates => answer_block_holding f' hplan' c coordinates ha' hb'
      (lt_ranges_of_position hplan' ha') (lt_ranges_of_position hplan' hb')
    refine ⟨fun coordinates => by rw [hfirst, hsecond, hanswer], ?_⟩
    rw [hfirst, hfirst]
    exact ⟨exists_answerAt_of_fitted f (fitted i j), exists_answerAt_tangent f plan p i j⟩
  · have hknown : ∀ a ∈ handles, ∀ k, p.position a = .ok k → k < plan.bounds.ranges.size :=
      fun a _ k hk => lt_ranges_of_position hplan hk
    have hknown' : ∀ a ∈ handles', ∀ k, q.position a = .ok k → k < plan'.bounds.ranges.size :=
      fun a _ k hk => lt_ranges_of_position hplan' hk
    refine ⟨fun coordinates => ?_,
      exists_matrix_of_fitted f hplan hpositions hknown fun k _ l _ => fitted k l⟩
    have hplaced : ∀ pair : Nat × Nat, placedAt f' plan' q coordinates (π pair.1, π pair.2) =
        placedAt f plan p coordinates pair := fun pair => by
      simp only [placedAt, hanswer, h.blockAt_eq]
    have hsizes : memberSizes q coordinates (positions.map π) =
        memberSizes p coordinates positions := by
      simp only [memberSizes, List.map_map, Function.comp_def, h.blockAt_eq]
    rw [answer_matrix_holding f hplan c engine' coordinates hknown,
      answer_matrix_holding f' hplan' c engine' coordinates hknown', hpositions, hpositions']
    simp only [bind, Except.bind, hsizes, Request.map_allPairs, List.mapM_map, Function.comp_def,
      hplaced]

end Results

end Covariance

/-! ## Three blocks in another order -/

namespace Covariance

/-- A residual with a Jacobian of one number for each of its blocks. -/
def slopeCost (slopes : List ℚ) : Cost ℚ :=
  ⟨fun _ => .ok #[0], fun _ => .ok (slopes.map fun x => ⟨[1, 1], #[x]⟩), none⟩

/-- The residuals `x + 3y`, `y` and `2z`. -/
def forward : Problem ℚ :=
  Edit.runAll .empty [.addBlock #[0] none, .addBlock #[0] none, .addBlock #[0] none,
    .addResidual [.integer 0, .integer 1] (slopeCost [1, 3]),
    .addResidual [.integer 1] (slopeCost [1]), .addResidual [.integer 2] (slopeCost [2])]

/-- The same residuals in reverse, where the blocks are created in the order `z`, `x`, `y`. -/
def backward : Problem ℚ :=
  Edit.runAll .empty [.addBlock #[0] none, .addBlock #[0] none, .addBlock #[0] none,
    .addResidual [.integer 0] (slopeCost [2]), .addResidual [.integer 2] (slopeCost [1]),
    .addResidual [.integer 2, .integer 1] (slopeCost [3, 1])]

/-- The new names of `x`, `y` and `z`. -/
def turn : Equiv.Perm Nat := (Equiv.swap 0 1).trans (Equiv.swap 0 2)

theorem turn_of_le {i : Nat} (h : 3 ≤ i) : turn i = i := by
  have hfixed : ∀ k, k < 3 → Equiv.swap 0 k i = i := fun k hk =>
    Equiv.swap_apply_of_ne_of_ne (by omega) (by omega)
  rw [turn, Equiv.trans_apply, hfixed 1 (by decide), hfixed 2 (by decide)]

theorem reachable_forward : forward.Reachable :=
  .run _ (.run _ (.run _ (.run _ (.run _ (.run _ .empty)))))

theorem reachable_backward : backward.Reachable :=
  .run _ (.run _ (.run _ (.run _ (.run _ (.run _ .empty)))))

theorem renamed_backward : forward.Renamed turn backward where
  size_eq := by cbv
  lt_size_iff i := by
    rcases Nat.lt_or_ge i 3 with hi | hi
    · interval_cases i <;> decide
    · rw [turn_of_le hi]
  blockAt_eq i := by
    rcases Nat.lt_or_ge i 3 with hi | hi
    · interval_cases i <;> rfl
    · rw [turn_of_le hi, Problem.blockAt_of_size_le _ hi, Problem.blockAt_of_size_le _ hi]
  residuals_perm := by
    refine ⟨backward.residuals.toList.reverse, (List.reverse_perm _).symm,
      .cons ⟨List.Perm.swap _ _ [], rfl, rfl, ?_⟩
        (.cons ⟨List.Perm.refl _, rfl, rfl, ?_⟩ (.cons ⟨List.Perm.refl _, rfl, rfl, ?_⟩ .nil))⟩
    all_goals
      intro Ts Ts' hTs hTs'
      cases hTs
      cases hTs'
    · exact List.Perm.swap _ _ []
    · exact List.Perm.refl _
    · exact List.Perm.refl _

/-- The variance of `x`, and `y` with `x`. -/
def forwardRequest : List Item :=
  [.list [.integer 0, .integer 0], .list [.integer 1, .integer 0]]

/-- The same under the new names. -/
def backwardRequest : List Item :=
  [.list [.integer 1, .integer 2], .list [.integer 1, .integer 1]]

theorem requested_backward (i j : Nat) (hi : i < forward.blocks.size)
    (hj : j < forward.blocks.size) :
    Requested backwardRequest (turn i) (turn j) ↔ Requested forwardRequest i j := by
  have hforward : Request.pairs forwardRequest = .ok [(0, 0), (1, 0)] := by cbv
  have hbackward : Request.pairs backwardRequest = .ok [(1, 2), (1, 1)] := by cbv
  have hi : i < 3 := hi
  have hj : j < 3 := hj
  simp only [Requested, hforward, hbackward, Except.ok.injEq, exists_eq_left']
  interval_cases i <;> interval_cases j <;> decide

/-- The columns of three numbers. -/
def threeBounds : ColumnBounds := ⟨#[⟨0, 1⟩, ⟨1, 1⟩, ⟨2, 1⟩], 3, true⟩

theorem check_three : threeBounds.check = .ok () := by
  simp [ColumnBounds.check, threeBounds, Extent.check, Extent.bytes, Extent.maxBytes]

theorem prepared_forward : Prepared Engine.exact (plain .sparseQr).options forward forwardRequest
    (Plan.ofPairs threeBounds [(0, 0), (1, 0)])
    ⟨Pattern.ofRows 3 [[0, 1], [1], [2]], #[1, 3, 1, 2]⟩ where
  planned := by
    have hpairs : Request.pairs forwardRequest = .ok [(0, 0), (1, 0)] := by cbv
    have haccept : Plan.accept forward (itemsOf [(0, 0), (1, 0)]) = .ok [(0, 0), (1, 0)] := by cbv
    have hbounds : ColumnBounds.make forward true = threeBounds := by cbv
    exact planOf_eq hpairs haccept hbounds check_three
  free := by
    refine ⟨1, 0, ⟨[(0, 0), (1, 0)], by cbv, Or.inl (by decide)⟩, ?_, ?_⟩ <;> decide
  jacobian := by cbv

theorem prepared_backward : Prepared Engine.exact (plain .sparseQr).options backward
    backwardRequest (Plan.ofPairs threeBounds [(1, 2), (1, 1)])
    ⟨Pattern.ofRows 3 [[0], [2], [1, 2]], #[2, 1, 1, 3]⟩ where
  planned := by
    have hpairs : Request.pairs backwardRequest = .ok [(1, 2), (1, 1)] := by cbv
    have haccept : Plan.accept backward (itemsOf [(1, 2), (1, 1)]) = .ok [(1, 2), (1, 1)] := by
      cbv
    have hbounds : ColumnBounds.make backward true = threeBounds := by cbv
    exact planOf_eq hpairs haccept hbounds check_three
  free := by
    refine ⟨1, 2, ⟨[(1, 2), (1, 1)], by cbv, Or.inl (by decide)⟩, ?_, ?_⟩ <;> decide
  jacobian := by cbv

theorem compute_forward :
    (compute Engine.exact (plain .sparseQr) forward forwardRequest).answer = .ok true ∧
      (compute Engine.exact (plain .sparseQr) forward forwardRequest).state =
        (plain .sparseQr).holding (Plan.ofPairs threeBounds [(0, 0), (1, 0)]) #[10, -3, -3] := by
  have hvalues : (estimateValues Engine.exact (plain .sparseQr).options
      ⟨Pattern.ofRows 3 [[0, 1], [1], [2]], #[1, 3, 1, 2]⟩
      (Plan.ofPairs threeBounds [(0, 0), (1, 0)]).pattern).answer =
        .ok (some #[10, -3, -3]) := by cbv
  obtain ⟨hanswer, hstate⟩ := prepared_forward.compute_eq
  rw [hvalues] at hanswer hstate
  exact ⟨hanswer, hstate⟩

theorem answer_backward :
    (compute Engine.exact (plain .sparseQr) backward backwardRequest).answer = .ok true := by
  have hvalues : (estimateValues Engine.exact (plain .sparseQr).options
      ⟨Pattern.ofRows 3 [[0], [2], [1, 2]], #[2, 1, 1, 3]⟩
      (Plan.ofPairs threeBounds [(1, 2), (1, 1)]).pattern).answer =
        .ok (some #[10, -3, -3]) := by cbv
  rw [prepared_backward.compute_eq.1, hvalues]
  rfl

/-- The covariance of `x` with `y` is `-3`, under the new names too, and the joint matrices of `y`,
`z` and `x` are the same. -/
theorem answers_of_renamed_backward :
    ((compute Engine.exact (plain .sparseQr) backward backwardRequest).state.block backward .tangent
        (.integer 1) (.integer 2)).answer = .ok (some (Dense.ofRows 1 [[-3]])) ∧
    ((compute Engine.exact (plain .sparseQr) backward backwardRequest).state.matrix Engine.exact
        backward .ambient [.integer 2, .integer 0, .integer 1]).answer =
      ((compute Engine.exact (plain .sparseQr) forward forwardRequest).state.matrix Engine.exact
        forward .ambient [.integer 1, .integer 2, .integer 0]).answer := by
  obtain ⟨hblocks, hmatrices⟩ := answers_of_renamed reachable_forward reachable_backward
    renamed_backward requested_backward Engine.factorsExactly_exact rfl rfl compute_forward.1
    answer_backward
  obtain ⟨hblock, -⟩ := hblocks (.integer 0) (.integer 1) (.integer 1) (.integer 2) 0 1 rfl rfl
    rfl rfl
  obtain ⟨hmatrix, -⟩ := hmatrices Engine.exact [.integer 1, .integer 2, .integer 0]
    [.integer 2, .integer 0, .integer 1] [1, 2, 0] rfl rfl
  refine ⟨?_, hmatrix .ambient⟩
  rw [hblock, compute_forward.2]
  cbv

end Covariance

end LeastSquares
