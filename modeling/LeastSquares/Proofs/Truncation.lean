/-
LeastSquares.Proofs.Truncation — dropping a fixed number of directions, and dropping the null ones.

There are two rules for where the sum over the singular directions ends: at a number of directions
that is given, where a null direction among the kept ones is a failure, or before the first null
direction. Either one keeps the first directions up to some number (`weights_eq`). Singular values
fall, and with them their ratios to the largest, so the directions before the first null one are all
that are not null (`leading_eq_passing`): automatic truncation keeps these, and forced truncation
its own number of directions, unless that is larger. The two meet where the forced number is the one
that pass (`truncations_agree`).
-/
import LeastSquares.Proofs.Rational

namespace LeastSquares

/-- Where what follows something that fails fails too, the members that pass come first. -/
theorem length_takeWhile_eq_countP {β : Type} {P : β → Bool} {xs : List β}
    (h : xs.Pairwise fun x y => P y = true → P x = true) :
    (xs.takeWhile P).length = xs.countP P := by
  induction xs with
  | nil => rfl
  | cons x xs ih =>
    obtain ⟨hx, hxs⟩ := List.pairwise_cons.mp h
    by_cases hpass : P x = true
    · rw [List.takeWhile_cons_of_pos hpass, List.countP_cons_of_pos hpass, List.length_cons, ih hxs]
    · have hnone : xs.countP P = 0 :=
        List.countP_eq_zero.mpr fun y hy hPy => hpass (hx y hy hPy)
      rw [List.takeWhile_cons_of_neg hpass, List.countP_cons_of_neg hpass, hnone, List.length_nil]

namespace Truncation

variable {K : Type} [Field K]

/-- The weighted sum of the directions that are kept is the sum of the first ones. -/
theorem weighted_keeping {s : Singular K} {q n kept : Nat} (hq : s.values.length = q)
    (hkept : kept ≤ q) :
    s.weighted q n (fun k => (keeping s.values kept).getD k 0) =
      s.weighted kept n fun k => 1 / (s.value k * s.value k) := by
  ext i j
  rw [Singular.weighted_apply, Singular.weighted_apply]
  refine (Finset.sum_subset (Finset.range_subset_range.mpr hkept) ?_).symm.trans
    (Finset.sum_congr rfl ?_)
  · intro k _ hk
    have hk : kept ≤ k := by simpa using hk
    rw [getD_keeping_of_le _ hk, mul_zero, zero_mul]
  · intro k hk
    rw [getD_keeping_of_lt (Finset.mem_range.mp hk) (hq ▸ hkept), Singular.value]

variable [LinearOrder K] [IsStrictOrderedRing K]

/-- A larger singular value passes as well. -/
theorem passes_of_le {limit top x y : K} (h : y ≤ x) (hy : passes limit top y = true) :
    passes limit top x = true := by
  refine decide_eq_true (le_trans (of_decide_eq_true hy) ?_)
  unfold ratio
  split
  · rename_i htop
    exact div_le_div_of_nonneg_right h (le_of_lt htop)
  · exact le_refl 0

variable [Elementary K] {options : Options K} {values : List K}

/-- How many singular values pass the test of their ratio to the largest. -/
def passing (options : Options K) (values : List K) : Nat :=
  values.countP (passes (Elementary.sqrt options.minReciprocalCondition) (values.headD 0))

/-- Of falling singular values those that pass are the leading ones. -/
theorem leading_eq_passing (h : values.Pairwise fun x y => y ≤ x) :
    leading options values = passing options values :=
  length_takeWhile_eq_countP (h.imp fun hle hpass => passes_of_le hle hpass)

/-- Automatic truncation keeps the directions that pass. -/
theorem weights_of_neg (h : values.Pairwise fun x y => y ≤ x) (hrank : options.nullSpaceRank < 0) :
    weights options values = some (keeping values (passing options values)) := by
  have hall : maxRank values.length options.nullSpaceRank = values.length := by
    unfold maxRank
    omega
  rw [weights_eq, if_pos (Or.inl hrank), hall, Nat.min_eq_right (leading_le options values),
    leading_eq_passing h]

/-- Forced truncation keeps its number of directions, if all of them pass. -/
theorem weights_of_nonneg (h : values.Pairwise fun x y => y ≤ x)
    (hrank : 0 ≤ options.nullSpaceRank) :
    weights options values =
      if values.length - options.nullSpaceRank.toNat ≤ passing options values then
        some (keeping values (values.length - options.nullSpaceRank.toNat))
      else none := by
  rw [weights_eq, maxRank_eq _ hrank, leading_eq_passing h]
  simp only [not_lt.mpr hrank, false_or]
  split
  · rename_i hpass
    rw [Nat.min_eq_left hpass]
  · rfl

end Truncation

/-! ## Computations -/

namespace Covariance

variable {K : Type} [Field K] [LinearOrder K] [IsStrictOrderedRing K] [Elementary K]
  {engine : Engine K} {c : Covariance K} {problem : Problem K} {request : List Item} {plan : Plan}
  {J : Compressed K} {s : Singular K}

/-- The same covariance with options for another number of directions to be dropped. -/
def dropping (c : Covariance K) (rank : Int) : Covariance K :=
  { c with options := { c.options with nullSpaceRank := rank } }

/-- The sum of the first directions of a decomposition, along the pattern of a plan. -/
def firstDirections (s : Singular K) (J : Compressed K) (plan : Plan) (kept : Nat) : Array K :=
  Truncation.gather (entryAt (s.weighted kept J.pattern.numCols fun k =>
    1 / (s.value k * s.value k))) plan.pattern

/-- A computation by singular values that has values to compute is decided by the weights of the
directions. -/
theorem compute_eq_of_weights (exact : engine.DecomposesExactly)
    (halgorithm : c.options.algorithm = .denseSvd) (hplan : planOf problem request = .ok plan)
    (hnonzeros : plan.pattern.nonzeros ≠ 0)
    (hJ : (problem.jacobian engine.schedule (ColumnBounds.make problem true) c.options.applyLoss
      c.options.threads).answer = .ok J)
    (hsingular : engine.singular J.dense = some s)
    (hpos : 0 < min J.pattern.numRows J.pattern.numCols) :
    (Truncation.weights c.options s.values = none →
      (compute engine c problem request).answer = .ok false) ∧
    ∀ kept, kept ≤ s.values.length →
      Truncation.weights c.options s.values = some (Truncation.keeping s.values kept) →
      (compute engine c problem request).answer = .ok true ∧
        (compute engine c problem request).state.estimate =
          .ready plan (firstDirections s J plan kept) := by
  rw [← bounds_of_planOf hplan] at hJ
  obtain ⟨r, hp, -, -⟩ := shapes_of_jacobian hplan hJ
  have d : s.Decomposes J.toMatrix := exact.decomposes hsingular
  have hfilled := (answer_fillPlan hnonzeros hJ).trans
    (answer_svd r hp halgorithm (by omega) (by omega) hsingular d)
  obtain ⟨hanswer, hstate⟩ := compute_eq hplan engine c
  rw [hfilled] at hanswer hstate
  constructor
  · intro hnone
    rw [hanswer, hnone]
    rfl
  · intro kept hkept hsome
    rw [hsome, Option.map_some, Truncation.weighted_keeping d.length_values
      (d.length_values ▸ hkept)] at hanswer hstate
    exact ⟨hanswer, by rw [hstate]; rfl⟩

/-- **Truncation by number and by size.** Let `k` of the `q` singular values of the Jacobian pass
the test of their ratio to the largest. Whatever is requested, a computation that drops the null
directions on its own succeeds, and one that is told to drop `q - k` directions leaves the same
estimate. If values are computed at all, they are those of the sum of the first `k` directions; and
with a number `r` of directions to be dropped, a computation succeeds exactly if `q - k ≤ r`, and
forms the sum of the first `q - r` directions. -/
theorem truncations_agree (exact : engine.DecomposesExactly)
    (sqrt_pos : ∀ x : K, 0 < x → 0 < Elementary.sqrt x)
    (halgorithm : c.options.algorithm = .denseSvd) (hlimit : 0 < c.options.minReciprocalCondition)
    (hJ : (problem.jacobian engine.schedule (ColumnBounds.make problem true) c.options.applyLoss
      c.options.threads).answer = .ok J)
    (hsingular : engine.singular J.dense = some s)
    (hpos : 0 < min J.pattern.numRows J.pattern.numCols) :
    let q := min J.pattern.numRows J.pattern.numCols
    let k := Truncation.passing c.options s.values
    k ≤ q ∧ (∀ i, i < k → 0 < s.value i) ∧
      ∀ request plan, planOf problem request = .ok plan →
        let after (rank : Int) := compute engine (c.dropping rank) problem request
        (after (-1)).answer = .ok true ∧
        (after (q - k : Nat)).answer = .ok true ∧
        (after (q - k : Nat)).state.estimate = (after (-1)).state.estimate ∧
        ((∃ i j, Requested request i j ∧ 0 < plan.bounds.widthAt i ∧ 0 < plan.bounds.widthAt j) →
          (after (-1)).state.estimate = .ready plan (firstDirections s J plan k) ∧
          ∀ r : Nat, (after r).answer = .ok (decide (q - k ≤ r)) ∧
            (q - k ≤ r →
              (after r).state.estimate = .ready plan (firstDirections s J plan (q - r)))) := by
  intro q k
  have d : s.Decomposes J.toMatrix := by
    rw [← J.toMatrix_dense]
    exact exact _ s hsingular
  have hq : s.values.length = q := d.length_values
  have hle : k ≤ q := hq ▸ List.countP_le_length
  have hpositive : ∀ i, i < k → 0 < s.value i := by
    intro i hi
    have hi : i < Truncation.leading c.options s.values :=
      Nat.lt_of_lt_of_eq hi (Truncation.leading_eq_passing d.decreasing).symm
    exact Truncation.pos_of_lt_leading (sqrt_pos _ hlimit) hi
  refine ⟨hle, hpositive, fun request plan hplan => ?_⟩
  intro after
  by_cases hnonzeros : plan.pattern.nonzeros = 0
  · -- nothing is requested, so nothing is computed, whatever is dropped
    have hnothing := fun rank : Int => compute_of_nonzeros_eq_zero hplan hnonzeros engine
      (c.dropping rank)
    refine ⟨(hnothing _).1, (hnothing _).1, (hnothing _).2.trans (hnothing _).2.symm, ?_⟩
    rintro ⟨i, j, hrequested, hi, hj⟩
    exact absurd hnonzeros (nonzeros_ne_zero_of_requested hplan hrequested hi hj)
  · have hcomputed := fun rank : Int => compute_eq_of_weights (c := c.dropping rank) exact
      halgorithm hplan hnonzeros hJ hsingular hpos
    have hforced : ∀ r : Nat, Truncation.weights (c.dropping r).options s.values =
        if q - r ≤ k then some (Truncation.keeping s.values (q - r)) else none := by
      intro r
      rw [← hq]
      exact Truncation.weights_of_nonneg d.decreasing (Int.natCast_nonneg r)
    have hsucceeds : ∀ r : Nat, q - k ≤ r → (after r).answer = .ok true ∧
        (after r).state.estimate = .ready plan (firstDirections s J plan (q - r)) := by
      intro r hr
      exact (hcomputed r).2 (q - r) (by omega) ((hforced r).trans (if_pos (by omega)))
    have hneg : (c.dropping (-1)).options.nullSpaceRank < 0 := Int.negSucc_lt_zero 0
    obtain ⟨hanswer, hestimate⟩ := (hcomputed (-1)).2 k (by omega)
      (Truncation.weights_of_neg d.decreasing hneg)
    obtain ⟨hanswer', hestimate'⟩ := hsucceeds (q - k) (Nat.le_refl _)
    rw [Nat.sub_sub_self hle] at hestimate'
    refine ⟨hanswer, hanswer', hestimate'.trans hestimate.symm, fun _ => ⟨hestimate, fun r => ?_⟩⟩
    by_cases hr : q - k ≤ r
    · obtain ⟨hanswer, hestimate⟩ := hsucceeds r hr
      exact ⟨by rw [hanswer, decide_eq_true hr], fun _ => hestimate⟩
    · have hfails := (hcomputed r).1 ((hforced r).trans (if_neg (by omega)))
      exact ⟨by rw [decide_eq_false hr]; exact hfails, fun h => absurd h hr⟩

/-- The residuals `8x` and `y`: of the two singular values one passes, so that nothing may be kept
besides its direction, with or without a number. -/
theorem truncations_agree_steep :
    Truncation.passing (plain .denseSvd).options [8, 1] = 1 ∧
      (compute Engine.exact ((plain .denseSvd).dropping (-1)) (oneBlock 2 #[8, 0, 0, 1])
        itself).answer = .ok true ∧
      (compute Engine.exact ((plain .denseSvd).dropping 0) (oneBlock 2 #[8, 0, 0, 1])
        itself).answer = .ok false ∧
      (compute Engine.exact ((plain .denseSvd).dropping 1) (oneBlock 2 #[8, 0, 0, 1])
        itself).state.estimate =
      (compute Engine.exact ((plain .denseSvd).dropping (-1)) (oneBlock 2 #[8, 0, 0, 1])
        itself).state.estimate := by
  have hpassing : Truncation.passing (plain .denseSvd).options [8, 1] = 1 := by decide +kernel
  have hJ : ((oneBlock 2 #[8, 0, 0, 1]).jacobian .inOrder
      (ColumnBounds.make (oneBlock 2 #[8, 0, 0, 1]) true) false 1).answer =
        .ok ⟨Pattern.ofRows 2 [[0, 1], [0, 1]], #[8, 0, 0, 1]⟩ := by cbv
  have hsingular : (Engine.exact : Engine ℚ).singular
      (Compressed.mk (Pattern.ofRows 2 [[0, 1], [0, 1]]) #[8, 0, 0, 1]).dense =
        some ⟨[8, 1], Dense.ofRows 2 [[1, 0], [0, 1]]⟩ := by cbv
  obtain ⟨-, -, hagree⟩ := truncations_agree (c := plain .denseSvd)
    Engine.decomposesExactly_exact (fun _ => sqrt_pos_rat) rfl (by decide +kernel) hJ hsingular
    (by decide)
  obtain ⟨hautomatic, -, hsame, hforced⟩ := hagree itself oneBlockPlan (planOf_oneBlock _ _)
  obtain ⟨-, hforced⟩ := hforced
    ⟨0, 0, ⟨[(0, 0)], by cbv, Or.inl List.mem_cons_self⟩, by decide, by decide⟩
  have hfails := (hforced 0).1
  simp only [hpassing] at hsame hfails
  exact ⟨hpassing, hautomatic, hfails, hsame⟩

end Covariance

end LeastSquares
