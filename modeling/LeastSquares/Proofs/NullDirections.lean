/-
LeastSquares.Proofs.NullDirections — which singular values the truncated sum divides by.

The sum over the singular directions forms the reciprocals of squared singular values one after the
other and looks at each of them first: it stops where the ratio to the largest one is below the root
of the threshold (`Truncation.divisors`, `Truncation.weights_eq_divisors`). A positive threshold
keeps every zero out, also those of a Jacobian that has nothing else, for which all ratios count as
zero. A threshold of zero keeps nothing out, because no ratio is below zero
(`leading_of_sqrt_eq_zero`); it is admitted, and a null direction is then divided by like any other
(`infinite_covariance`). So all reciprocals are those of positive numbers exactly if the threshold
is positive or no direction that may be kept is null (`null_directions`).
-/
import Mathlib.Data.List.TakeWhile
import LeastSquares.Proofs.Breakdown
import LeastSquares.Proofs.PseudoInverse

namespace LeastSquares

namespace Truncation

/-! ## The numbers that are divided by -/

variable {K : Type} [Field K] [LinearOrder K] [Elementary K] {options : Options K}
  {values weights : List K}

/-- The divisors are the first values, up to the number that may be kept and before the first that
does not pass. -/
theorem divisors_pos_iff_value {most : Nat} (hmost : most ≤ values.length) :
    (∀ x ∈ divisors (Elementary.sqrt options.minReciprocalCondition) (values.headD 0)
      (values.take most), 0 < x) ↔
      ∀ k, k < min most (leading options values) → 0 < values.getD k 0 := by
  rw [divisors_take]
  simp only [List.mem_take_iff_getElem, forall_exists_index]
  constructor
  · intro h k hk
    have hlt : k < values.length := by omega
    rw [List.getD_eq_getElem values 0 hlt]
    exact h _ k (by omega) rfl
  · rintro h _ k hk rfl
    have hlt : k < values.length := by omega
    have hpos := h k (by omega)
    rwa [List.getD_eq_getElem values 0 hlt] at hpos

/-- Automatic truncation always finds weights. -/
theorem rank_nonneg_of_weights_eq_none (h : Truncation.weights options values = none) :
    0 ≤ options.nullSpaceRank := by
  rw [weights_eq] at h
  split at h
  · cases h
  · rename_i hfails
    exact not_lt.mp fun hrank => hfails (Or.inl hrank)

/-- Where all divisors are positive, a direction with a weight has a positive singular value. -/
theorem weights_of_pos
    (hpos : ∀ k, k < min (maxRank values.length options.nullSpaceRank) (leading options values) →
      0 < values.getD k 0) (h : Truncation.weights options values = some weights) (k : Nat) :
    weights.getD k 0 = 0 ∨
      0 < values.getD k 0 ∧ weights.getD k 0 = 1 / (values.getD k 0 * values.getD k 0) := by
  have hle := leading_le options values
  rw [weights_eq] at h
  split at h
  · obtain rfl := Option.some.inj h
    rcases Nat.lt_or_ge k (min (maxRank values.length options.nullSpaceRank)
      (leading options values)) with hk | hk
    · exact Or.inr ⟨hpos k hk, getD_keeping_of_lt hk (by omega)⟩
    · exact Or.inl (getD_keeping_of_le values hk)
  · cases h

/-- Where all divisors are positive and a fixed number of directions is dropped, a null one among
the others leaves no weights. -/
theorem weights_of_null
    (hpos : ∀ k, k < min (maxRank values.length options.nullSpaceRank) (leading options values) →
      0 < values.getD k 0) (hrank : 0 ≤ options.nullSpaceRank) {k : Nat}
    (hk : k < maxRank values.length options.nullSpaceRank) (hnull : values.getD k 0 = 0) :
    Truncation.weights options values = none := by
  rw [weights_eq]
  refine if_neg fun hkeeps => ?_
  have hkeeps := hkeeps.resolve_left (not_lt.mpr hrank)
  exact absurd hnull (ne_of_gt (hpos k (by omega)))

variable [IsStrictOrderedRing K]

/-- A threshold without a root lets everything pass. -/
theorem leading_of_sqrt_eq_zero (hnonneg : ∀ x ∈ values, 0 ≤ x)
    (hzero : Elementary.sqrt options.minReciprocalCondition = 0) :
    leading options values = values.length := by
  have hall : ∀ x ∈ values, passes (Elementary.sqrt options.minReciprocalCondition)
      (values.headD 0) x = true := by
    intro x hx
    refine decide_eq_true ?_
    rw [hzero]
    unfold ratio
    split
    · rename_i htop
      exact div_nonneg (hnonneg x hx) (le_of_lt htop)
    · exact le_refl 0
  rw [leading, List.takeWhile_eq_self_iff.mpr hall]

/-- All divisors are positive exactly if the threshold is, or no direction that may be kept is
null. -/
theorem divisors_pos_iff {most : Nat} (hmost : most ≤ values.length)
    (hnonneg : ∀ x ∈ values, 0 ≤ x) (sqrt_pos : ∀ x : K, 0 < x → 0 < Elementary.sqrt x)
    (sqrt_zero : Elementary.sqrt (0 : K) = 0) (hthreshold : 0 ≤ options.minReciprocalCondition) :
    (∀ x ∈ divisors (Elementary.sqrt options.minReciprocalCondition) (values.headD 0)
      (values.take most), 0 < x) ↔
      0 < options.minReciprocalCondition ∨ ∀ k, k < most → 0 < values.getD k 0 := by
  rw [divisors_pos_iff_value hmost]
  rcases hthreshold.lt_or_eq with hpos | hzero
  · refine iff_of_true (fun k hk => ?_) (Or.inl hpos)
    exact pos_of_lt_leading (sqrt_pos _ hpos) (by omega)
  · have hall : leading options values = values.length :=
      leading_of_sqrt_eq_zero hnonneg (by rw [← hzero, sqrt_zero])
    rw [hall, Nat.min_eq_left hmost, ← hzero]
    simp

end Truncation

/-- Every threshold that is not negative is accepted, also the lowest. -/
theorem Options.make_denseSvd {α : Type} [Zero α] [LT α] [DecidableLT α] {threshold : α}
    (h : ¬ threshold < 0) :
    Options.make "dense_svd" "scipy" threshold 0 1 false =
      .ok ⟨.denseSvd, .elimination, threshold, 0, 1, false⟩ := by
  simp only [Options.make, Algorithm.ofName?, Library.ofName?]
  rw [if_neg (by decide), if_neg (by decide), if_neg h]

/-- Options that are accepted have a threshold that is not negative. -/
theorem Options.threshold_nonneg {α : Type} [Zero α] [LinearOrder α] {algorithm library : String}
    {threshold : α} {rank threads : Int} {applyLoss : Bool} {options : Options α}
    (h : Options.make algorithm library threshold rank threads applyLoss = .ok options) :
    0 ≤ options.minReciprocalCondition := by
  unfold Options.make at h
  split at h
  · cases h
  · cases h
  · split at h
    · cases h
    split at h
    · cases h
    split at h
    · cases h
    · rename_i hthreshold
      cases h
      exact not_lt.mp hthreshold

/-! ## Computations -/

namespace Covariance

variable {K : Type} [Field K] [LinearOrder K] [IsStrictOrderedRing K] [Elementary K]
  {engine : Engine K} {options : Options K} {J : Compressed K} {s : Singular K}

/-- **Null directions.** With exact decompositions and any options that are accepted, the weights of
a Jacobian are the reciprocals of the squared divisors, with zeros behind them, or there are none
because a direction that may not be dropped failed its test. All the divisors are positive exactly
if the threshold is, or if no direction that may be kept is null. Where they are, a computation
either fails or leaves a sum in which every direction with a weight has a positive singular value;
and it fails if a null direction would have to be kept. -/
theorem null_directions (exact : engine.DecomposesExactly)
    (sqrt_pos : ∀ x : K, 0 < x → 0 < Elementary.sqrt x) (sqrt_zero : Elementary.sqrt (0 : K) = 0)
    {algorithm library : String} {threshold : K} {rank threads : Int} {applyLoss : Bool}
    (hmake : Options.make algorithm library threshold rank threads applyLoss = .ok options)
    (hsingular : engine.singular J.dense = some s) :
    let most := Truncation.maxRank s.values.length options.nullSpaceRank
    let divided := Truncation.divisors (Elementary.sqrt options.minReciprocalCondition)
      (s.values.headD 0) (s.values.take most)
    (Truncation.weights options s.values =
      if options.nullSpaceRank < 0 ∨ divided.length = most then
        some (divided.map (fun x => 1 / (x * x)) ++
          List.replicate (s.values.length - divided.length) 0)
      else none) ∧
    ((∀ x ∈ divided, 0 < x) ↔
      0 < options.minReciprocalCondition ∨ ∀ k, k < most → 0 < s.value k) ∧
    ((∀ x ∈ divided, 0 < x) → options.algorithm = .denseSvd → J.pattern.numRows ≠ 0 →
      J.pattern.numCols ≠ 0 →
      ∀ (c : Covariance K) (problem : Problem K) (request : List Item) (plan : Plan),
        c.options = options → Prepared engine options problem request plan J →
        let outcome := compute engine c problem request
        (outcome.answer = .ok false ∧ 0 ≤ options.nullSpaceRank ∨ outcome.answer = .ok true ∧
          ∃ weights, Truncation.weights options s.values = some weights ∧
            outcome.state.estimate = .ready plan (Truncation.gather
              (entryAt (s.weighted (min J.pattern.numRows J.pattern.numCols) J.pattern.numCols
                fun k => weights.getD k 0)) plan.pattern) ∧
            ∀ k, weights.getD k 0 = 0 ∨
              0 < s.value k ∧ weights.getD k 0 = 1 / (s.value k * s.value k)) ∧
        (0 ≤ options.nullSpaceRank → (∃ k, k < most ∧ s.value k = 0) →
          outcome.answer = .ok false)) := by
  intro most divided
  have d : s.Decomposes J.toMatrix := exact.decomposes hsingular
  have hmost : most ≤ s.values.length := Truncation.maxRank_le _ _
  refine ⟨Truncation.weights_eq_divisors options s.values, ?_, ?_⟩
  · exact Truncation.divisors_pos_iff hmost d.nonneg sqrt_pos sqrt_zero
      (Options.threshold_nonneg hmake)
  · rintro hdivided halgorithm hrows hcols c problem request plan rfl prepared
    intro outcome
    have hpos := (Truncation.divisors_pos_iff_value hmost).mp hdivided
    obtain ⟨r, hp, -, -⟩ := prepared.shapes
    obtain ⟨hanswer, hstate⟩ := prepared.compute_eq
    rw [answer_svd r hp halgorithm hrows hcols hsingular d] at hanswer hstate
    refine ⟨?_, ?_⟩
    · cases hweights : Truncation.weights c.options s.values with
      | none =>
        rw [hweights] at hanswer
        exact Or.inl ⟨hanswer, Truncation.rank_nonneg_of_weights_eq_none hweights⟩
      | some weights =>
        rw [hweights] at hanswer hstate
        refine Or.inr ⟨hanswer, weights, rfl, congrArg Covariance.estimate hstate, ?_⟩
        exact Truncation.weights_of_pos hpos hweights
    · rintro hrank ⟨k, hk, hnull⟩
      rw [Truncation.weights_of_null hpos hrank hk hnull] at hanswer
      exact hanswer

/-- The residuals `8x` and nothing have a null direction. With a positive threshold it is not
divided by, and the computation that drops nothing fails. -/
theorem null_directions_flat :
    (Options.make "dense_svd" "scipy" (1 / 16 : ℚ) 0 1 false = .ok (plain .denseSvd).options) ∧
      (∀ x ∈ Truncation.divisors (Elementary.sqrt (1 / 16 : ℚ)) 8 [8, 0], 0 < x) ∧
      (compute Engine.exact (plain .denseSvd) (oneBlock 2 #[8, 0, 0, 0]) itself).answer =
        .ok false := by
  have hmake : Options.make "dense_svd" "scipy" (1 / 16 : ℚ) 0 1 false =
      .ok (plain .denseSvd).options := Options.make_denseSvd (by decide +kernel)
  have hsingular : (Engine.exact : Engine ℚ).singular flatJacobian.dense =
      some ⟨[8, 0], Dense.ofRows 2 [[1, 0], [0, 1]]⟩ := by cbv
  have prepared : Prepared Engine.exact (plain .denseSvd).options (oneBlock 2 #[8, 0, 0, 0]) itself
      oneBlockPlan flatJacobian := prepared_oneBlock .denseSvd (by cbv)
  obtain ⟨-, hpositive, hcomputes⟩ := null_directions Engine.decomposesExactly_exact
    (fun _ => sqrt_pos_rat) (by decide +kernel) hmake hsingular
  have hdivided := hpositive.mpr (Or.inl (by decide +kernel))
  obtain ⟨-, hfails⟩ := hcomputes hdivided rfl (by decide) (by decide) (plain .denseSvd) _ _ _ rfl
    prepared
  exact ⟨hmake, hdivided, hfails (Int.le_refl 0) ⟨1, by decide, by decide⟩⟩

/-- One residual that does not depend on the one parameter. -/
def noDerivative : Compressed Float := ⟨Pattern.ofRows 1 [[0]], #[0]⟩

/-- The options that have a threshold of zero and drop no direction. -/
def unguarded : Options Float := ⟨.denseSvd, .elimination, 0, 0, 1, false⟩

/-- The residual without derivative is prepared for every algorithm and threshold. -/
theorem prepared_oneNumber (algorithm : Algorithm) (threshold : Float) :
    Prepared Engine.native ⟨algorithm, .elimination, threshold, 0, 1, false⟩ (oneNumber 0) itself
      oneNumberPlan noDerivative where
  planned := planOf_oneNumber 0
  free := by
    refine ⟨0, 0, ⟨[(0, 0)], by cbv, Or.inl List.mem_cons_self⟩, ?_, ?_⟩ <;> decide
  jacobian := by
    unfold noDerivative
    generalize (0 : Float) = x
    cbv

theorem pattern_oneNumberPlan : oneNumberPlan.pattern = noDerivative.pattern := by
  unfold noDerivative
  cbv

/-- One over the square of a null singular value is formed, and is not finite. -/
theorem estimate_unguarded :
    ∃ x, (estimateValues Engine.native unguarded noDerivative oneNumberPlan.pattern).answer =
      .ok (some #[x]) ∧ isFinite x = false := by
  have hfinite : (estimateValues Engine.native unguarded noDerivative
      noDerivative.pattern).answer.toOption.join.map (fun values => values.toList.map isFinite) =
        some [false] := by decide +kernel
  rw [pattern_oneNumberPlan]
  cases hanswer : (estimateValues Engine.native unguarded noDerivative
      noDerivative.pattern).answer with
  | error e => simp [hanswer, Except.toOption] at hfinite
  | ok found =>
    rw [hanswer] at hfinite
    obtain ⟨values, rfl, hvalues⟩ := Option.map_eq_some_iff.mp hfinite
    obtain ⟨x, hx, hinfinite⟩ := List.map_eq_singleton_iff.mp hvalues
    exact ⟨x, by rw [← hx], hinfinite⟩

/-- Elimination finds the pivot of zero, and no values. -/
theorem estimate_unguarded_sparseQr :
    (estimateValues Engine.native { unguarded with algorithm := .sparseQr } noDerivative
      oneNumberPlan.pattern).answer = .ok none := by
  have hfound : (estimateValues Engine.native { unguarded with algorithm := .sparseQr } noDerivative
      noDerivative.pattern).answer.toOption.map Option.isSome = some false := by decide +kernel
  rw [pattern_oneNumberPlan]
  cases hanswer : (estimateValues Engine.native { unguarded with algorithm := .sparseQr }
      noDerivative noDerivative.pattern).answer with
  | error e => simp [hanswer, Except.toOption] at hfound
  | ok found =>
    rw [hanswer] at hfound
    simpa [Except.toOption] using hfound

/-- The one singular value of a derivative of zero is zero, and it is divided by. The options are
accepted, the computation succeeds, and the value that it leaves is not finite; elimination notices
the null direction with the same threshold. -/
theorem infinite_covariance :
    Options.make "dense_svd" "scipy" (0 : Float) 0 1 false = .ok unguarded ∧
      (Engine.native.singular noDerivative.dense).map
        (fun s => Truncation.divisors (Elementary.sqrt unguarded.minReciprocalCondition)
          (s.values.headD 0) s.values |>.map (· == 0)) = some [true] ∧
      (compute Engine.native (.ofOptions unguarded) (oneNumber 0) itself).answer = .ok true ∧
      (∃ x, (compute Engine.native (.ofOptions unguarded) (oneNumber 0) itself).state.estimate =
        .ready oneNumberPlan #[x] ∧ isFinite x = false) ∧
      (compute Engine.native (.ofOptions { unguarded with algorithm := .sparseQr }) (oneNumber 0)
        itself).answer = .ok false := by
  obtain ⟨x, hsvd, hinfinite⟩ := estimate_unguarded
  obtain ⟨hanswer, hstate⟩ := (prepared_oneNumber .denseSvd 0).compute_eq
    (c := .ofOptions unguarded)
  have hfails := ((prepared_oneNumber .sparseQr 0).compute_eq
    (c := .ofOptions { unguarded with algorithm := .sparseQr })).1
  refine ⟨Options.make_denseSvd (by decide +kernel), by decide +kernel, ?_, ⟨x, ?_, hinfinite⟩, ?_⟩
  · exact hanswer.trans (congrArg (Except.map Option.isSome) hsvd)
  · rw [hstate]
    exact congrArg (Estimate.ofFilled oneNumberPlan) hsvd
  · exact hfails.trans (congrArg (Except.map Option.isSome) estimate_unguarded_sparseQr)

end Covariance

end LeastSquares
