/-
LeastSquares.Proofs.Curvature — corrected Jacobians have the curvature of the robust cost.

Over the real numbers roots are exact, and two matrices that are bent along one residual can be
multiplied out: their product is that of the given ones and a multiple of the product of their
column sums (`get_transpose_mul_bend`). The multiple is `alpha ^ 2 * s - 2 * alpha`, and with the
`alpha` of the correction it is `2 * curvature / slope`: the second root is taken of a number above
one, and its square puts the curvature back. What a pair of Jacobians should have between them is
`slope * I + 2 * curvature * r r'` (`robustWeight`), also where the two belong to different blocks.
-/
import Mathlib.Analysis.SpecialFunctions.Complex.Arg
import Mathlib.Analysis.SpecialFunctions.Log.Basic
import LeastSquares.Loss.Correction
import LeastSquares.Proofs.Normal

namespace LeastSquares

/-! ## Real numbers -/

/-- On the real numbers every function is exact; the least weight is the smallest one that binary
numbers of sixty-four bits hold in full precision. -/
noncomputable instance elementaryReal : Elementary ℝ where
  sqrt := Real.sqrt
  sin := Real.sin
  cos := Real.cos
  exp := Real.exp
  log := Real.log
  log1p x := Real.log (1 + x)
  tanh := Real.tanh
  atan2 y x := Complex.arg ⟨x, y⟩
  pi := Real.pi
  smallestNormal := 2 ^ (-1022 : ℤ)
  flush := id

@[simp] theorem sqrt_real (x : ℝ) : Elementary.sqrt x = Real.sqrt x := rfl

theorem Dense.dot_self_eq_sum {R : Type} [NonUnitalNonAssocSemiring R] (r : Array R) :
    Dense.dot r r = ∑ u ∈ Finset.range r.size, r.getD u 0 * r.getD u 0 :=
  sumTo_eq_sum _ _

theorem Dense.dot_self_nonneg (r : Array ℝ) : 0 ≤ Dense.dot r r := by
  rw [dot_self_eq_sum]
  exact Finset.sum_nonneg fun u _ => mul_self_nonneg _

theorem Dense.get_transpose_mul {R : Type} [NonUnitalNonAssocSemiring R] (A B : Dense R) {i j : Nat}
    (hi : i < A.cols) (hj : j < B.cols) :
    (A.transpose.mul B).get i j = ∑ u ∈ Finset.range A.rows, A.get u i * B.get u j := by
  rw [get_mul A.transpose B hi hj, sumTo_eq_sum]
  simp

namespace Loss

/-! ## Bent matrices -/

section Bending

variable {K : Type} [Field K]

theorem pull_eq_sum (r : Array K) (J : Dense K) (j : Nat) :
    pull r J j = ∑ u ∈ Finset.range r.size, r.getD u 0 * J.get u j := sumTo_eq_sum _ _

@[simp] theorem rows_bend (factor alpha : K) (r : Array K) (J : Dense K) :
    (bend factor alpha r J).rows = J.rows := rfl

@[simp] theorem cols_bend (factor alpha : K) (r : Array K) (J : Dense K) :
    (bend factor alpha r J).cols = J.cols := rfl

theorem get_bend (factor alpha : K) (r : Array K) (J : Dense K) {u j : Nat} (hu : u < J.rows)
    (hj : j < J.cols) :
    (bend factor alpha r J).get u j =
      factor * (J.get u j - alpha * (r.getD u 0 * pull r J j)) := by
  rw [bend, Dense.get_ofFn_of_lt _ hu hj]
  simp [Array.getD_eq_getD_getElem?, hj]

/-- Two matrices that are bent along one residual have the product of the given ones and a multiple
of the product of their column sums. -/
theorem get_transpose_mul_bend (factor alpha : K) {r : Array K} {A B : Dense K}
    (hA : A.rows = r.size) (hB : B.rows = r.size) {i j : Nat} (hi : i < A.cols) (hj : j < B.cols) :
    ((bend factor alpha r A).transpose.mul (bend factor alpha r B)).get i j =
      factor * factor * (∑ u ∈ Finset.range r.size, A.get u i * B.get u j +
        (alpha * alpha * Dense.dot r r - 2 * alpha) * (pull r A i * pull r B j)) := by
  have hentry : ∀ u ∈ Finset.range r.size,
      (bend factor alpha r A).get u i * (bend factor alpha r B).get u j =
        factor * factor * (A.get u i * B.get u j) +
          factor * factor * alpha * alpha * (pull r A i * pull r B j) *
            (r.getD u 0 * r.getD u 0) -
          factor * factor * alpha * pull r B j * (r.getD u 0 * A.get u i) -
          factor * factor * alpha * pull r A i * (r.getD u 0 * B.get u j) := by
    intro u hu
    have hu : u < r.size := Finset.mem_range.mp hu
    rw [get_bend factor alpha r A (by omega) hi, get_bend factor alpha r B (by omega) hj]
    ring
  rw [Dense.get_transpose_mul _ _ (by simpa) (by simpa), rows_bend, hA,
    Finset.sum_congr rfl hentry, Finset.sum_sub_distrib, Finset.sum_sub_distrib,
    Finset.sum_add_distrib]
  simp only [← Finset.mul_sum, ← Dense.dot_self_eq_sum, ← pull_eq_sum]
  ring

/-- Two matrices that are scaled by one number have its square times the product. -/
theorem transpose_mul_scale (factor : K) {A B : Dense K} (hrows : A.rows = B.rows) :
    (Dense.scale factor A).transpose.mul (Dense.scale factor B) =
      Dense.scale (factor * factor) (A.transpose.mul B) := by
  refine Dense.ext_get rfl rfl fun i j hi hj => ?_
  have hi : i < A.cols := hi
  have hj : j < B.cols := hj
  have hentry : ∀ u ∈ Finset.range A.rows,
      (Dense.scale factor A).get u i * (Dense.scale factor B).get u j =
        factor * factor * (A.get u i * B.get u j) := by
    intro u hu
    have hu : u < A.rows := Finset.mem_range.mp hu
    rw [Dense.get_scale factor A hu hi, Dense.get_scale factor B (by omega) hj]
    ring
  have hsum := Dense.get_transpose_mul (Dense.scale factor A) (Dense.scale factor B) hi hj
  have hscaled := Dense.get_scale (factor * factor) (A.transpose.mul B) hi hj
  rw [hsum, hscaled, Dense.get_transpose_mul A B hi hj, Finset.mul_sum]
  exact Finset.sum_congr rfl hentry

/-- The curvature of a robust cost in the residuals: `slope * I + 2 * curvature * r r'`. -/
def robustWeight (value : LossValue K) (r : Array K) : Dense K :=
  Dense.ofFn r.size r.size fun u v =>
    (if u = v then value.slope else 0) + 2 * value.curvature * (r.getD u 0 * r.getD v 0)

theorem get_robustWeight_mul (value : LossValue K) (r : Array K) (B : Dense K) {u j : Nat}
    (hu : u < r.size) (hj : j < B.cols) :
    ((robustWeight value r).mul B).get u j =
      value.slope * B.get u j + 2 * value.curvature * r.getD u 0 * pull r B j := by
  have hentry : ∀ v ∈ Finset.range r.size, (robustWeight value r).get u v * B.get v j =
      (if u = v then value.slope * B.get v j else 0) +
        2 * value.curvature * r.getD u 0 * (r.getD v 0 * B.get v j) := by
    intro v hv
    rw [robustWeight, Dense.get_ofFn_of_lt _ hu (Finset.mem_range.mp hv), add_mul, ite_mul,
      zero_mul]
    ring
  have hcols : (robustWeight value r).cols = r.size := rfl
  rw [Dense.get_mul (robustWeight value r) B hu hj, sumTo_eq_sum, hcols,
    Finset.sum_congr rfl hentry, Finset.sum_add_distrib, Finset.sum_ite_eq,
    if_pos (Finset.mem_range.mpr hu), ← Finset.mul_sum, ← pull_eq_sum]

/-- What two matrices have between them under the curvature of a robust cost. -/
theorem get_transpose_mul_robustWeight (value : LossValue K) {r : Array K} {A : Dense K}
    (hA : A.rows = r.size) (B : Dense K) {i j : Nat} (hi : i < A.cols) (hj : j < B.cols) :
    (A.transpose.mul ((robustWeight value r).mul B)).get i j =
      value.slope * ∑ u ∈ Finset.range r.size, A.get u i * B.get u j +
        2 * value.curvature * (pull r A i * pull r B j) := by
  have hentry : ∀ u ∈ Finset.range r.size, A.get u i * ((robustWeight value r).mul B).get u j =
      value.slope * (A.get u i * B.get u j) +
        2 * value.curvature * pull r B j * (r.getD u 0 * A.get u i) := by
    intro u hu
    rw [get_robustWeight_mul value r B (Finset.mem_range.mp hu) hj]
    ring
  have hcols : j < ((robustWeight value r).mul B).cols := hj
  rw [Dense.get_transpose_mul _ _ hi hcols, hA, Finset.sum_congr rfl hentry,
    Finset.sum_add_distrib, ← Finset.mul_sum, ← Finset.mul_sum, ← pull_eq_sum]
  ring

end Bending

/-! ## The two branches of the correction -/

section Branches

variable {loss : Loss ℝ} {r : Array ℝ} {value : LossValue ℝ}

/-- What the second root of the correction is taken of, at a squared norm. -/
noncomputable def discriminant (s : ℝ) (value : LossValue ℝ) : ℝ :=
  1 + 2 * s * value.curvature / value.slope

/-- How far the correction bends Jacobians along the residual, at a squared norm. -/
noncomputable def bendAt (s : ℝ) (value : LossValue ℝ) : ℝ :=
  (1 - Real.sqrt (discriminant s value)) / s

/-- The correction with a division of one's own. -/
noncomputable def correctDividing (divide : ℝ → ℝ → ℝ) (loss : Loss ℝ) (r : Array ℝ)
    (Js : List (Dense ℝ)) : Except Fault (List (Dense ℝ)) :=
  letI : Div ℝ := ⟨divide⟩
  loss.correct r Js

/-- At a zero residual, or without positive curvature, Jacobians are scaled, and nothing is
divided. -/
theorem correctDividing_of_flat (hvalue : loss.evaluate (Dense.dot r r) = .ok value)
    (hflat : Dense.dot r r = 0 ∨ value.curvature ≤ 0) (divide : ℝ → ℝ → ℝ)
    (Js : List (Dense ℝ)) :
    loss.correctDividing divide r Js = .ok (Js.map (Dense.scale (Real.sqrt value.slope))) := by
  have hbranch : (Dense.dot r r == 0 || decide (value.curvature ≤ 0)) = true := by simpa using hflat
  simp only [correctDividing, correct, hvalue]
  rw [if_pos hbranch, sqrt_real]

theorem correct_of_flat (hvalue : loss.evaluate (Dense.dot r r) = .ok value)
    (hflat : Dense.dot r r = 0 ∨ value.curvature ≤ 0) (Js : List (Dense ℝ)) :
    loss.correct r Js = .ok (Js.map (Dense.scale (Real.sqrt value.slope))) :=
  correctDividing_of_flat hvalue hflat (· / ·) Js

/-- Elsewhere they are bent. -/
theorem correct_of_curved (hvalue : loss.evaluate (Dense.dot r r) = .ok value)
    (hslope : 0 < value.slope) (hs : 0 < Dense.dot r r) (hcurved : 0 < value.curvature)
    {Js : List (Dense ℝ)} (hrows : ∀ J ∈ Js, J.rows = r.size) :
    loss.correct r Js =
      .ok (Js.map (bend (Real.sqrt value.slope) (bendAt (Dense.dot r r) value) r)) := by
  have hbranch : ¬ (Dense.dot r r == 0 || decide (value.curvature ≤ 0)) = true := by
    simpa using ⟨hs.ne', hcurved⟩
  have hdivides : ¬ (value.slope == 0) = true := by simpa using hslope.ne'
  have hall : (Js.all fun J => decide (J.rows = r.size)) = true := by simpa using hrows
  simp only [correct, hvalue]
  rw [if_neg hbranch, if_neg hdivides, if_pos hall]
  simp [bendAt, discriminant]

theorem one_lt_discriminant {s : ℝ} (hs : 0 < s) (hslope : 0 < value.slope)
    (hcurved : 0 < value.curvature) : 1 < discriminant s value := by
  have hadded : 0 < 2 * s * value.curvature / value.slope := by positivity
  rw [discriminant]
  linarith

/-- The square of the second root puts the curvature back. -/
theorem bendAt_spec {s : ℝ} (hs : 0 < s) (hslope : 0 < value.slope)
    (hcurved : 0 < value.curvature) :
    value.slope * (bendAt s value * bendAt s value * s - 2 * bendAt s value) =
      2 * value.curvature := by
  have hpos : 0 ≤ discriminant s value :=
    zero_le_one.trans (one_lt_discriminant hs hslope hcurved).le
  calc value.slope * (bendAt s value * bendAt s value * s - 2 * bendAt s value)
      = value.slope * ((Real.sqrt (discriminant s value) * Real.sqrt (discriminant s value) - 1)
          / s) := by
        rw [bendAt]
        field_simp
        ring
    _ = value.slope * ((discriminant s value - 1) / s) := by rw [Real.mul_self_sqrt hpos]
    _ = 2 * value.curvature := by
        rw [discriminant]
        field_simp
        ring

/-- Two matrices that the correction bends have the product of the given ones under the curvature of
the robust cost. -/
theorem transpose_mul_bendAt (hslope : 0 < value.slope) (hs : 0 < Dense.dot r r)
    (hcurved : 0 < value.curvature) {A B : Dense ℝ} (hA : A.rows = r.size)
    (hB : B.rows = r.size) :
    (bend (Real.sqrt value.slope) (bendAt (Dense.dot r r) value) r A).transpose.mul
        (bend (Real.sqrt value.slope) (bendAt (Dense.dot r r) value) r B) =
      A.transpose.mul ((robustWeight value r).mul B) := by
  refine Dense.ext_get (by simp) (by simp) fun i j hi hj => ?_
  have hi : i < A.cols := by simpa using hi
  have hj : j < B.cols := by simpa using hj
  rw [get_transpose_mul_bend _ _ hA hB hi hj, get_transpose_mul_robustWeight value hA B hi hj,
    Real.mul_self_sqrt hslope.le, mul_add, ← mul_assoc, bendAt_spec hs hslope hcurved]

end Branches

/-! ## The curvature of the corrected Jacobians -/

/-- A pair of members of a list and of its image is a member and its image. -/
theorem eq_of_mem_zip_map {β γ : Type} {f : β → γ} {xs : List β} {e : β × γ}
    (h : e ∈ xs.zip (xs.map f)) : e.1 ∈ xs ∧ e.2 = f e.1 := by
  rw [← List.map_prod_left_eq_zip, List.mem_map] at h
  obtain ⟨x, hx, rfl⟩ := h
  exact ⟨hx, rfl⟩

/-- **Corrected Jacobians have the curvature of the robust cost.** Take a loss of positive slope at
the squared norm `s` of a residual, and Jacobians with a row for each residual. They are corrected,
one by one and without a change of shape. Where `s` and the curvature are positive, both roots are
taken of positive numbers, and every pair of corrected Jacobians, of the same block or of two, has
the product of the given pair under `slope * I + 2 * curvature * r r'`. Otherwise it is `slope`
times the product of the given pair. -/
theorem transpose_mul_of_correct {loss : Loss ℝ} {r : Array ℝ} {value : LossValue ℝ}
    (hvalue : loss.evaluate (Dense.dot r r) = .ok value) (hslope : 0 < value.slope)
    {Js : List (Dense ℝ)} (hrows : ∀ J ∈ Js, J.rows = r.size) :
    ∃ Ks, loss.correct r Js = .ok Ks ∧
      List.Forall₂ (fun J K => K.rows = J.rows ∧ K.cols = J.cols) Js Ks ∧
      (0 < Dense.dot r r → 0 < value.curvature →
        Ks = Js.map (bend (Real.sqrt value.slope)
          ((1 - Real.sqrt (discriminant (Dense.dot r r) value)) / Dense.dot r r) r) ∧
        0 < value.slope ∧ 0 < discriminant (Dense.dot r r) value ∧
        ∀ e ∈ Js.zip Ks, ∀ e' ∈ Js.zip Ks,
          e.2.transpose.mul e'.2 = e.1.transpose.mul ((robustWeight value r).mul e'.1)) ∧
      (Dense.dot r r = 0 ∨ value.curvature ≤ 0 →
        ∀ e ∈ Js.zip Ks, ∀ e' ∈ Js.zip Ks,
          e.2.transpose.mul e'.2 = Dense.scale value.slope (e.1.transpose.mul e'.1)) := by
  by_cases hcurved : 0 < Dense.dot r r ∧ 0 < value.curvature
  · obtain ⟨hs, hcurved⟩ := hcurved
    refine ⟨_, correct_of_curved hvalue hslope hs hcurved hrows, ?_, ?_, ?_⟩
    · exact List.forall₂_map_right_iff.mpr (List.forall₂_same.mpr fun J _ => ⟨rfl, rfl⟩)
    · intro _ _
      have hone := one_lt_discriminant hs hslope hcurved
      refine ⟨rfl, hslope, zero_lt_one.trans hone, fun e he e' he' => ?_⟩
      obtain ⟨hmem, heq⟩ := eq_of_mem_zip_map he
      obtain ⟨hmem', heq'⟩ := eq_of_mem_zip_map he'
      rw [heq, heq']
      exact transpose_mul_bendAt hslope hs hcurved (hrows _ hmem) (hrows _ hmem')
    · rintro (hzero | hflat)
      · exact absurd hzero hs.ne'
      · exact absurd hcurved hflat.not_gt
  · have hflat : Dense.dot r r = 0 ∨ value.curvature ≤ 0 := by
      rcases (Dense.dot_self_nonneg r).eq_or_lt with hzero | hs
      · exact Or.inl hzero.symm
      · exact Or.inr (not_lt.mp fun h => hcurved ⟨hs, h⟩)
    refine ⟨_, correct_of_flat hvalue hflat Js, ?_, ?_, ?_⟩
    · exact List.forall₂_map_right_iff.mpr (List.forall₂_same.mpr fun J _ => ⟨rfl, rfl⟩)
    · intro hs hpos
      exact absurd ⟨hs, hpos⟩ hcurved
    · intro _ e he e' he'
      obtain ⟨hmem, heq⟩ := eq_of_mem_zip_map he
      obtain ⟨hmem', heq'⟩ := eq_of_mem_zip_map he'
      have hsame : e.1.rows = e'.1.rows := (hrows _ hmem).trans (hrows _ hmem').symm
      rw [heq, heq', transpose_mul_scale _ hsame, Real.mul_self_sqrt hslope.le]

/-- A column of two numbers with its one in row `k`. -/
def unitOfTwo (k : Nat) : Dense ℝ := Dense.ofFn 2 1 fun u _ => if u = k then 1 else 0

/-- With the loss `s + s ^ 2 / 2` at the residual `1`, `2`, two blocks whose Jacobians have no
product get the product of the two residuals, twice. -/
theorem transpose_mul_of_correct_quadratic :
    0 < 1 + (1 : ℝ) * Dense.dot #[1, 2] #[1, 2] ∧
      ∃ K K' : Dense ℝ,
        (quadratic 1).correct #[1, 2] [unitOfTwo 0, unitOfTwo 1] = .ok [K, K'] ∧
        (K.transpose.mul K').get 0 0 = 4 := by
  have hdot : Dense.dot #[1, 2] #[1, 2] = (5 : ℝ) := by
    norm_num [Dense.dot]
  have hslope : 0 < 1 + (1 : ℝ) * Dense.dot #[1, 2] #[1, 2] := by
    rw [hdot]
    norm_num
  obtain ⟨cost, hvalue⟩ : ∃ cost : ℝ, (quadratic 1).evaluate (Dense.dot #[1, 2] #[1, 2]) =
      .ok ⟨cost, 1 + 1 * Dense.dot #[1, 2] #[1, 2], 1⟩ := ⟨_, rfl⟩
  have hrows : ∀ J ∈ [unitOfTwo 0, unitOfTwo 1], J.rows = (#[1, 2] : Array ℝ).size := by
    simp [unitOfTwo]
  obtain ⟨Ks, hKs, -, hcurved, -⟩ := transpose_mul_of_correct hvalue hslope hrows
  obtain ⟨rfl, -, -, hproduct⟩ := hcurved (by rw [hdot]; norm_num) one_pos
  refine ⟨hslope, _, _, hKs, ?_⟩
  rw [hproduct (unitOfTwo 0, _) List.mem_cons_self (unitOfTwo 1, _)
      (List.mem_cons_of_mem _ List.mem_cons_self),
    get_transpose_mul_robustWeight _ rfl _ one_pos one_pos]
  norm_num [pull, unitOfTwo, Finset.sum_range_succ, Dense.get_ofFn_of_lt]

end Loss

end LeastSquares
