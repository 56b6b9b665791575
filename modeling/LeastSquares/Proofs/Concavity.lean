/-
LeastSquares.Proofs.Concavity — the standard losses follow least squares and bend away below it.

Two facts are read off each loss, over the real numbers. Its slope never leaves the numbers from
zero to one, never rises, and comes with a curvature that is not positive (`Downweighting`); so the
correction of a residual block only scales its Jacobians, by a weight that falls as the residual
grows (`standard_downweights`). And its value stays below its own tangents (`Concave`).

For the Huber loss the second fact is not proved piece by piece. Every weight `w` between zero and
one gives a line `w * t + a ^ 2 / w - a ^ 2` that the value stays below (`value_huber_le`),
whichever piece `t` belongs to, and the weight of the loss at `t` gives the line that touches it
(`value_huber_eq`). The tangent at a point is such a line.
-/
import Mathlib.Analysis.SpecialFunctions.Log.Deriv
import LeastSquares.Proofs.Curvature

namespace LeastSquares.Loss

/-! ## Losses on the real numbers -/

/-- What a loss answers at a squared norm; zeros where it is refused. -/
noncomputable def valueAt (loss : Loss ℝ) (s : ℝ) : LossValue ℝ :=
  match loss.evaluate s with
  | .ok value => value
  | .error _ => ⟨0, 0, 0⟩

theorem valueAt_of_evaluate {loss : Loss ℝ} {s : ℝ} {value : LossValue ℝ}
    (h : loss.evaluate s = .ok value) : loss.valueAt s = value := by
  rw [valueAt, h]

theorem smallestNormal_pos : 0 < (Elementary.smallestNormal : ℝ) :=
  zpow_pos (by norm_num) _

theorem smallestNormal_le_one : (Elementary.smallestNormal : ℝ) ≤ 1 :=
  zpow_le_one_of_nonpos₀ (by norm_num) (by norm_num)

theorem atLeastNormal_eq_max (x : ℝ) : atLeastNormal x = max x Elementary.smallestNormal := by
  unfold atLeastNormal
  split
  · rename_i h
    exact (max_eq_right h.le).symm
  · rename_i h
    exact (max_eq_left (not_lt.mp h)).symm

theorem evaluate_huber_of_le {a s : ℝ} (h : s ≤ a * a) : (huber a).evaluate s = .ok ⟨s, 1, 0⟩ := by
  have hbranch : ¬ a * a < s := not_lt.mpr h
  simp only [huber, if_neg hbranch]

theorem evaluate_huber_of_lt {a s : ℝ} (h : a * a < s) :
    (huber a).evaluate s = .ok ⟨2 * a * Real.sqrt s - a * a,
      max (a / Real.sqrt s) Elementary.smallestNormal,
      -max (a / Real.sqrt s) Elementary.smallestNormal / (2 * s)⟩ := by
  simp [huber, if_pos h, atLeastNormal_eq_max]

theorem valueAt_huber_of_le {a s : ℝ} (h : s ≤ a * a) : (huber a).valueAt s = ⟨s, 1, 0⟩ :=
  valueAt_of_evaluate (evaluate_huber_of_le h)

theorem valueAt_huber_of_lt {a s : ℝ} (h : a * a < s) :
    (huber a).valueAt s = ⟨2 * a * Real.sqrt s - a * a,
      max (a / Real.sqrt s) Elementary.smallestNormal,
      -max (a / Real.sqrt s) Elementary.smallestNormal / (2 * s)⟩ :=
  valueAt_of_evaluate (evaluate_huber_of_lt h)

theorem evaluate_huber (a s : ℝ) : (huber a).evaluate s = .ok ((huber a).valueAt s) := by
  rcases le_or_gt s (a * a) with h | h
  · rw [valueAt_huber_of_le h, evaluate_huber_of_le h]
  · rw [valueAt_huber_of_lt h, evaluate_huber_of_lt h]

theorem evaluate_cauchy {a s : ℝ} (ha : a ≠ 0) (hs : 0 ≤ s) :
    (cauchy a).evaluate s = .ok ⟨a * a * Real.log (1 + s / (a * a)), 1 / (1 + s / (a * a)),
      -(1 / (a * a)) * (1 / (1 + s / (a * a))) * (1 / (1 + s / (a * a)))⟩ := by
  have hb : 0 < a * a := mul_self_pos.mpr ha
  have hd : 0 < 1 + s / (a * a) := by positivity
  have hscaled : s * (1 / (a * a)) = s / (a * a) := mul_one_div _ _
  have hdivides : ¬ (a * a == 0) = true ∧ ¬ (1 + s / (a * a) == 0) = true := by
    simpa only [beq_iff_eq] using ⟨hb.ne', hd.ne'⟩
  simp only [cauchy, hscaled, if_neg hdivides.1, if_neg hdivides.2]
  rfl

/-! ## Slopes -/

/-- At no squared norm is a loss refused; its slope lies between zero and one and never rises, and
its curvature is not positive. -/
structure Downweighting (loss : Loss ℝ) : Prop where
  evaluate_eq : ∀ s, 0 ≤ s → loss.evaluate s = .ok (loss.valueAt s)
  slope_pos : ∀ s, 0 ≤ s → 0 < (loss.valueAt s).slope
  slope_le_one : ∀ s, 0 ≤ s → (loss.valueAt s).slope ≤ 1
  curvature_nonpos : ∀ s, 0 ≤ s → (loss.valueAt s).curvature ≤ 0
  slope_antitone : ∀ s t, 0 ≤ s → s ≤ t → (loss.valueAt t).slope ≤ (loss.valueAt s).slope

theorem downweighting_trivial : Downweighting trivial where
  evaluate_eq _ _ := rfl
  slope_pos _ _ := one_pos
  slope_le_one _ _ := le_refl _
  curvature_nonpos _ _ := le_refl _
  slope_antitone _ _ _ _ := le_refl _

/-- Beyond the threshold the weight of a positive scale is that of the norm, and any other scale
leaves the least weight; the weight never passes one. -/
theorem huber_slope_le_one {a s : ℝ} (h : a * a < s) :
    max (a / Real.sqrt s) Elementary.smallestNormal ≤ 1 := by
  have hroot : |a| < Real.sqrt s := by
    rw [← Real.sqrt_mul_self_eq_abs]
    exact Real.sqrt_lt_sqrt (mul_self_nonneg a) h
  have hpos : 0 < Real.sqrt s := (abs_nonneg a).trans_lt hroot
  refine max_le ?_ smallestNormal_le_one
  rw [div_le_one hpos]
  exact (le_abs_self a).trans hroot.le

/-- A larger norm has no larger weight: a positive scale is divided by it, and from any other scale
nothing but the least weight is left. -/
theorem huber_slope_antitone {a s t : ℝ} (hs : 0 < s) (hst : s ≤ t) :
    max (a / Real.sqrt t) Elementary.smallestNormal ≤
      max (a / Real.sqrt s) (Elementary.smallestNormal : ℝ) := by
  rcases le_total 0 a with ha | ha
  · exact max_le_max_right _
      (div_le_div_of_nonneg_left ha (Real.sqrt_pos.mpr hs) (Real.sqrt_le_sqrt hst))
  · have hnonpos : a / Real.sqrt t ≤ 0 := div_nonpos_of_nonpos_of_nonneg ha (Real.sqrt_nonneg t)
    exact max_le (hnonpos.trans (smallestNormal_pos.le.trans (le_max_right _ _)))
      (le_max_right _ _)

theorem downweighting_huber (a : ℝ) : Downweighting (huber a) where
  evaluate_eq s _ := evaluate_huber a s
  slope_pos s _ := by
    rcases le_or_gt s (a * a) with h | h
    · rw [valueAt_huber_of_le h]
      exact one_pos
    · rw [valueAt_huber_of_lt h]
      exact smallestNormal_pos.trans_le (le_max_right _ _)
  slope_le_one s _ := by
    rcases le_or_gt s (a * a) with h | h
    · rw [valueAt_huber_of_le h]
    · rw [valueAt_huber_of_lt h]
      exact huber_slope_le_one h
  curvature_nonpos s hs := by
    rcases le_or_gt s (a * a) with h | h
    · rw [valueAt_huber_of_le h]
    · have hslope : 0 < max (a / Real.sqrt s) (Elementary.smallestNormal : ℝ) :=
        smallestNormal_pos.trans_le (le_max_right _ _)
      rw [valueAt_huber_of_lt h]
      exact div_nonpos_of_nonpos_of_nonneg (neg_nonpos.mpr hslope.le) (by positivity)
  slope_antitone s t hs hst := by
    rcases le_or_gt t (a * a) with ht | ht
    · rw [valueAt_huber_of_le ht, valueAt_huber_of_le (hst.trans ht)]
    · rw [valueAt_huber_of_lt ht]
      rcases le_or_gt s (a * a) with h | h
      · rw [valueAt_huber_of_le h]
        exact huber_slope_le_one ht
      · rw [valueAt_huber_of_lt h]
        exact huber_slope_antitone ((mul_self_nonneg a).trans_lt h) hst

theorem downweighting_cauchy {a : ℝ} (ha : a ≠ 0) : Downweighting (cauchy a) := by
  have hb : 0 < a * a := mul_self_pos.mpr ha
  have hvalue := fun {s : ℝ} (hs : 0 ≤ s) => valueAt_of_evaluate (evaluate_cauchy ha hs)
  have hdivisor : ∀ {s : ℝ}, 0 ≤ s → 1 ≤ 1 + s / (a * a) := fun hs =>
    le_add_of_nonneg_right (div_nonneg hs hb.le)
  exact
    { evaluate_eq := fun s hs => by rw [hvalue hs, evaluate_cauchy ha hs]
      slope_pos := fun s hs => by
        rw [hvalue hs]
        exact one_div_pos.mpr (one_pos.trans_le (hdivisor hs))
      slope_le_one := fun s hs => by
        rw [hvalue hs]
        exact div_le_one_of_le₀ (hdivisor hs) (zero_le_one.trans (hdivisor hs))
      curvature_nonpos := fun s hs => by
        have hd := one_pos.trans_le (hdivisor hs)
        have hrate : 0 ≤ 1 / (a * a) * (1 / (1 + s / (a * a))) * (1 / (1 + s / (a * a))) := by
          positivity
        rw [hvalue hs, neg_mul, neg_mul]
        exact neg_nonpos.mpr hrate
      slope_antitone := fun s t hs hst => by
        rw [hvalue hs, hvalue (hs.trans hst)]
        have hle : 1 + s / (a * a) ≤ 1 + t / (a * a) := by gcongr
        exact one_div_le_one_div_of_le (one_pos.trans_le (hdivisor hs)) hle }

/-! ## Weights -/

/-- The losses of the library at any scale they accept: none but the Cauchy loss refuses one, and
only zero. -/
inductive Standard : Loss ℝ → Prop
  | trivial : Standard .trivial
  | huber (a : ℝ) : Standard (.huber a)
  | cauchy {a : ℝ} (ha : a ≠ 0) : Standard (.cauchy a)

theorem Standard.downweighting {loss : Loss ℝ} (h : loss.Standard) : Downweighting loss := by
  cases h with
  | trivial => exact downweighting_trivial
  | huber a => exact downweighting_huber a
  | cauchy ha => exact downweighting_cauchy ha

/-- **Standard losses only ever weigh down, and the more so the larger the residual.** Every
residual has a weight between zero and one. Its Jacobians, however many and of whatever shapes, are
multiplied by this weight and not changed otherwise: the curvature is not positive, and no division
is made, so that any other division would give the same. Of two residuals the one of larger norm has
no larger weight. -/
theorem standard_downweights {loss : Loss ℝ} (h : loss.Standard) :
    ∃ weight : Array ℝ → ℝ,
      (∀ r, 0 < weight r ∧ weight r ≤ 1) ∧
      (∀ r Js, (∃ value, loss.evaluate (Dense.dot r r) = .ok value ∧ value.curvature ≤ 0) ∧
        loss.correct r Js = .ok (Js.map (Dense.scale (weight r))) ∧
        ∀ divide, loss.correctDividing divide r Js = .ok (Js.map (Dense.scale (weight r)))) ∧
      ∀ r₁ r₂, Real.sqrt (Dense.dot r₁ r₁) ≤ Real.sqrt (Dense.dot r₂ r₂) →
        weight r₂ ≤ weight r₁ := by
  have d := h.downweighting
  have hs := Dense.dot_self_nonneg
  refine ⟨fun r => Real.sqrt (loss.valueAt (Dense.dot r r)).slope, fun r => ?_, fun r Js => ?_,
    fun r₁ r₂ hle => ?_⟩
  · exact ⟨Real.sqrt_pos.mpr (d.slope_pos _ (hs r)),
      Real.sqrt_le_one.mpr (d.slope_le_one _ (hs r))⟩
  · have hvalue := d.evaluate_eq _ (hs r)
    have hflat := d.curvature_nonpos _ (hs r)
    exact ⟨⟨_, hvalue, hflat⟩, correct_of_flat hvalue (Or.inr hflat) Js,
      fun divide => correctDividing_of_flat hvalue (Or.inr hflat) divide Js⟩
  · have hle := (Real.sqrt_le_sqrt_iff (hs r₂)).mp hle
    exact Real.sqrt_le_sqrt (d.slope_antitone _ _ (hs r₁) hle)

/-- A Huber loss of negative scale: the Jacobian of the residual `3`, `4` has a smaller weight than
that of the residual `0`, and neither is divided. -/
theorem standard_downweights_negative :
    (huber (-2)).Standard ∧ ∃ c c' : ℝ, 0 < c ∧ c ≤ c' ∧ c' ≤ 1 ∧
      (huber (-2)).correct #[3, 4] [Dense.identity 2] = .ok [Dense.scale c (Dense.identity 2)] ∧
      (huber (-2)).correct #[0] [Dense.identity 1] = .ok [Dense.scale c' (Dense.identity 1)] := by
  obtain ⟨weight, hbounds, hcorrect, hfalls⟩ := standard_downweights (Standard.huber (-2))
  refine ⟨.huber (-2), weight #[3, 4], weight #[0], (hbounds _).1, hfalls _ _ ?_, (hbounds _).2,
    (hcorrect _ _).2.1, (hcorrect _ _).2.1⟩
  exact Real.sqrt_le_sqrt (by norm_num [Dense.dot])

/-! ## Tangents -/

/-- At no squared norm is a loss refused. Its value lies below its tangents, wherever the slope is
that of the value, and it rises from zero and no faster than least squares. -/
structure Concave (loss : Loss ℝ) (exact : ℝ → Prop) : Prop where
  evaluate_eq : ∀ s, 0 ≤ s → loss.evaluate s = .ok (loss.valueAt s)
  value_le_tangent : ∀ s t, 0 ≤ s → 0 ≤ t → exact s →
    (loss.valueAt t).value ≤ (loss.valueAt s).value + (loss.valueAt s).slope * (t - s)
  value_nonneg : ∀ s, 0 ≤ s → 0 ≤ (loss.valueAt s).value
  value_le : ∀ s, 0 ≤ s → (loss.valueAt s).value ≤ s
  value_mono : ∀ s t, 0 ≤ s → s ≤ t → (loss.valueAt s).value ≤ (loss.valueAt t).value

/-- The bounds of the value follow from the tangent at zero, if that is least squares. -/
theorem Concave.of_tangents {loss : Loss ℝ} {exact : ℝ → Prop}
    (hevaluate : ∀ s, 0 ≤ s → loss.evaluate s = .ok (loss.valueAt s))
    (hzero : (loss.valueAt 0).value = 0 ∧ (loss.valueAt 0).slope = 1 ∧ exact 0)
    (htangent : ∀ s t, 0 ≤ s → 0 ≤ t → exact s →
      (loss.valueAt t).value ≤ (loss.valueAt s).value + (loss.valueAt s).slope * (t - s))
    (hmono : ∀ s t, 0 ≤ s → s ≤ t → (loss.valueAt s).value ≤ (loss.valueAt t).value) :
    Concave loss exact where
  evaluate_eq := hevaluate
  value_le_tangent := htangent
  value_nonneg s hs := by
    have h := hmono 0 s (le_refl _) hs
    rwa [hzero.1] at h
  value_le s hs := by
    have h := htangent 0 s (le_refl _) hs hzero.2.2
    rwa [hzero.1, hzero.2.1, zero_add, one_mul, sub_zero] at h
  value_mono := hmono

theorem concave_trivial : Concave trivial fun _ => True :=
  .of_tangents (fun _ _ => rfl) ⟨rfl, rfl, True.intro⟩
    (fun s t _ _ _ => by
      show t ≤ s + 1 * (t - s)
      linarith)
    fun _ _ _ hst => hst

/-- The weight of the Huber loss at a squared norm, before it is kept from vanishing. -/
noncomputable def huberWeight (a s : ℝ) : ℝ := a / Real.sqrt (max s (a * a))

theorem huberWeight_of_lt {a s : ℝ} (h : a * a < s) : huberWeight a s = a / Real.sqrt s := by
  rw [huberWeight, max_eq_left h.le]

theorem huberWeight_le_one (a s : ℝ) : huberWeight a s ≤ 1 := by
  have hroot : a ≤ Real.sqrt (max s (a * a)) :=
    Real.le_sqrt_of_sq_le ((sq a).trans_le (le_max_right _ _))
  exact div_le_one_of_le₀ hroot (Real.sqrt_nonneg _)

section Huber

variable {a : ℝ} (ha : 0 < a)

include ha

theorem huberWeight_of_le {s : ℝ} (h : s ≤ a * a) : huberWeight a s = 1 := by
  rw [huberWeight, max_eq_right h, Real.sqrt_mul_self ha.le, div_self ha.ne']

theorem huberWeight_pos (s : ℝ) : 0 < huberWeight a s :=
  div_pos ha (Real.sqrt_pos.mpr ((mul_pos ha ha).trans_le (le_max_right _ _)))

/-- The weight of a squared norm is the slope there, unless it is below the least one. -/
theorem slope_huber (s : ℝ) :
    ((huber a).valueAt s).slope = max (huberWeight a s) Elementary.smallestNormal := by
  rcases le_or_gt s (a * a) with h | h
  · rw [valueAt_huber_of_le h, huberWeight_of_le ha h, max_eq_left smallestNormal_le_one]
  · rw [valueAt_huber_of_lt h, huberWeight_of_lt h]

/-- The value touches the line of the weight at its own squared norm. -/
theorem value_huber_eq {s : ℝ} :
    ((huber a).valueAt s).value =
      huberWeight a s * s + (a * a / huberWeight a s - a * a) := by
  rcases le_or_gt s (a * a) with h | h
  · rw [valueAt_huber_of_le h, huberWeight_of_le ha h]
    ring
  · have hs : 0 < s := (mul_pos ha ha).trans h
    have hroot : 0 < Real.sqrt s := Real.sqrt_pos.mpr hs
    have hsquare : Real.sqrt s * Real.sqrt s = s := Real.mul_self_sqrt hs.le
    have hweighted : a / Real.sqrt s * s = a * Real.sqrt s := by
      rw [div_mul_eq_mul_div, div_eq_iff hroot.ne', mul_assoc, hsquare]
    rw [valueAt_huber_of_lt h, huberWeight_of_lt h, hweighted]
    field_simp
    ring

/-- The value stays below the line of every weight between zero and one. -/
theorem value_huber_le {w : ℝ} (hw : 0 < w) (hle : w ≤ 1) (t : ℝ) :
    ((huber a).valueAt t).value ≤ w * t + (a * a / w - a * a) := by
  rcases le_or_gt t (a * a) with h | h
  · have hstretched : a * a ≤ a * a / w := le_div_self (mul_self_nonneg a) hw hle
    have hrest : (1 - w) * t ≤ (1 - w) * (a * a / w) :=
      mul_le_mul_of_nonneg_left (h.trans hstretched) (sub_nonneg.mpr hle)
    have hline : (1 - w) * (a * a / w) = a * a / w - a * a := by
      field_simp
    rw [valueAt_huber_of_le h]
    show t ≤ _
    linarith
  · have hsquare : Real.sqrt t * Real.sqrt t = t :=
      Real.mul_self_sqrt ((mul_self_nonneg a).trans h.le)
    have hgap : w * (Real.sqrt t * Real.sqrt t) + a * a / w - 2 * a * Real.sqrt t =
        (w * Real.sqrt t - a) ^ 2 / w := by
      field_simp
      ring
    have hnonneg : 0 ≤ (w * Real.sqrt t - a) ^ 2 / w := div_nonneg (sq_nonneg _) hw.le
    rw [hsquare] at hgap
    rw [valueAt_huber_of_lt h]
    show 2 * a * Real.sqrt t - a * a ≤ _
    linarith

theorem concave_huber :
    Concave (huber a) fun s => a * a < s → Elementary.smallestNormal ≤ a / Real.sqrt s := by
  have hzero : (huber a).valueAt 0 = ⟨0, 1, 0⟩ := valueAt_huber_of_le (mul_self_nonneg a)
  have htangent : ∀ s t, (a * a < s → Elementary.smallestNormal ≤ a / Real.sqrt s) →
      ((huber a).valueAt t).value ≤
        ((huber a).valueAt s).value + ((huber a).valueAt s).slope * (t - s) := by
    intro s t hexact
    have hslope : ((huber a).valueAt s).slope = huberWeight a s := by
      rw [slope_huber ha]
      refine max_eq_left ?_
      rcases le_or_gt s (a * a) with h | h
      · rw [huberWeight_of_le ha h]
        exact smallestNormal_le_one
      · rw [huberWeight_of_lt h]
        exact hexact h
    calc ((huber a).valueAt t).value
        ≤ huberWeight a s * t + (a * a / huberWeight a s - a * a) :=
          value_huber_le ha (huberWeight_pos ha s) (huberWeight_le_one a s) t
      _ = ((huber a).valueAt s).value + ((huber a).valueAt s).slope * (t - s) := by
          rw [hslope, value_huber_eq ha]
          ring
  refine .of_tangents (fun s _ => evaluate_huber a s) ?_ (fun s t _ _ => htangent s t) ?_
  · rw [hzero]
    exact ⟨rfl, rfl, fun h => absurd h (mul_self_nonneg a).not_gt⟩
  · -- the line of the weight at `t` climbs from `s` to `t`
    intro s t _ hst
    have hclimb : huberWeight a t * s ≤ huberWeight a t * t :=
      mul_le_mul_of_nonneg_left hst (huberWeight_pos ha t).le
    have hbelow := value_huber_le ha (huberWeight_pos ha t) (huberWeight_le_one a t) s
    rw [value_huber_eq ha (s := t)]
    linarith

theorem continuous_huberWeight : Continuous (huberWeight a) := by
  unfold huberWeight
  refine continuous_const.div (by fun_prop) fun s => ?_
  exact (Real.sqrt_pos.mpr ((mul_pos ha ha).trans_le (le_max_right _ _))).ne'

theorem continuous_value_huber : Continuous fun s => ((huber a).valueAt s).value := by
  have hweight := continuous_huberWeight ha
  have hline : (fun s => ((huber a).valueAt s).value) =
      fun s => huberWeight a s * s + (a * a / huberWeight a s - a * a) :=
    funext fun s => value_huber_eq ha
  rw [hline]
  exact (hweight.mul continuous_id).add
    ((continuous_const.div hweight fun s => (huberWeight_pos ha s).ne').sub continuous_const)

theorem continuous_slope_huber : Continuous fun s => ((huber a).valueAt s).slope := by
  simp only [slope_huber ha]
  exact (continuous_huberWeight ha).max continuous_const

end Huber

theorem concave_cauchy {a : ℝ} (ha : a ≠ 0) : Concave (cauchy a) fun _ => True := by
  have hb : 0 < a * a := mul_self_pos.mpr ha
  have hvalue := fun {s : ℝ} (hs : 0 ≤ s) => valueAt_of_evaluate (evaluate_cauchy ha hs)
  have hpos : ∀ {s : ℝ}, 0 ≤ s → 0 < 1 + s / (a * a) := fun hs =>
    add_pos_of_pos_of_nonneg one_pos (div_nonneg hs hb.le)
  refine .of_tangents (fun s hs => by rw [hvalue hs, evaluate_cauchy ha hs]) ?_ ?_ ?_
  · rw [hvalue (le_refl 0)]
    simp
  · intro s t hs ht _
    have hu := hpos hs
    have hv := hpos ht
    rw [hvalue hs, hvalue ht]
    show a * a * Real.log (1 + t / (a * a)) ≤
      a * a * Real.log (1 + s / (a * a)) + 1 / (1 + s / (a * a)) * (t - s)
    have hlog : Real.log (1 + t / (a * a)) - Real.log (1 + s / (a * a)) ≤
        (1 + t / (a * a)) / (1 + s / (a * a)) - 1 := by
      rw [← Real.log_div hv.ne' hu.ne']
      exact Real.log_le_sub_one_of_pos (div_pos hv hu)
    have hline : a * a * ((1 + t / (a * a)) / (1 + s / (a * a)) - 1) =
        1 / (1 + s / (a * a)) * (t - s) := by
      field_simp
      ring
    have hscaled := mul_le_mul_of_nonneg_left hlog hb.le
    rw [hline] at hscaled
    linarith
  · intro s t hs hst
    rw [hvalue hs, hvalue (hs.trans hst)]
    have hle : 1 + s / (a * a) ≤ 1 + t / (a * a) := by gcongr
    exact mul_le_mul_of_nonneg_left (Real.log_le_log (hpos hs) hle) hb.le

/-- **The slope of a standard loss is that of a concave cost.** Least squares, every Huber loss of
positive scale and every Cauchy loss of a scale other than zero accept every squared norm; their
values lie below their tangents, rise, and stay between zero and least squares. For the Huber loss
the tangent is that of a squared norm whose weight is not below the least one, and neither the value
nor the slope jumps where its two pieces meet. -/
theorem standard_concave :
    Concave trivial (fun _ => True) ∧
      (∀ a : ℝ, 0 < a →
        Concave (huber a) (fun s => a * a < s → Elementary.smallestNormal ≤ a / Real.sqrt s) ∧
        ContinuousAt (fun s => ((huber a).valueAt s).value) (a * a) ∧
        ContinuousAt (fun s => ((huber a).valueAt s).slope) (a * a)) ∧
      ∀ a : ℝ, a ≠ 0 → Concave (cauchy a) fun _ => True :=
  ⟨concave_trivial,
    fun _ ha => ⟨concave_huber ha, (continuous_value_huber ha).continuousAt,
      (continuous_slope_huber ha).continuousAt⟩,
    fun _ ha => concave_cauchy ha⟩

/-- The tangents of the Huber loss at `4`, beyond its threshold, and of the Cauchy loss at `0`. -/
theorem standard_concave_one :
    ((0 : ℝ) < 1 ∧ (Elementary.smallestNormal : ℝ) ≤ 1 / Real.sqrt 4 ∧
      ((huber 1).valueAt 1).value ≤
        ((huber 1).valueAt 4).value + ((huber 1).valueAt 4).slope * (1 - 4)) ∧
    ((2 : ℝ) ≠ 0 ∧ ((cauchy 2).valueAt 5).value ≤
      ((cauchy 2).valueAt 0).value + ((cauchy 2).valueAt 0).slope * (5 - 0)) := by
  have hleast : (Elementary.smallestNormal : ℝ) ≤ 1 / Real.sqrt 4 := by
    have hroot : Real.sqrt 4 = 2 := by
      rw [Real.sqrt_eq_iff_mul_self_eq_of_pos two_pos]
      norm_num
    have hhalf : (2 : ℝ) ^ (-1022 : ℤ) ≤ 2 ^ (-1 : ℤ) :=
      zpow_le_zpow_right₀ one_le_two (by norm_num)
    rw [hroot, one_div, ← zpow_neg_one]
    exact hhalf
  obtain ⟨-, hhuber, hcauchy⟩ := standard_concave
  exact ⟨⟨one_pos, hleast, (hhuber 1 one_pos).1.value_le_tangent 4 1 (by norm_num) (by norm_num)
    fun _ => hleast⟩, two_ne_zero, (hcauchy 2 two_ne_zero).value_le_tangent 0 5 (le_refl _)
    (by norm_num) True.intro⟩

end LeastSquares.Loss
