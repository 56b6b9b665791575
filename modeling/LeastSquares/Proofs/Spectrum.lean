/-
LeastSquares.Proofs.Spectrum — what an exact singular value decomposition tells.

An engine is asked for the singular values and the right singular vectors of the dense Jacobian and
believed to give those of an exact thin decomposition (`Singular.Decomposes`). The truncated sum of
the directions is then a product of matrices (`inverse_eq_entryAt`), and

* `weights_eq_divisors` says which singular values are divided by, for every kind of numbers, and
  `weights_eq` which directions have a weight: the first ones, up to a number (`keeping`) that the
  options and the first null direction decide;
* `weights_spec` says it for a fixed number `r` of dropped directions: there are `r` fewer than the
  decomposition has, each with a positive singular value;
* where the Jacobian is not wider than high and nothing is dropped, the sum is the inverse of the
  normal matrix (`Decomposes.inv_gram`), and the columns are independent (`Decomposes.isUnit_gram`);
* a wider one never has independent columns (`le_of_linearIndependent_col`), whatever its weights.
-/
import Mathlib.Data.List.GetD
import LeastSquares.Covariance.Truncation
import LeastSquares.Proofs.Factorization

namespace LeastSquares

open Matrix

variable {K : Type} [Field K]

theorem half_mul_add_self [LinearOrder K] [IsStrictOrderedRing K] (x : K) :
    half * (x + x) = x := by
  have htwo : ((2 : Nat) : K) ≠ 0 := Nat.cast_ne_zero.mpr (by decide)
  calc half * (x + x) = 1 / ((2 : Nat) : K) * (((2 : Nat) : K) * x) := by
        rw [half, Nat.cast_two, two_mul]
    _ = x := by rw [← mul_assoc, one_div, inv_mul_cancel₀ htwo, one_mul]

/-- The matrix with the entries of a dense one. -/
def Dense.toMatrix (A : Dense K) : Matrix (Fin A.rows) (Fin A.cols) K :=
  Matrix.of fun i j => A.get i j

theorem Compressed.toMatrix_dense (J : Compressed K) : J.dense.toMatrix = J.toMatrix := by
  ext i j
  exact Dense.get_ofFn_of_lt J.entry i.isLt j.isLt

/-! ## Decompositions -/

namespace Singular

/-- The right singular vectors as the rows of a matrix. -/
def rightMatrix (s : Singular K) (q n : Nat) : Matrix (Fin q) (Fin n) K :=
  Matrix.of fun k i => s.right.get k i

/-- Singular value number `k`. -/
def value (s : Singular K) (k : Nat) : K := s.values.getD k 0

/-- An exact thin decomposition `A = U S V` with singular values in decreasing order. -/
structure Decomposes [LE K] (s : Singular K) {m n : Nat} (A : Matrix (Fin m) (Fin n) K) :
    Prop where
  length_values : s.values.length = min m n
  rows_right : s.right.rows = min m n
  cols_right : s.right.cols = n
  decreasing : s.values.Pairwise fun x y => y ≤ x
  nonneg : ∀ x ∈ s.values, 0 ≤ x
  orthonormal : s.rightMatrix (min m n) n * (s.rightMatrix (min m n) n)ᵀ = 1
  factored : ∃ U : Matrix (Fin m) (Fin (min m n)) K, Uᵀ * U = 1 ∧
    A = U * diagonal (fun k : Fin (min m n) => s.value k) * s.rightMatrix (min m n) n

/-- The sum of `v v'` over the directions, each with its weight, as a matrix. -/
def weighted (s : Singular K) (q n : Nat) (weight : Nat → K) : Matrix (Fin n) (Fin n) K :=
  (s.rightMatrix q n)ᵀ * diagonal (fun k : Fin q => weight k) * s.rightMatrix q n

theorem weighted_apply (s : Singular K) (q n : Nat) (weight : Nat → K) (i j : Fin n) :
    s.weighted q n weight i j =
      ∑ k ∈ Finset.range q, s.right.get k i * weight k * s.right.get k j := by
  rw [weighted, mul_apply, Finset.sum_range]
  refine Finset.sum_congr rfl fun k _ => ?_
  rw [mul_diagonal, transpose_apply]
  rfl

theorem isSymm_weighted (s : Singular K) (q n : Nat) (weight : Nat → K) :
    (s.weighted q n weight).IsSymm := by
  rw [IsSymm, weighted, transpose_mul, transpose_mul, transpose_transpose, diagonal_transpose,
    Matrix.mul_assoc]

theorem weighted_congr (s : Singular K) {q n : Nat} {weight weight' : Nat → K}
    (h : ∀ k, k < q → weight k = weight' k) : s.weighted q n weight = s.weighted q n weight' := by
  have hweights : (fun k : Fin q => weight k) = fun k : Fin q => weight' k :=
    funext fun k => h k k.isLt
  rw [weighted, weighted, hweights]

/-- Sums over perpendicular directions are multiplied direction by direction. -/
theorem weighted_mul {s : Singular K} {q n : Nat}
    (h : s.rightMatrix q n * (s.rightMatrix q n)ᵀ = 1) (weight weight' : Nat → K) :
    s.weighted q n weight * s.weighted q n weight' =
      s.weighted q n fun k => weight k * weight' k := by
  unfold weighted
  generalize s.rightMatrix q n = V at *
  rw [← diagonal_mul_diagonal]
  generalize diagonal (fun k : Fin q => weight k) = S
  generalize diagonal (fun k : Fin q => weight' k) = T
  calc Vᵀ * S * V * (Vᵀ * T * V) = Vᵀ * S * (V * Vᵀ) * T * V := by
        simp only [Matrix.mul_assoc]
    _ = Vᵀ * (S * T) * V := by rw [h, Matrix.mul_one, Matrix.mul_assoc Vᵀ S T]

namespace Decomposes

variable [LE K] {s : Singular K} {m n : Nat} {A : Matrix (Fin m) (Fin n) K}

/-- The normal matrix is the sum of the directions with the squared singular values. -/
theorem gram_eq (d : s.Decomposes A) :
    Aᵀ * A = s.weighted (min m n) n fun k => s.value k * s.value k := by
  obtain ⟨U, hU, hfactored⟩ := d.factored
  rw [hfactored, weighted]
  generalize s.rightMatrix (min m n) n = V at *
  generalize hS : diagonal (fun k : Fin (min m n) => s.value k) = S at *
  have hsymm : Sᵀ = S := by rw [← hS, diagonal_transpose]
  calc (U * S * V)ᵀ * (U * S * V) = Vᵀ * Sᵀ * (Uᵀ * U) * S * V := by
        rw [transpose_mul, transpose_mul]
        simp only [Matrix.mul_assoc]
    _ = Vᵀ * (S * S) * V := by rw [hU, Matrix.mul_one, hsymm, Matrix.mul_assoc Vᵀ S S]
    _ = _ := by rw [← hS, diagonal_mul_diagonal]

end Decomposes

/-- Directions that are as many as the columns make up the whole space. -/
theorem transpose_mul_self_eq_one {q n : Nat} {V : Matrix (Fin q) (Fin n) K} (h : V * Vᵀ = 1)
    (hq : q = n) : Vᵀ * V = 1 := by
  subst hq
  exact mul_eq_one_comm.mp h

namespace Decomposes

variable [LE K] {s : Singular K} {m n : Nat} {A : Matrix (Fin m) (Fin n) K}

/-- Where there are as many directions as columns and no singular value is zero, the reciprocal
weights give a right inverse of the normal matrix. -/
theorem gram_mul_weighted (d : s.Decomposes A) (hle : n ≤ m)
    (hne : ∀ k, k < n → s.value k ≠ 0) :
    Aᵀ * A * s.weighted (min m n) n (fun k => 1 / (s.value k * s.value k)) = 1 := by
  have hone : ∀ k, k < min m n → s.value k * s.value k * (1 / (s.value k * s.value k)) = 1 := by
    intro k hk
    have hk := hne k (by omega)
    rw [mul_one_div, div_self (mul_ne_zero hk hk)]
  have hweights : s.weighted (min m n) n
      (fun k => s.value k * s.value k * (1 / (s.value k * s.value k))) =
        s.weighted (min m n) n fun _ => 1 := s.weighted_congr hone
  rw [d.gram_eq, weighted_mul d.orthonormal, hweights, weighted, diagonal_one, Matrix.mul_one]
  exact transpose_mul_self_eq_one d.orthonormal (Nat.min_eq_right hle)

theorem inv_gram (d : s.Decomposes A) (hle : n ≤ m) (hne : ∀ k, k < n → s.value k ≠ 0) :
    (Aᵀ * A)⁻¹ = s.weighted (min m n) n fun k => 1 / (s.value k * s.value k) :=
  inv_eq_right_inv (d.gram_mul_weighted hle hne)

theorem isUnit_gram (d : s.Decomposes A) (hle : n ≤ m) (hne : ∀ k, k < n → s.value k ≠ 0) :
    IsUnit (Aᵀ * A) := by
  rw [isUnit_iff_isUnit_det]
  apply IsUnit.of_mul_eq_one
    (s.weighted (min m n) n fun k => 1 / (s.value k * s.value k)).det
  rw [← det_mul, d.gram_mul_weighted hle hne, det_one]

end Decomposes

/-- Independent columns are no more than the rows. -/
theorem le_of_linearIndependent_col {m n : Nat} {A : Matrix (Fin m) (Fin n) K}
    (h : LinearIndependent K A.col) : n ≤ m := by
  have hcard := h.fintype_card_le_finrank
  simpa using hcard

end Singular

/-- An engine whose singular value decompositions are exact. It may find none. -/
def Engine.DecomposesExactly [LE K] (engine : Engine K) : Prop :=
  ∀ (A : Dense K) (s : Singular K), engine.singular A = some s → s.Decomposes A.toMatrix

/-- What such an engine finds for a Jacobian decomposes its matrix. -/
theorem Engine.DecomposesExactly.decomposes [LE K] {engine : Engine K}
    (exact : engine.DecomposesExactly) {J : Compressed K} {s : Singular K}
    (h : engine.singular J.dense = some s) : s.Decomposes J.toMatrix := by
  rw [← J.toMatrix_dense]
  exact exact _ s h

/-! ## Weights -/

namespace Truncation

section Loop

variable {α : Type} [Zero α] [One α] [Mul α] [Div α] [LT α] [DecidableLT α]

/-- The singular values whose squares one is divided by: all up to the first null one. -/
def divisors (limit top : α) : List α → List α
  | [] => []
  | s :: rest => if ratio top s < limit then [] else s :: divisors limit top rest

omit [One α] [Mul α] in
theorem length_divisors_le (limit top : α) (values : List α) :
    (divisors limit top values).length ≤ values.length := by
  induction values with
  | nil => exact Nat.le_refl 0
  | cons s rest ih =>
    rw [divisors]
    split
    · exact Nat.zero_le _
    · exact Nat.succ_le_succ ih

/-- The reciprocals that are formed are those of the divisors. -/
theorem reciprocals_eq_divisors (automatic : Bool) (limit top : α) (values : List α) :
    reciprocals automatic limit top values =
      if automatic = true ∨ (divisors limit top values).length = values.length then
        some ((divisors limit top values).map (fun s => 1 / (s * s)) ++
          List.replicate (values.length - (divisors limit top values).length) 0)
      else none := by
  induction values with
  | nil => simp [reciprocals, divisors]
  | cons s rest ih =>
    rw [reciprocals, divisors]
    by_cases hnull : ratio top s < limit
    · rw [if_pos hnull, if_pos hnull]
      cases automatic <;> simp
    · rw [if_neg hnull, if_neg hnull, ih]
      simp only [List.length_cons, Nat.add_right_cancel_iff, Nat.add_sub_add_right]
      split <;> rfl

theorem maxRank_le (directions : Nat) (nullSpaceRank : Int) :
    maxRank directions nullSpaceRank ≤ directions := by
  unfold maxRank
  omega

/-- The divisors decide the weights: there are none where a null direction may not be dropped. -/
theorem weights_eq_divisors [Add α] [NatCast α] [BEq α] [Elementary α] (options : Options α)
    (values : List α) :
    let most := maxRank values.length options.nullSpaceRank
    let divided := divisors (Elementary.sqrt options.minReciprocalCondition) (values.headD 0)
      (values.take most)
    Truncation.weights options values =
      if options.nullSpaceRank < 0 ∨ divided.length = most then
        some (divided.map (fun s => 1 / (s * s)) ++
          List.replicate (values.length - divided.length) 0)
      else none := by
  intro most divided
  have hmost : most ≤ values.length := maxRank_le _ _
  have htaken : (values.take most).length = most := by rw [List.length_take, Nat.min_eq_left hmost]
  have hle : divided.length ≤ most := htaken ▸ length_divisors_le _ _ _
  have hcount : most - divided.length + (values.length - most) =
      values.length - divided.length := by omega
  unfold Truncation.weights
  dsimp only
  rw [reciprocals_eq_divisors, htaken]
  simp only [decide_eq_true_eq]
  split
  · rw [Option.map_some, List.append_assoc, List.replicate_append_replicate, hcount]
  · rfl

end Loop

/-- The weights that keep the first directions. -/
def keeping (values : List K) (kept : Nat) : List K :=
  (values.take kept).map (fun x => 1 / (x * x)) ++ List.replicate (values.length - kept) 0

/-- Every direction gets a weight. -/
theorem length_keeping (values : List K) (kept : Nat) :
    (keeping values kept).length = values.length := by
  rw [keeping, List.length_append, List.length_map, List.length_take, List.length_replicate]
  omega

theorem getD_keeping_of_lt {values : List K} {kept k : Nat} (hk : k < kept)
    (hkept : kept ≤ values.length) :
    (keeping values kept).getD k 0 = 1 / (values.getD k 0 * values.getD k 0) := by
  have hlt : k < values.length := by omega
  have hfront : k < ((values.take kept).map fun x => 1 / (x * x)).length := by
    rw [List.length_map, List.length_take]
    omega
  rw [keeping, List.getD_eq_getElem?_getD, List.getElem?_append_left hfront]
  simp [List.getD_eq_getElem?_getD, hk, hlt]

theorem getD_keeping_of_le (values : List K) {kept k : Nat} (hk : kept ≤ k) :
    (keeping values kept).getD k 0 = 0 := by
  have hfront : ((values.take kept).map fun x => 1 / (x * x)).length ≤ k := by
    rw [List.length_map, List.length_take]
    omega
  rw [keeping, List.getD_eq_getElem?_getD, List.getElem?_append_right hfront,
    List.getElem?_replicate]
  split <;> rfl

variable [LinearOrder K]

/-- Is the ratio of a singular value to the largest at least the limit? -/
def passes (limit top x : K) : Bool := decide (limit ≤ ratio top x)

/-- The divisors end before the first direction that does not pass. -/
theorem divisors_eq_takeWhile (limit top : K) (values : List K) :
    divisors limit top values = values.takeWhile (passes limit top) := by
  induction values with
  | nil => rfl
  | cons s rest ih =>
    rw [divisors, ih, List.takeWhile_cons]
    by_cases hnull : ratio top s < limit
    · have hfails : passes limit top s = false := decide_eq_false (not_le.mpr hnull)
      simp [hnull, hfails]
    · have hpasses : passes limit top s = true := decide_eq_true (not_lt.mp hnull)
      simp [hnull, hpasses]

theorem maxRank_eq (directions : Nat) {r : Int} (hr : 0 ≤ r) :
    maxRank directions r = directions - r.toNat := by
  unfold maxRank
  omega

section Options

variable [Elementary K] {options : Options K} {values weights : List K}

/-- How many directions there are before the first one that does not pass. -/
def leading (options : Options K) (values : List K) : Nat :=
  (values.takeWhile
    (passes (Elementary.sqrt options.minReciprocalCondition) (values.headD 0))).length

theorem leading_le (options : Options K) (values : List K) :
    leading options values ≤ values.length :=
  (List.takeWhile_prefix _).length_le

/-- The divisors among the first directions are the leading ones. -/
theorem divisors_take (options : Options K) (values : List K) (most : Nat) :
    divisors (Elementary.sqrt options.minReciprocalCondition) (values.headD 0) (values.take most) =
      values.take (min most (leading options values)) := by
  have hleading : values.takeWhile (passes (Elementary.sqrt options.minReciprocalCondition)
      (values.headD 0)) = values.take (leading options values) :=
    List.prefix_iff_eq_take.mp (List.takeWhile_prefix _)
  rw [divisors_eq_takeWhile, ← List.take_takeWhile, hleading, List.take_take]

/-- The directions before the first one that does not pass do. -/
theorem le_ratio_of_lt_leading {k : Nat} (hk : k < leading options values) :
    Elementary.sqrt options.minReciprocalCondition ≤
      ratio (values.headD 0) (values.getD k 0) := by
  have hlt : k < values.length := Nat.lt_of_lt_of_le hk (leading_le options values)
  have hpasses := List.all_eq_true.mp List.all_takeWhile _ (List.getElem_mem hk)
  rw [(List.takeWhile_prefix _).getElem hk] at hpasses
  rw [List.getD_eq_getElem values 0 hlt]
  exact of_decide_eq_true hpasses

/-- **Where the sum ends.** The directions are kept up to the first one that does not pass, but no
more than may be kept; without automatic truncation all of these have to pass. -/
theorem weights_eq (options : Options K) (values : List K) :
    Truncation.weights options values =
      if options.nullSpaceRank < 0 ∨
          maxRank values.length options.nullSpaceRank ≤ leading options values then
        some (keeping values
          (min (maxRank values.length options.nullSpaceRank) (leading options values)))
      else none := by
  have hle := leading_le options values
  have hlength : (values.take (min (maxRank values.length options.nullSpaceRank)
      (leading options values))).length =
        min (maxRank values.length options.nullSpaceRank) (leading options values) := by
    rw [List.length_take]
    omega
  rw [weights_eq_divisors, divisors_take, hlength]
  simp only [min_eq_left_iff]
  rfl

/-- What has weights keeps its first directions, and no others. -/
theorem exists_keeping (h : Truncation.weights options values = some weights) :
    ∃ kept, kept ≤ leading options values ∧ weights = keeping values kept ∧
      (0 ≤ options.nullSpaceRank → kept = values.length - options.nullSpaceRank.toNat) := by
  rw [weights_eq] at h
  split at h
  · rename_i hcond
    refine ⟨_, Nat.min_le_right _ _, (Option.some.inj h).symm, fun hrank => ?_⟩
    rw [Nat.min_eq_left (hcond.resolve_left (by omega)), maxRank_eq _ hrank]
  · cases h

/-- Every direction gets a weight. -/
theorem length_weights (h : Truncation.weights options values = some weights) :
    weights.length = values.length := by
  obtain ⟨kept, -, rfl, -⟩ := exists_keeping h
  exact length_keeping values kept

end Options

variable [IsStrictOrderedRing K]

/-- A value that passes the test is positive. -/
theorem pos_of_le_ratio {limit top x : K} (hlimit : 0 < limit) (h : limit ≤ ratio top x) :
    0 < x := by
  have hratio : 0 < ratio top x := lt_of_lt_of_le hlimit h
  unfold ratio at hratio
  split at hratio
  · rename_i htop
    exact (div_pos_iff_of_pos_right htop).mp hratio
  · exact absurd hratio (lt_irrefl 0)

/-- The entries that are stored are those of the weighted sum of the directions. -/
theorem inverse_eq_entryAt (s : Singular K) (weights : List K) {n i j : Nat} (hi : i < n)
    (hj : j < n) :
    inverse weights.toArray s.right i j =
      entryAt (s.weighted weights.length n fun k => weights.getD k 0) i j := by
  have hsum : ∀ i j (hi : i < n) (hj : j < n),
      (sumTo weights.toArray.size fun k =>
        s.right.get k i * weights.toArray.getD k 0 * s.right.get k j) =
      s.weighted weights.length n (fun k => weights.getD k 0) ⟨i, hi⟩ ⟨j, hj⟩ := by
    intro i j hi hj
    rw [sumTo_eq_sum, Singular.weighted_apply, List.size_toArray]
    refine Finset.sum_congr rfl fun k _ => ?_
    simp [Array.getD_eq_getD_getElem?, List.getD_eq_getElem?_getD]
  have hsymm := (s.isSymm_weighted weights.length n fun k => weights.getD k 0).apply
    ⟨i, hi⟩ ⟨j, hj⟩
  simp only [inverse]
  rw [hsum i j hi hj, hsum j i hj hi, hsymm, half_mul_add_self, entryAt_of_lt _ hi hj]

variable [Elementary K] {options : Options K} {values weights : List K}

/-- A direction before the first one that does not pass has a positive singular value. -/
theorem pos_of_lt_leading (hlimit : 0 < Elementary.sqrt options.minReciprocalCondition) {k : Nat}
    (hk : k < leading options values) : 0 < values.getD k 0 :=
  pos_of_le_ratio hlimit (le_ratio_of_lt_leading hk)

/-- The weights when a fixed number of directions is dropped: the first directions have the
reciprocal squares of their singular values, which are positive, and the others nothing. -/
theorem weights_spec (hr : 0 ≤ options.nullSpaceRank)
    (hlimit : 0 < Elementary.sqrt options.minReciprocalCondition)
    (h : Truncation.weights options values = some weights) :
    (∀ k, k < values.length - options.nullSpaceRank.toNat →
      0 < values.getD k 0 ∧ weights.getD k 0 = 1 / (values.getD k 0 * values.getD k 0)) ∧
      ∀ k, values.length - options.nullSpaceRank.toNat ≤ k → weights.getD k 0 = 0 := by
  obtain ⟨kept, hkept, rfl, hforced⟩ := exists_keeping h
  rw [← hforced hr]
  refine ⟨fun k hk => ⟨pos_of_lt_leading hlimit (by omega), ?_⟩, fun k hk => ?_⟩
  · exact getD_keeping_of_lt hk (hkept.trans (leading_le options values))
  · exact getD_keeping_of_le values hk

/-- As many directions are kept as have a weight. -/
theorem rank_eq (hr : 0 ≤ options.nullSpaceRank)
    (hlimit : 0 < Elementary.sqrt options.minReciprocalCondition)
    (h : Truncation.weights options values = some weights) :
    rank weights = values.length - options.nullSpaceRank.toNat := by
  obtain ⟨kept, hkept, rfl, hforced⟩ := exists_keeping h
  have hle : kept ≤ values.length := hkept.trans (leading_le options values)
  have hfront : ((values.take kept).map fun x => 1 / (x * x)).countP (fun w => !(w == 0)) =
      kept := by
    rw [List.countP_map, List.countP_eq_length.mpr, List.length_take, Nat.min_eq_left hle]
    intro x hx
    obtain ⟨k, hk, rfl⟩ := List.mem_iff_getElem.mp hx
    rw [List.length_take] at hk
    have hpos : 0 < values.getD k 0 := pos_of_lt_leading hlimit (by omega)
    rw [List.getD_eq_getElem values 0 (by omega)] at hpos
    have hne := ne_of_gt hpos
    simpa using hne
  rw [rank, keeping, List.countP_append, hfront, List.countP_replicate, hforced hr]
  simp

end Truncation

end LeastSquares
