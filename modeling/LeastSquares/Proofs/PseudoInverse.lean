/-
LeastSquares.Proofs.PseudoInverse — automatic truncation gives a pseudo-inverse.

The singular directions are perpendicular, so sums over them are multiplied direction by direction
(`Singular.weighted_mul`), and the four equations of a pseudo-inverse need to be known for numbers
only (`Singular.isPseudoInverse_weighted`). Automatic truncation gives the reciprocal of its squared
singular value to every direction that is large enough beside the first one (`lt_leading_iff`,
`le_ratio_iff`), and nothing to the others: the kept directions may be told one by one
(`Singular.significant`), although the loop stops at the first one that is too small. What is formed
is therefore the pseudo-inverse of the sum over the kept directions, which is `J'J` where nothing
but null directions was dropped, and a pattern reads its entries from there.
-/
import LeastSquares.Proofs.Truncation

namespace LeastSquares

open Matrix

/-! ## Pseudo-inverses -/

/-- A pseudo-inverse, by the four equations that determine it. -/
structure IsPseudoInverse {K ι κ : Type} [Field K] [Fintype ι] [Fintype κ] (A : Matrix ι κ K)
    (X : Matrix κ ι K) : Prop where
  inverse_mul_self : X * A * X = X
  self_mul_inverse : A * X * A = A
  isSymm_left : (X * A).IsSymm
  isSymm_right : (A * X).IsSymm

/-- A matrix has no two pseudo-inverses. -/
theorem IsPseudoInverse.unique {K ι κ : Type} [Field K] [Fintype ι] [Fintype κ] {A : Matrix ι κ K}
    {X Y : Matrix κ ι K} (h : IsPseudoInverse A X) (h' : IsPseudoInverse A Y) : X = Y := by
  have hright : A * X = A * Y :=
    calc A * X = A * Y * (A * X) := by rw [← Matrix.mul_assoc, h'.self_mul_inverse]
      _ = (A * X * (A * Y))ᵀ := by
          rw [transpose_mul, h'.isSymm_right.eq, h.isSymm_right.eq]
      _ = A * Y := by rw [← Matrix.mul_assoc, h.self_mul_inverse, h'.isSymm_right.eq]
  have hleft : X * A = Y * A :=
    calc X * A = X * A * (Y * A) := by
          rw [Matrix.mul_assoc X, ← Matrix.mul_assoc A, h'.self_mul_inverse]
      _ = (Y * A * (X * A))ᵀ := by rw [transpose_mul, h.isSymm_left.eq, h'.isSymm_left.eq]
      _ = Y * A := by
          rw [Matrix.mul_assoc Y, ← Matrix.mul_assoc A, h.self_mul_inverse, h'.isSymm_left.eq]
  calc X = Y * A * X := by rw [← hleft, h.inverse_mul_self]
    _ = Y := by rw [Matrix.mul_assoc, hright, ← Matrix.mul_assoc, h'.inverse_mul_self]

variable {K : Type} [Field K]

/-! ## Sums over directions -/

namespace Singular

/-- A right singular vector. -/
def direction (s : Singular K) (n k : Nat) : Fin n → K := fun i => s.right.get k i

theorem weighted_eq_sum (s : Singular K) (q n : Nat) (weight : Nat → K) :
    s.weighted q n weight =
      ∑ k ∈ Finset.range q, weight k • vecMulVec (s.direction n k) (s.direction n k) := by
  ext i j
  rw [weighted_apply, Matrix.sum_apply]
  refine Finset.sum_congr rfl fun k _ => ?_
  rw [Matrix.smul_apply, vecMulVec_apply, smul_eq_mul, direction, direction]
  ring

/-- Where only some directions have a weight, the sum goes over these. -/
theorem weighted_ite (s : Singular K) {q n : Nat} {t : Finset Nat} (ht : t ⊆ Finset.range q)
    (weight : Nat → K) :
    s.weighted q n (fun k => if k ∈ t then weight k else 0) =
      ∑ k ∈ t, weight k • vecMulVec (s.direction n k) (s.direction n k) := by
  rw [weighted_eq_sum]
  simp only [ite_smul, zero_smul]
  rw [Finset.sum_ite_mem, Finset.inter_eq_right.mpr ht]

/-- Where the weights of two sums over perpendicular directions are pseudo-inverses of each other as
numbers, the sums are as matrices. -/
theorem isPseudoInverse_weighted {s : Singular K} {q n : Nat}
    (h : s.rightMatrix q n * (s.rightMatrix q n)ᵀ = 1) {g w : Nat → K}
    (hw : ∀ k, k < q → w k * g k * w k = w k) (hg : ∀ k, k < q → g k * w k * g k = g k) :
    IsPseudoInverse (s.weighted q n g) (s.weighted q n w) where
  inverse_mul_self := by rw [weighted_mul h, weighted_mul h, s.weighted_congr hw]
  self_mul_inverse := by rw [weighted_mul h, weighted_mul h, s.weighted_congr hg]
  isSymm_left := by
    rw [weighted_mul h]
    exact s.isSymm_weighted _ _ _
  isSymm_right := by
    rw [weighted_mul h]
    exact s.isSymm_weighted _ _ _

/-- Over the directions that are kept, the sums with the squared singular values and with their
reciprocals are pseudo-inverses of each other. -/
theorem isPseudoInverse_kept {s : Singular K} {q n : Nat}
    (h : s.rightMatrix q n * (s.rightMatrix q n)ᵀ = 1) {t : Finset Nat}
    (hne : ∀ k ∈ t, s.value k ≠ 0) :
    IsPseudoInverse (s.weighted q n fun k => if k ∈ t then s.value k * s.value k else 0)
      (s.weighted q n fun k => if k ∈ t then 1 / (s.value k * s.value k) else 0) := by
  refine isPseudoInverse_weighted h (fun k _ => ?_) fun k _ => ?_
  · split
    · rename_i hk
      rw [one_div, inv_mul_cancel₀ (mul_ne_zero (hne k hk) (hne k hk)), one_mul]
    · rw [mul_zero]
  · split
    · rename_i hk
      rw [mul_one_div, div_self (mul_ne_zero (hne k hk) (hne k hk)), one_mul]
    · rw [mul_zero]

/-- The normal matrix is the sum over the directions that are not null. -/
theorem Decomposes.gram_eq_kept [LE K] {s : Singular K} {m n : Nat} {A : Matrix (Fin m) (Fin n) K}
    (d : s.Decomposes A) {t : Finset Nat} (h : ∀ k, k < min m n → k ∉ t → s.value k = 0) :
    Aᵀ * A = s.weighted (min m n) n fun k => if k ∈ t then s.value k * s.value k else 0 := by
  rw [d.gram_eq]
  refine s.weighted_congr fun k hk => ?_
  split
  · rfl
  · rename_i hnot
    rw [h k hk hnot, mul_zero]

/-- The directions with a positive singular value that is large enough beside the first one. -/
def significant [LinearOrder K] (s : Singular K) (limit : K) : Finset Nat :=
  (Finset.range s.values.length).filter fun k => 0 < s.value k ∧ limit * s.value 0 ≤ s.value k

theorem significant_subset [LinearOrder K] (s : Singular K) (limit : K) :
    s.significant limit ⊆ Finset.range s.values.length := Finset.filter_subset _ _

theorem value_pos_of_significant [LinearOrder K] {s : Singular K} {limit : K} {k : Nat}
    (hk : k ∈ s.significant limit) : 0 < s.value k := (Finset.mem_filter.mp hk).2.1

end Singular

/-! ## The directions that are kept -/

namespace Truncation

variable [LinearOrder K] [IsStrictOrderedRing K]

/-- A singular value passes the test of its ratio to the largest one if it is positive and large
enough. -/
theorem le_ratio_iff {limit top x : K} (hlimit : 0 < limit) (hx : x ≤ top) :
    limit ≤ ratio top x ↔ 0 < x ∧ limit * top ≤ x := by
  unfold ratio
  split
  · rename_i htop
    rw [le_div_iff₀ htop]
    exact ⟨fun h => ⟨lt_of_lt_of_le (mul_pos hlimit htop) h, h⟩, fun h => h.2⟩
  · rename_i htop
    refine iff_of_false (not_le.mpr hlimit) fun h => htop (lt_of_lt_of_le h.1 hx)

variable [Elementary K] {options : Options K} {values : List K}

/-- Of falling singular values a leading one is one that passes. -/
theorem lt_leading_iff (h : values.Pairwise fun x y => y ≤ x) {k : Nat} (hk : k < values.length) :
    k < leading options values ↔
      Elementary.sqrt options.minReciprocalCondition ≤
        ratio (values.headD 0) (values.getD k 0) := by
  refine ⟨le_ratio_of_lt_leading, fun hpass => ?_⟩
  rw [List.getD_eq_getElem values 0 hk] at hpass
  -- the values in front of one that passes are larger, and pass too
  have hfront : ∀ x ∈ values.take (k + 1),
      passes (Elementary.sqrt options.minReciprocalCondition) (values.headD 0) x = true := by
    intro x hx
    obtain ⟨i, hi, rfl⟩ := List.mem_iff_getElem.mp hx
    rw [List.length_take] at hi
    rw [List.getElem_take]
    refine passes_of_le ?_ (decide_eq_true hpass)
    rcases Nat.lt_or_ge i k with hik | hki
    · exact List.pairwise_iff_getElem.mp h i k (by omega) hk hik
    · obtain rfl : i = k := by omega
      exact le_refl _
  have hcount := (List.take_sublist (k + 1) values).countP_le
    (p := passes (Elementary.sqrt options.minReciprocalCondition) (values.headD 0))
  rw [List.countP_eq_length.mpr hfront, List.length_take] at hcount
  rw [leading_eq_passing h]
  unfold passing
  omega

/-- The directions that are positive and large enough are the leading ones. -/
theorem mem_significant_iff {s : Singular K} (h : s.values.Pairwise fun x y => y ≤ x)
    (hlimit : 0 < Elementary.sqrt options.minReciprocalCondition) {k : Nat} :
    k ∈ s.significant (Elementary.sqrt options.minReciprocalCondition) ↔
      k < leading options s.values := by
  rw [Singular.significant, Finset.mem_filter, Finset.mem_range]
  rcases Nat.lt_or_ge k s.values.length with hk | hk
  · have hfirst : s.values.headD 0 = s.value 0 := by
      cases hvalues : s.values <;> simp [Singular.value, hvalues]
    have hle : s.value k ≤ s.value 0 := by
      have h0 : 0 < s.values.length := by omega
      rw [Singular.value, Singular.value, List.getD_eq_getElem s.values 0 hk,
        List.getD_eq_getElem s.values 0 h0]
      rcases Nat.eq_zero_or_pos k with rfl | hpos
      · exact le_refl _
      · exact List.pairwise_iff_getElem.mp h 0 k h0 hk hpos
    rw [lt_leading_iff h hk, hfirst, ← Singular.value, le_ratio_iff hlimit hle]
    exact and_iff_right hk
  · have hle := leading_le options s.values
    exact iff_of_false (fun hlt => by omega) (by omega)

/-- Automatic truncation gives the directions that are positive and large enough the reciprocals of
their squared singular values, and nothing to the others. -/
theorem weights_of_significant {s : Singular K} (h : s.values.Pairwise fun x y => y ≤ x)
    (hrank : options.nullSpaceRank < 0)
    (hlimit : 0 < Elementary.sqrt options.minReciprocalCondition) :
    ∃ weights, Truncation.weights options s.values = some weights ∧
      ∀ k, weights.getD k 0 =
        if k ∈ s.significant (Elementary.sqrt options.minReciprocalCondition) then
          1 / (s.value k * s.value k) else 0 := by
  refine ⟨_, weights_of_neg h hrank, fun k => ?_⟩
  rw [← leading_eq_passing h]
  simp only [mem_significant_iff h hlimit]
  split
  · rename_i hk
    exact getD_keeping_of_lt hk (leading_le options s.values)
  · rename_i hk
    exact getD_keeping_of_le s.values (not_lt.mp hk)

end Truncation

/-! ## What is formed -/

/-- What is formed with weights is the sum over the directions. -/
theorem Truncation.of_inverse [LinearOrder K] [IsStrictOrderedRing K] (s : Singular K)
    (weights : List K) (n : Nat) :
    (Matrix.of fun i j : Fin n => inverse weights.toArray s.right i j) =
      s.weighted weights.length n fun k => weights.getD k 0 := by
  ext i j
  rw [of_apply, inverse_eq_entryAt s weights i.isLt j.isLt, entryAt_of_lt _ i.isLt j.isLt]

/-- What is stored at the places of a row are the entries at their columns. -/
theorem Truncation.read_gather {α : Type} (f : Nat → Nat → α) {p : Pattern} (w : p.WellFormed)
    {n : Nat} (hrows : p.numRows = n) (hcols : p.numCols = n) (i : Fin n) {k : Nat}
    (hk : k ∈ p.positions i) :
    ∃ j : Fin n, p.column k = j ∧ (gather f p)[k]? = some (f i j) := by
  have hi : (i : Nat) < p.numRows := Nat.lt_of_lt_of_eq i.isLt hrows.symm
  have hj : p.column k < n :=
    Nat.lt_of_lt_of_eq (w.column_lt k (w.lt_size_of_mem_positions hi hk)) hcols
  exact ⟨⟨_, hj⟩, rfl, getElem?_gather f w hi hk⟩

namespace Covariance

variable [LinearOrder K] [IsStrictOrderedRing K] [Elementary K] {engine : Engine K}
  {options : Options K} {J : Compressed K} {s : Singular K}

/-- Averaging leaves the values that are formed as they are. -/
theorem estimateValues_eq_gather {weights : List K} (d : s.Decomposes J.toMatrix) {p : Pattern}
    (r : p.Regular) (hrows : p.numRows = J.pattern.numCols)
    (halgorithm : options.algorithm = .denseSvd) (hm : J.pattern.numRows ≠ 0)
    (hn : J.pattern.numCols ≠ 0) (hsingular : engine.singular J.dense = some s)
    (hweights : Truncation.weights options s.values = some weights) :
    (estimateValues engine options J p).answer =
      .ok (some (Truncation.gather (Truncation.inverse weights.toArray s.right) p)) := by
  rw [answer_svd r hrows halgorithm hm hn hsingular d, hweights]
  refine congrArg (fun found => Except.ok (some found)) (Truncation.gather_congr ?_)
  intro i j hij
  have hi : i < J.pattern.numCols := Nat.lt_of_lt_of_eq hij.1 hrows
  have hj : j < J.pattern.numCols := Nat.lt_of_lt_of_eq (r.lt_of_stores hij) hrows
  rw [Truncation.inverse_eq_entryAt s weights hi hj,
    (Truncation.length_weights hweights).trans d.length_values]

/-- **The pseudo-inverse.** With exact decompositions and automatic truncation, every Jacobian gets
weights: the reciprocals of the squared singular values for the directions that are positive and
large enough beside the first one, and nothing for the others. What is formed with them is the
pseudo-inverse of the sum over the kept directions, and that of `J'J`, which has no other one, where
only null directions were dropped. The values for a pattern, averaged or not, are its entries at
their rows and columns. -/
theorem svd_pseudoInverse (exact : engine.DecomposesExactly)
    (sqrt_pos : ∀ x : K, 0 < x → 0 < Elementary.sqrt x)
    (hlimit : 0 < options.minReciprocalCondition) (hrank : options.nullSpaceRank = -1)
    (hsingular : engine.singular J.dense = some s) :
    let n := J.pattern.numCols
    let kept := s.significant (Elementary.sqrt options.minReciprocalCondition)
    let G : Matrix (Fin n) (Fin n) K :=
      ∑ k ∈ kept, (s.value k * s.value k) • vecMulVec (s.direction n k) (s.direction n k)
    ∃ weights, Truncation.weights options s.values = some weights ∧
      (∀ k, weights.getD k 0 = if k ∈ kept then 1 / (s.value k * s.value k) else 0) ∧
      let C : Matrix (Fin n) (Fin n) K :=
        Matrix.of fun i j => Truncation.inverse weights.toArray s.right i j
      IsPseudoInverse G C ∧
      ((∀ k, k < s.values.length → k ∉ kept → s.value k = 0) →
        G = J.normalMatrix ∧ ∀ X, IsPseudoInverse J.normalMatrix X ↔ X = C) ∧
      ∀ p : Pattern, p.WellFormed → p.numRows = n → p.numCols = n →
        ∃ values, (valuesBySvd engine options J.dense p).answer = .ok (some values) ∧
          values.size = p.columns.size ∧
          (∀ (i : Fin n) (k : Nat), k ∈ p.positions i →
            ∃ j : Fin n, p.column k = j ∧ values[k]? = some (C i j)) ∧
          (p.Regular → options.algorithm = .denseSvd → J.pattern.numRows ≠ 0 → n ≠ 0 →
            (estimateValues engine options J p).answer = .ok (some values)) := by
  intro n kept G
  have d : s.Decomposes J.toMatrix := exact.decomposes hsingular
  have hq : s.values.length = min J.pattern.numRows n := d.length_values
  obtain ⟨weights, hweights, hweight⟩ := Truncation.weights_of_significant d.decreasing
    (by omega) (sqrt_pos _ hlimit)
  refine ⟨weights, hweights, hweight, ?_⟩
  intro C
  have hC : C = s.weighted (min J.pattern.numRows n) n fun k =>
      if k ∈ kept then 1 / (s.value k * s.value k) else 0 := by
    refine (Truncation.of_inverse s weights n).trans ?_
    rw [(Truncation.length_weights hweights).trans hq]
    exact s.weighted_congr fun k _ => hweight k
  have hG : G = s.weighted (min J.pattern.numRows n) n fun k =>
      if k ∈ kept then s.value k * s.value k else 0 :=
    (s.weighted_ite (hq ▸ s.significant_subset _) _).symm
  have hinverse : IsPseudoInverse G C := by
    rw [hC, hG]
    exact Singular.isPseudoInverse_kept d.orthonormal fun k hk =>
      ne_of_gt (Singular.value_pos_of_significant hk)
  refine ⟨hinverse, fun hdropped => ?_, fun p w hrows hcols => ?_⟩
  · have hnormal : J.normalMatrix = G :=
      (d.gram_eq_kept fun k hk hnot => hdropped k (hq ▸ hk) hnot).trans hG.symm
    rw [hnormal]
    exact ⟨rfl, fun X => ⟨fun hX => hX.unique hinverse, fun hX => hX ▸ hinverse⟩⟩
  · have hvalues : (valuesBySvd engine options J.dense p).answer =
        .ok (some (Truncation.gather (Truncation.inverse weights.toArray s.right) p)) := by
      simp only [valuesBySvd, hsingular, hweights]
    exact ⟨_, hvalues, Truncation.size_gather _ w,
      fun i k hk => Truncation.read_gather _ w hrows hcols i hk,
      fun r halgorithm hm hn => estimateValues_eq_gather d r hrows halgorithm hm hn hsingular
        hweights⟩

/-- The residuals `8x` and nothing. -/
def flatJacobian : Compressed ℚ := ⟨Pattern.ofRows 2 [[0, 1], [0, 1]], #[8, 0, 0, 0]⟩

/-- The null direction is dropped, and the values for a full pattern are the entries of the
pseudo-inverse of the normal matrix. -/
theorem svd_pseudoInverse_flat :
    ∃ C : Matrix (Fin 2) (Fin 2) ℚ, IsPseudoInverse flatJacobian.normalMatrix C ∧
      C 0 0 = 1 / 64 ∧
      (valuesBySvd Engine.exact ((plain .denseSvd).dropping (-1)).options flatJacobian.dense
        flatJacobian.pattern).answer = .ok (some #[C 0 0, 0, 0, 0]) := by
  have hsingular : (Engine.exact : Engine ℚ).singular flatJacobian.dense =
      some ⟨[8, 0], Dense.ofRows 2 [[1, 0], [0, 1]]⟩ := by cbv
  have hlimit : 0 < ((plain .denseSvd).dropping (-1)).options.minReciprocalCondition := by
    decide +kernel
  obtain ⟨weights, -, -, -, hnormal, hentries⟩ :=
    svd_pseudoInverse Engine.decomposesExactly_exact (fun _ => sqrt_pos_rat) hlimit rfl hsingular
  obtain ⟨-, hunique⟩ := hnormal (by decide +kernel)
  have hvalues : (valuesBySvd Engine.exact ((plain .denseSvd).dropping (-1)).options
      flatJacobian.dense flatJacobian.pattern).answer = .ok (some #[1 / 64, 0, 0, 0]) := by cbv
  obtain ⟨values, hfound, -, hread, -⟩ := hentries flatJacobian.pattern
    (Pattern.wellFormed_ofRows (by decide)) rfl rfl
  rw [hvalues, Except.ok.injEq, Option.some.injEq] at hfound
  subst hfound
  obtain ⟨j, hj, hentry⟩ := hread (0 : Fin 2) 0 (by decide)
  obtain rfl : j = (0 : Fin 2) := Fin.ext hj.symm
  have hfirst := (Option.some.inj hentry).symm
  exact ⟨_, (hunique _).mpr rfl, hfirst, by rw [hfirst]; exact hvalues⟩

end Covariance

end LeastSquares
