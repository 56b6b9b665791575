/-
LeastSquares.Proofs.Rational — engines that are exact.

What is assumed of an engine is met by engines that compute over an ordered field. Elimination
without row exchanges is exact (`Symmetric.exact_factorization`); a matrix that is zero away from
its diagonal, with a falling diagonal, is its own singular value decomposition
(`decomposes_ofDiagonal`), and no other matrix is decomposed here. `Engine.exact` is the engine of
these two, and `Engine.installed` has a Cholesky library for diagonal normal equations as well. Over
the rational numbers, where a square has its root, everything can be computed; the problems of one
block at the end are what results about engines are tried on.
-/
import Mathlib.Algebra.Field.Rat
import Mathlib.Algebra.Order.Ring.Rat
import Mathlib.Computability.Primrec.List
import Mathlib.Data.Rat.Sqrt
import LeastSquares.Proofs.Elimination
import LeastSquares.Proofs.Estimation

namespace LeastSquares

open Matrix

/-- The root of a rational number is exact where there is one. The functions that are not rational
are not used. -/
instance : Elementary ℚ where
  sqrt := Rat.sqrt
  sin _ := 0
  cos _ := 0
  exp _ := 0
  log _ := 0
  log1p _ := 0
  tanh _ := 0
  atan2 _ _ := 0
  pi := 0
  smallestNormal := 0
  flush := id

/-- The root of a positive rational number is positive. -/
theorem sqrt_pos_rat {x : ℚ} (h : 0 < x) : 0 < Elementary.sqrt x := by
  have hnum : 0 < x.num := Rat.num_pos.mpr h
  have hroot : 0 < Int.sqrt x.num := by
    obtain ⟨k, hk⟩ : ∃ k : Nat, x.num = k := ⟨x.num.toNat, by omega⟩
    rw [hk, Int.sqrt_natCast]
    have : 0 < Nat.sqrt k := Nat.sqrt_pos.mpr (by omega)
    omega
  show 0 < Rat.sqrt x
  unfold Rat.sqrt
  rw [Rat.mkRat_eq_div]
  exact div_pos (by exact_mod_cast hroot) (by exact_mod_cast Nat.sqrt_pos.mpr x.den_pos)

variable {K : Type} [Field K]

namespace Singular

/-- The axes of a space, as far as they go, are perpendicular. -/
theorem axes_mul_transpose {q n : Nat} (h : q ≤ n) :
    (Matrix.of fun (k : Fin q) (i : Fin n) => if (k : Nat) = i then (1 : K) else 0) *
      (Matrix.of fun (k : Fin q) (i : Fin n) => if (k : Nat) = i then (1 : K) else 0)ᵀ = 1 := by
  ext k l
  rw [mul_apply, Finset.sum_eq_single ⟨k, by omega⟩]
  · rw [of_apply, transpose_apply, of_apply, if_pos rfl, one_mul, one_apply]
    simp only [Fin.ext_iff, eq_comm]
  · intro i _ hi
    have hne : ¬ (k : Nat) = i := fun heq => hi (Fin.ext heq.symm)
    rw [of_apply, if_neg hne, zero_mul]
  · intro hmem
    exact absurd (Finset.mem_univ _) hmem

variable [LinearOrder K]

/-- The diagonal of a matrix, as far as it goes. -/
def diagonalOf (A : Dense K) : List K := (List.range (min A.rows A.cols)).map fun k => A.get k k

/-- A falling diagonal without negative numbers, and nothing beside it. -/
def IsFalling (A : Dense K) : Prop :=
  (∀ i, i < A.rows → ∀ j, j < A.cols → i ≠ j → A.get i j = 0) ∧
    (∀ x ∈ diagonalOf A, 0 ≤ x) ∧ (diagonalOf A).Pairwise fun x y => y ≤ x

instance (A : Dense K) : Decidable (IsFalling A) :=
  inferInstanceAs (Decidable ((∀ i, i < A.rows → ∀ j, j < A.cols → i ≠ j → A.get i j = 0) ∧
    (∀ x ∈ diagonalOf A, 0 ≤ x) ∧ (diagonalOf A).Pairwise fun x y => y ≤ x))

/-- The decomposition of a matrix that is one already: its singular vectors are axes. -/
def ofDiagonal (A : Dense K) : Option (Singular K) :=
  if IsFalling A then
    some
      { values := diagonalOf A
        right := Dense.ofFn (min A.rows A.cols) A.cols fun k i => if k = i then 1 else 0 }
  else none

/-- A falling diagonal is decomposed exactly. -/
theorem decomposes_ofDiagonal {A : Dense K} {s : Singular K} (h : ofDiagonal A = some s) :
    s.Decomposes A.toMatrix := by
  unfold ofDiagonal at h
  split at h
  · rename_i hfalling
    obtain ⟨hzero, hnonneg, hpairwise⟩ := hfalling
    cases h
    have hvalue : ∀ k, k < min A.rows A.cols → (diagonalOf A).getD k 0 = A.get k k := by
      intro k hk
      simp [diagonalOf, List.getD_eq_getElem?_getD, hk]
    have hright : (Singular.mk (diagonalOf A) (Dense.ofFn (min A.rows A.cols) A.cols
        fun k i => if k = i then 1 else 0)).rightMatrix (min A.rows A.cols) A.cols =
        Matrix.of fun (k : Fin (min A.rows A.cols)) (i : Fin A.cols) =>
          if (k : Nat) = i then (1 : K) else 0 := by
      ext k i
      exact Dense.get_ofFn_of_lt _ k.isLt i.isLt
    refine
      { length_values := by simp [diagonalOf]
        rows_right := rfl
        cols_right := rfl
        decreasing := hpairwise
        nonneg := hnonneg
        orthonormal := ?_
        factored := ?_ }
    · rw [hright]
      exact axes_mul_transpose (Nat.min_le_right _ _)
    · refine ⟨(Matrix.of fun (k : Fin (min A.rows A.cols)) (i : Fin A.rows) =>
        if (k : Nat) = i then (1 : K) else 0)ᵀ, ?_, ?_⟩
      · rw [transpose_transpose]
        exact axes_mul_transpose (Nat.min_le_left _ _)
      · rw [hright]
        ext i j
        rw [mul_apply]
        show A.get i j = _
        by_cases hij : (i : Nat) = j
        · have hlt : (i : Nat) < min A.rows A.cols := by omega
          rw [Finset.sum_eq_single ⟨i, hlt⟩]
          · rw [mul_diagonal, transpose_apply, of_apply, of_apply, if_pos rfl, if_pos hij,
              one_mul, mul_one, ← hij]
            exact (hvalue i hlt).symm
          · intro k _ hk
            have hne : ¬ (k : Nat) = i := fun heq => hk (Fin.ext heq)
            rw [mul_diagonal, transpose_apply, of_apply, if_neg hne, zero_mul, zero_mul]
          · intro hmem
            exact absurd (Finset.mem_univ _) hmem
        · rw [hzero i i.isLt j j.isLt hij]
          refine (Finset.sum_eq_zero fun k _ => ?_).symm
          rw [mul_diagonal, transpose_apply, of_apply, of_apply]
          by_cases hki : (k : Nat) = i
          · rw [if_neg (fun hkj => hij (hki.symm.trans hkj)), mul_zero]
          · rw [if_neg hki, zero_mul, zero_mul]
  · cases h

end Singular

variable [LinearOrder K]

/-- Falling diagonals, elimination without row exchanges, no Cholesky factorisations, and threads run
in order. Numbers are not printed. -/
def Engine.exact : Engine K where
  schedule := .inOrder
  singular := Singular.ofDiagonal
  factor := Symmetric.factorization
  cholesky := none
  scientific _ := ""

theorem Engine.factorsExactly_exact : (Engine.exact : Engine K).FactorsExactly :=
  fun _ _ w hsize _ h => Symmetric.exact_factorization hsize w h

theorem Engine.decomposesExactly_exact : (Engine.exact : Engine K).DecomposesExactly :=
  fun _ _ h => Singular.decomposes_ofDiagonal h

/-! ## A Cholesky library

Where the normal equations have squares of rational numbers on the diagonal and nothing beside it,
their factor has the roots on the diagonal. The rows are taken in the opposite order, as far as that
may be from what a library would choose. -/

namespace Compressed

/-- The root of an entry on the diagonal of the normal matrix. -/
def root (J : Compressed ℚ) (i : Nat) : ℚ := Elementary.sqrt (J.normal.get i i)

/-- Are the normal equations the squares of a diagonal of positive roots? -/
def HasRoots (J : Compressed ℚ) : Prop :=
  ∀ i, i < J.pattern.numCols → 0 < J.root i ∧ ∀ j, j < J.pattern.numCols →
    J.normal.get i j = if i = j then J.root i * J.root i else 0

instance (J : Compressed ℚ) : Decidable J.HasRoots :=
  inferInstanceAs (Decidable (∀ i, i < J.pattern.numCols → 0 < J.root i ∧
    ∀ j, j < J.pattern.numCols → J.normal.get i j = if i = j then J.root i * J.root i else 0))

/-- The diagonal of the roots, for the rows in the opposite order. -/
def reversedRoots (J : Compressed ℚ) : Cholesky ℚ where
  lower := Dense.ofFn J.pattern.numCols J.pattern.numCols fun p q =>
    if p = q then J.root (J.pattern.numCols - 1 - p) else 0
  order := (List.range J.pattern.numCols).reverse
  square := rfl
  perm := List.reverse_perm _

theorem get_reversedRoots (J : Compressed ℚ) {p q : Nat} (hp : p < J.pattern.numCols)
    (hq : q < J.pattern.numCols) : J.reversedRoots.lower.get p q =
      if p = q then J.root (J.pattern.numCols - 1 - p) else 0 :=
  Dense.get_ofFn_of_lt _ hp hq

theorem getD_order_reversedRoots (J : Compressed ℚ) {p : Nat} (hp : p < J.pattern.numCols) :
    J.reversedRoots.order.getD p 0 = J.pattern.numCols - 1 - p := by
  simp [reversedRoots, List.getD_eq_getElem?_getD, hp]

/-- The roots are a factor of the normal equations. -/
theorem factors_reversedRoots {J : Compressed ℚ} (w : J.pattern.WellFormed)
    (a : J.pattern.Ascending) (h : J.HasRoots) : J.reversedRoots.Factors J.normalMatrix where
  rows_eq := rfl
  above p q hpq := by
    simp only [reversedRoots, Dense.get_ofFn, if_neg (Nat.ne_of_lt hpq), ite_self]
  diagonal_pos p hp := by
    rw [J.get_reversedRoots hp hp, if_pos rfl]
    exact (h _ (by omega)).1
  factored p q hp hq := by
    have hlt : ∀ r, r < J.pattern.numCols → J.pattern.numCols - 1 - r < J.pattern.numCols := by
      omega
    rw [J.getD_order_reversedRoots hp, J.getD_order_reversedRoots hq,
      entryAt_of_lt _ (hlt p hp) (hlt q hq), ← toMatrix_normal w a, Symmetric.toMatrix_apply,
      (h _ (hlt p hp)).2 _ (hlt q hq), Finset.sum_eq_single p]
    · rw [J.get_reversedRoots hp hp, J.get_reversedRoots hq hp, if_pos rfl]
      by_cases hpq : p = q
      · rw [if_pos hpq.symm, if_pos (by rw [hpq]), hpq]
      · rw [if_neg (Ne.symm hpq), if_neg (by omega), mul_zero]
    · intro k hk hne
      rw [J.get_reversedRoots hp (Finset.mem_range.mp hk), if_neg (Ne.symm hne), zero_mul]
    · intro hmem
      exact absurd (Finset.mem_range.mpr hp) hmem

end Compressed

/-- The right sides, divided by a diagonal. -/
def Dense.divided (T B : Dense ℚ) : Dense ℚ :=
  Dense.ofFn T.cols B.cols fun p k => B.get p k / T.get p p

/-- Dividing by it solves a diagonal system. -/
theorem Dense.solves_divided {T B : Dense ℚ} (hsquare : T.cols = T.rows) (hrows : B.rows = T.rows)
    (hzero : ∀ p q, p < T.rows → q < T.rows → p ≠ q → T.get p q = 0)
    (hne : ∀ p, p < T.rows → T.get p p ≠ 0) : T.Solves B (T.divided B) := by
  refine ⟨rfl, Dense.ext_get hrows.symm rfl fun p k hp hk => ?_⟩
  have hpcols : p < T.cols := by
    rw [hsquare]
    exact hp
  rw [get_mul T (T.divided B) hp hk, sumTo_eq_sum, Finset.sum_eq_single p]
  · have hk : k < B.cols := hk
    rw [divided, get_ofFn_of_lt _ hpcols hk, mul_div_cancel₀ _ (hne p hp)]
  · intro q hq hqp
    have hq : q < T.rows := by
      rw [← hsquare]
      exact Finset.mem_range.mp hq
    rw [hzero p q hp hq (Ne.symm hqp), zero_mul]
  · intro hmem
    exact absurd (Finset.mem_range.mpr hpcols) hmem

/-- The library of these factors. -/
def CholeskyLibrary.diagonal : CholeskyLibrary ℚ where
  factor J := if J.HasRoots then .ok J.reversedRoots else .error "the matrix has no rational roots"
  solveLower := Dense.divided
  solveUpper := Dense.divided

theorem CholeskyLibrary.diagonal_factor_eq_ok {J : Compressed ℚ} {c : Cholesky ℚ}
    (h : CholeskyLibrary.diagonal.factor J = .ok c) : J.HasRoots ∧ c = J.reversedRoots := by
  simp only [diagonal] at h
  split at h
  · exact ⟨‹_›, (Except.ok.inj h).symm⟩
  · cases h

theorem CholeskyLibrary.exact_diagonal : CholeskyLibrary.diagonal.Exact where
  factors J w a c h := by
    obtain ⟨hroots, rfl⟩ := diagonal_factor_eq_ok h
    exact Compressed.factors_reversedRoots w a hroots
  solves_lower J c h B hB := by
    obtain ⟨hroots, rfl⟩ := diagonal_factor_eq_ok h
    refine Dense.solves_divided rfl hB (fun p q hp hq hpq => ?_) fun p hp => ?_
    · rw [J.get_reversedRoots hp hq, if_neg hpq]
    · rw [J.get_reversedRoots hp hp, if_pos rfl]
      exact ne_of_gt (hroots _ (by have : p < J.pattern.numCols := hp; omega)).1
  solves_upper J c h B hB := by
    obtain ⟨hroots, rfl⟩ := diagonal_factor_eq_ok h
    refine Dense.solves_divided rfl hB (fun p q hp hq hpq => ?_) fun p hp => ?_
    · rw [Dense.get_transpose, J.get_reversedRoots hq hp, if_neg (Ne.symm hpq)]
    · rw [Dense.get_transpose, J.get_reversedRoots hp hp, if_pos rfl]
      exact ne_of_gt (hroots _ (by have : p < J.pattern.numCols := hp; omega)).1

/-- The exact engine with this library installed. -/
def Engine.installed : Engine ℚ := { Engine.exact with cholesky := some .diagonal }

theorem Engine.exactWith_installed (library : Library) : Engine.installed.ExactWith library := by
  cases library with
  | elimination =>
    have exact : Engine.installed.FactorsExactly := Engine.factorsExactly_exact
    exact exact.exactWith
  | cholesky =>
    exact exactWith_cholesky fun _ h => Option.some.inj h ▸ CholeskyLibrary.exact_diagonal

/-! ## Problems of one block

A block of two parameters, with residuals whose Jacobian is given entry by entry. The columns and
the plan of such a problem do not depend on its residuals. -/

namespace Covariance

/-- One block of two parameters and `m` residuals with a given Jacobian. -/
def oneBlock (m : Nat) (J : Array ℚ) : Problem ℚ where
  blocks := #[{ values := #[0, 0] }]
  residuals := #[⟨[0], [.integer 0],
    ⟨fun _ => .ok (Array.replicate m 0), fun _ => .ok [⟨[m, 2], J⟩], none⟩⟩]

/-- The block with itself. -/
def itself : List Item := [.atom (.integer 0)]

/-- The plan of the block with itself. -/
def oneBlockPlan : Plan := Plan.ofPairs ⟨#[⟨0, 2⟩], 2, true⟩ [(0, 0)]

theorem planOf_oneBlock (m : Nat) (J : Array ℚ) :
    planOf (oneBlock m J) itself = .ok oneBlockPlan := by
  have hpairs : Request.pairs itself = .ok [(0, 0)] := by cbv
  have haccept : Plan.accept (oneBlock m J) (itemsOf [(0, 0)]) = .ok [(0, 0)] := by cbv
  have hbounds : ColumnBounds.make (oneBlock m J) true = ⟨#[⟨0, 2⟩], 2, true⟩ := by cbv
  have hcheck : (ColumnBounds.mk #[⟨0, 2⟩] 2 true).check = .ok () := by
    simp [ColumnBounds.check, Extent.check, Extent.bytes, Extent.maxBytes]
  exact planOf_eq hpairs haccept hbounds hcheck

/-- A covariance on one thread that drops no direction and takes ratios from a quarter on. -/
def plain (algorithm : Algorithm) : Covariance ℚ :=
  .ofOptions ⟨algorithm, .elimination, 1 / 16, 0, 1, false⟩

/-- A problem of one block is prepared as soon as its Jacobian is known. -/
theorem prepared_oneBlock {m : Nat} {data : Array ℚ} {J : Compressed ℚ} (algorithm : Algorithm)
    (h : ((oneBlock m data).jacobian .inOrder oneBlockPlan.bounds false 1).answer = .ok J) :
    Prepared Engine.exact (plain algorithm).options (oneBlock m data) itself oneBlockPlan J where
  planned := planOf_oneBlock m data
  free := by
    refine ⟨0, 0, ⟨[(0, 0)], by cbv, Or.inl List.mem_cons_self⟩, ?_, ?_⟩ <;> decide
  jacobian := h

/-- The residuals `2x` and `y` have the Jacobian that is given for them. -/
theorem prepared_square (algorithm : Algorithm) :
    Prepared Engine.exact (plain algorithm).options (oneBlock 2 #[2, 0, 0, 1]) itself oneBlockPlan
      ⟨Pattern.ofRows 2 [[0, 1], [0, 1]], #[2, 0, 0, 1]⟩ :=
  prepared_oneBlock algorithm (by cbv)

/-- Both algorithms succeed on the residuals `2x` and `y`. -/
theorem answer_square (algorithm : Algorithm) :
    (compute Engine.exact (plain algorithm) (oneBlock 2 #[2, 0, 0, 1]) itself).answer =
      .ok true := by
  have hvalues : (estimateValues Engine.exact (plain algorithm).options
      ⟨Pattern.ofRows 2 [[0, 1], [0, 1]], #[2, 0, 0, 1]⟩ oneBlockPlan.pattern).answer =
        .ok (some #[1 / 4, 0, 0, 1]) := by
    cases algorithm <;> cbv
  rw [(prepared_square algorithm).compute_eq.1, hvalues]
  rfl

/-! ### With the Cholesky library -/

/-- The same with the other library for normal equations. -/
def plainCholesky (algorithm : Algorithm) : Covariance ℚ :=
  .ofOptions { (plain algorithm).options with library := .cholesky }

/-- The Jacobian of the residuals `2x` and `y`. -/
def squareJacobian : Compressed ℚ := ⟨Pattern.ofRows 2 [[0, 1], [0, 1]], #[2, 0, 0, 1]⟩

/-- The roots of its normal equations are two and one. -/
theorem hasRoots_squareJacobian : squareJacobian.HasRoots := by
  intro i hi
  have hi : i < 2 := hi
  rcases (show i = 0 ∨ i = 1 by omega) with rfl | rfl
  all_goals
    refine ⟨by cbv, fun j hj => ?_⟩
    have hj : j < 2 := hj
    rcases (show j = 0 ∨ j = 1 by omega) with rfl | rfl <;> cbv

theorem factorNormal_squareJacobian :
    factorNormal Engine.installed .cholesky squareJacobian =
      .ok (CholeskyLibrary.diagonal.factorization squareJacobian.reversedRoots) := by
  simp only [factorNormal, Engine.installed, CholeskyLibrary.diagonal,
    if_pos hasRoots_squareJacobian]

theorem values_squareJacobian :
    values Engine.installed (plainCholesky .sparseQr).options squareJacobian
      oneBlockPlan.pattern = { answer := .ok (some #[1 / 4, 0, 0, 1]), state := () } := by
  have halgorithm : (plainCholesky .sparseQr).options.algorithm = .sparseQr := rfl
  have hlibrary : (plainCholesky .sparseQr).options.library = .cholesky := rfl
  rw [values, halgorithm]
  dsimp only
  rw [valuesByFactor, hlibrary, factorNormal_squareJacobian]
  cbv

/-- Both algorithms succeed with that library, too. -/
theorem answer_square_installed (algorithm : Algorithm) :
    (compute Engine.installed (plainCholesky algorithm) (oneBlock 2 #[2, 0, 0, 1]) itself).answer =
      .ok true := by
  have prepared : Prepared Engine.installed (plainCholesky algorithm).options
      (oneBlock 2 #[2, 0, 0, 1]) itself oneBlockPlan squareJacobian :=
    ⟨(prepared_square algorithm).planned, (prepared_square algorithm).free,
      (prepared_square algorithm).jacobian⟩
  have hvalues : (estimateValues Engine.installed (plainCholesky algorithm).options
      squareJacobian oneBlockPlan.pattern).answer = .ok (some #[1 / 4, 0, 0, 1]) := by
    cases algorithm with
    | denseSvd => cbv
    | sparseQr =>
      rw [estimateValues, values_squareJacobian]
      cbv
  rw [prepared.compute_eq.1, hvalues]
  rfl

end Covariance

end LeastSquares
