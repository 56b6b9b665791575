/-
LeastSquares.Proofs.Factorization — what an exact factorisation of the normal equations tells.

An engine is asked for a factorisation of a symmetric matrix and believed to give exact ones: a
rearrangement of the rows and columns that is a unit lower triangle times an upper triangle, the
diagonal of which are the pivots, and exact solutions where no pivot is zero
(`Factorization.Exact`). The determinant is then the product of the pivots up to its sign, so

* the matrix is invertible exactly when no pivot is zero (`Exact.isUnit_iff`);
* pivots that pass the test of their ratio are not zero (`ne_zero_of_wellConditioned`), and columns
  of the inverse are what the engine solves for (`Exact.solvesUnits`);
* the columns of `J` are independent exactly when `J'J` is invertible
  (`isUnit_normalMatrix_iff`), so dependent columns never pass the test.
-/
import Mathlib.Algebra.Order.Field.Basic
import Mathlib.LinearAlgebra.Matrix.Block
import Mathlib.LinearAlgebra.Matrix.Rank
import LeastSquares.Engine
import LeastSquares.Proofs.Normal
import LeastSquares.Proofs.Selection

namespace LeastSquares

open Matrix

/-- The entry of a matrix at two numbers; zero outside the matrix. -/
def entryAt {R : Type} [Zero R] {m n : Nat} (M : Matrix (Fin m) (Fin n) R) (i j : Nat) : R :=
  if h : i < m ∧ j < n then M ⟨i, h.1⟩ ⟨j, h.2⟩ else 0

theorem entryAt_of_lt {R : Type} [Zero R] {m n : Nat} (M : Matrix (Fin m) (Fin n) R) {i j : Nat}
    (hi : i < m) (hj : j < n) : entryAt M i j = M ⟨i, hi⟩ ⟨j, hj⟩ := dif_pos ⟨hi, hj⟩

/-- The entries of a symmetric matrix are symmetric. -/
theorem entryAt_comm {R : Type} [Zero R] {n : Nat} {M : Matrix (Fin n) (Fin n) R}
    (hM : M.IsSymm) (i j : Nat) : entryAt M i j = entryAt M j i := by
  unfold entryAt
  by_cases h : i < n ∧ j < n
  · rw [dif_pos h, dif_pos h.symm]
    exact (hM.apply _ _).symm
  · rw [dif_neg h, dif_neg fun h' => h h'.symm]

/-! ## The ratio of the pivots -/

namespace Selective

theorem isNaN_eq_false {α : Type} [BEq α] [LawfulBEq α] (x : α) : isNaN x = false := by
  simp [isNaN]

variable {K : Type} [Field K] [LinearOrder K]

theorem smallest_le {xs : List K} : ∀ x ∈ xs, smallest xs ≤ x := by
  have hfold : ∀ (xs : List K) (m : K),
      let low := xs.foldl
        (fun m y => if isNaN m then m else if isNaN y then y else if y < m then y else m) m
      low ≤ m ∧ ∀ x ∈ xs, low ≤ x := by
    intro xs
    induction xs with
    | nil =>
      intro m
      exact ⟨le_refl m, fun x hx => by cases hx⟩
    | cons y ys ih =>
      intro m
      simp only [List.foldl_cons, isNaN_eq_false, Bool.false_eq_true, if_false]
      obtain ⟨hle, hall⟩ := ih (if y < m then y else m)
      simp only [isNaN_eq_false, Bool.false_eq_true, if_false] at hle hall
      have hm : (if y < m then y else m) ≤ m := by
        split
        · rename_i h
          exact le_of_lt h
        · exact le_refl m
      have hy : (if y < m then y else m) ≤ y := by
        split
        · exact le_refl y
        · rename_i h
          exact not_lt.mp h
      refine ⟨le_trans hle hm, ?_⟩
      intro x hx
      rcases List.mem_cons.mp hx with rfl | hx
      · exact le_trans hle hy
      · exact hall x hx
  cases xs with
  | nil =>
    intro x hx
    cases hx
  | cons y ys =>
    intro x hx
    rcases List.mem_cons.mp hx with rfl | hx
    · exact (hfold ys x).1
    · exact (hfold ys y).2 x hx

/-- Pivots that are far enough from zero are not zero. -/
theorem ne_zero_of_wellConditioned [IsStrictOrderedRing K] {limit : K} {pivots : List K}
    (h : wellConditioned limit pivots = true) : ∀ x ∈ pivots, x ≠ 0 := by
  intro x hx hzero
  have hratio : 0 < pivotRatio pivots := by
    simp only [wellConditioned, Bool.and_eq_true, decide_eq_true_eq] at h
    exact h.1
  simp only [pivotRatio] at hratio
  split at hratio
  · rename_i htop
    have hsmall : 0 < smallest (pivots.map magnitude) := (div_pos_iff_of_pos_right htop).mp hratio
    have hle := smallest_le (magnitude x) (List.mem_map.mpr ⟨x, hx, rfl⟩)
    rw [hzero, magnitude, if_neg (lt_irrefl 0)] at hle
    exact absurd hsmall (not_lt.mpr hle)
  · exact absurd hratio (lt_irrefl 0)

end Selective

variable {K : Type} [Field K]

/-! ## Exact factorisations -/

/-- An exact factorisation with rearranged rows and columns, and exact solutions where no pivot is
zero. -/
structure Factorization.Exact {n : Nat} (f : Factorization K) (A : Matrix (Fin n) (Fin n) K) :
    Prop where
  factored : ∃ (σ τ : Equiv.Perm (Fin n)) (L U : Matrix (Fin n) (Fin n) K),
    L.IsLowerTriangular ∧ (∀ i, L i i = 1) ∧ U.IsUpperTriangular ∧
      A.submatrix σ τ = L * U ∧ f.pivots = List.ofFn fun i => U i i
  solves : (∀ x ∈ f.pivots, x ≠ 0) → ∀ B : Dense K, B.rows = n → ∀ (i : Fin n) (k : Nat),
    k < B.cols → ∑ j, A i j * (f.solve B).get j k = B.get i k

/-- An engine whose factorisations of well-formed symmetric matrices are exact. It may refuse a
matrix. -/
def Engine.FactorsExactly (engine : Engine K) : Prop :=
  ∀ (A : Symmetric K) (n : Nat), A.WellFormed → A.size = n → ∀ f, engine.factor A = some f →
    f.Exact (A.toMatrix n)

namespace Factorization.Exact

variable {n : Nat} {f : Factorization K} {A : Matrix (Fin n) (Fin n) K}

/-- A matrix with an exact factorisation is invertible exactly when no pivot is zero. -/
theorem isUnit_iff (e : f.Exact A) : IsUnit A ↔ ∀ x ∈ f.pivots, x ≠ 0 := by
  obtain ⟨σ, τ, L, U, hlower, hunit, hupper, hfactored, hpivots⟩ := e.factored
  have hL : L.det = 1 := by
    rw [det_of_isLowerTriangular L hlower]
    simp [hunit]
  have hU : U.det = ∏ i, U i i := det_of_isUpperTriangular hupper
  -- rearranging rows and columns changes the determinant by a sign only
  have hdet : (A.submatrix σ τ).det = Equiv.Perm.sign σ * (Equiv.Perm.sign τ * A.det) := by
    have hsplit : A.submatrix σ τ = (A.submatrix id τ).submatrix σ id := rfl
    rw [hsplit, det_permute, det_permute']
  have hsign : ∀ π : Equiv.Perm (Fin n), ((Equiv.Perm.sign π : ℤˣ) : K) ≠ 0 := by
    intro π
    rcases Int.units_eq_one_or (Equiv.Perm.sign π) with h | h
    · simp [h]
    · simp [h]
  have hzero : A.det = 0 ↔ ∃ i, U i i = 0 := by
    have hproduct : (A.submatrix σ τ).det = ∏ i, U i i := by
      rw [hfactored, det_mul, hL, one_mul, hU]
    rw [hdet] at hproduct
    constructor
    · intro h
      rw [h, mul_zero, mul_zero] at hproduct
      obtain ⟨i, _, hi⟩ := Finset.prod_eq_zero_iff.mp hproduct.symm
      exact ⟨i, hi⟩
    · rintro ⟨i, hi⟩
      have hnull : ∏ i, U i i = 0 := Finset.prod_eq_zero (Finset.mem_univ i) hi
      rw [hnull] at hproduct
      have h := (mul_eq_zero.mp hproduct).resolve_left (hsign σ)
      exact (mul_eq_zero.mp h).resolve_left (hsign τ)
  rw [isUnit_iff_isUnit_det, isUnit_iff_ne_zero, Ne, hzero, hpivots]
  constructor
  · intro h x hx hxzero
    obtain ⟨i, rfl⟩ := List.mem_ofFn.mp hx
    exact h ⟨i, hxzero⟩
  · rintro h ⟨i, hi⟩
    exact h _ (List.mem_ofFn.mpr ⟨i, rfl⟩) hi

/-- The solutions for unit columns are the columns of the inverse. -/
theorem solvesUnits (e : f.Exact A) (hsymm : A.IsSymm) (hpivots : ∀ x ∈ f.pivots, x ≠ 0) :
    Selective.SolvesUnits f.solve n (entryAt A⁻¹) := by
  intro rows hrows k r hk c hc
  have hr := hrows r (List.mem_of_getElem? hk)
  have hlen : k < rows.length := by
    obtain ⟨h, _⟩ := List.getElem?_eq_some_iff.mp hk
    exact h
  let x : Fin n → K := fun j => (f.solve (Selective.unitColumns n rows)).get j k
  have hunit : A *ᵥ x = Pi.single ⟨r, hr⟩ 1 := by
    funext i
    have hsolved := e.solves hpivots (Selective.unitColumns n rows) rfl i k hlen
    rw [Selective.get_unitColumns hk i.isLt] at hsolved
    rw [mulVec, dotProduct]
    refine hsolved.trans ?_
    rw [Pi.single_apply]
    simp only [Fin.ext_iff]
  have hdet : IsUnit A.det := (isUnit_iff_isUnit_det A).mp (e.isUnit_iff.mpr hpivots)
  have hx : x = A⁻¹ *ᵥ Pi.single ⟨r, hr⟩ 1 := by
    rw [← hunit, mulVec_mulVec, nonsing_inv_mul A hdet, one_mulVec]
  have hinv : A⁻¹.IsSymm := by
    rw [IsSymm, transpose_nonsing_inv, hsymm.eq]
  calc (f.solve (Selective.unitColumns n rows)).get c k = x ⟨c, hc⟩ := rfl
    _ = A⁻¹ ⟨c, hc⟩ ⟨r, hr⟩ := by rw [hx, mulVec_single_one]; rfl
    _ = A⁻¹ ⟨r, hr⟩ ⟨c, hc⟩ := (hinv.apply _ _).symm
    _ = entryAt A⁻¹ r c := (entryAt_of_lt _ hr hc).symm

end Factorization.Exact

/-! ## Independent columns -/

/-- A transpose times its matrix is invertible exactly when the matrix is injective. -/
theorem isUnit_transpose_mul_self_iff [LinearOrder K] [IsStrictOrderedRing K] {m p : Type}
    [Fintype m] [Fintype p] [DecidableEq p] (G : Matrix m p K) :
    IsUnit (Gᵀ * G) ↔ Function.Injective G.mulVec := by
  have hker := ker_mulVecLin_transpose_mul_self G
  rw [← mulVec_injective_iff_isUnit, ← coe_mulVecLin, ← coe_mulVecLin, ← LinearMap.ker_eq_bot,
    ← LinearMap.ker_eq_bot, hker]

namespace Compressed

theorem isSymm_normalMatrix (J : Compressed K) : J.normalMatrix.IsSymm := by
  rw [IsSymm, normalMatrix, transpose_mul, transpose_transpose]

/-- The normal matrix is invertible exactly when the columns are independent. -/
theorem isUnit_normalMatrix_iff [LinearOrder K] [IsStrictOrderedRing K] (J : Compressed K) :
    IsUnit J.normalMatrix ↔ LinearIndependent K J.toMatrix.col := by
  rw [normalMatrix, isUnit_transpose_mul_self_iff, mulVec_injective_iff]

end Compressed

end LeastSquares
