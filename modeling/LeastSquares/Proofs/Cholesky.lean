/-
LeastSquares.Proofs.Cholesky — what a library's factorisation of the normal equations tells.

Both libraries are asked for the same thing, a factorisation of `J'J`, and an engine is believed to
give exact ones (`Engine.ExactWith`). Of elimination this is asked outright. Of a Cholesky library
it follows from what its own parts promise (`CholeskyLibrary.Exact`): the factor is a lower triangle
with a positive diagonal whose product with its transpose is the rearranged matrix, and its
triangular systems are solved.

What has to be shown is that the rearrangement is undone in the right direction. A unit lower
triangle and the squares of the diagonal come out of the factor by scaling its columns; and rows
that are taken in some order, solved for and put back solve the system in its own order
(`CholeskyLibrary.Exact.solves`).
-/
import LeastSquares.Covariance
import LeastSquares.Proofs.Factorization

namespace LeastSquares

open Matrix

/-! ## Rows in some order -/

namespace Dense

variable {α : Type} [Zero α]

@[simp] theorem rows_takeRows (order : List Nat) (B : Dense α) :
    (B.takeRows order).rows = order.length := rfl

@[simp] theorem cols_takeRows (order : List Nat) (B : Dense α) :
    (B.takeRows order).cols = B.cols := rfl

theorem get_takeRows {order : List Nat} {B : Dense α} {p k : Nat} (hp : p < order.length)
    (hk : k < B.cols) : (B.takeRows order).get p k = B.get (order.getD p 0) k := by
  rw [takeRows, get_ofFn_of_lt _ hp hk]
  simp [Array.getD_eq_getD_getElem?, List.getD_eq_getElem?_getD]

/-- A row that is put back stands where the order says. -/
theorem get_putRows {order : List Nat} (nodup : order.Nodup) {W : Dense α} {p k : Nat}
    (hp : p < order.length) (hrow : order.getD p 0 < W.rows) (hk : k < W.cols) :
    (W.putRows order).get (order.getD p 0) k = W.get p k := by
  have hget : order.getD p 0 = order[p] := by simp [List.getD_eq_getElem?_getD, hp]
  rw [putRows, get_ofFn_of_lt _ hrow hk, hget, nodup.idxOf_getElem p hp]

end Dense

namespace Cholesky

section Order

variable {α : Type} (c : Cholesky α)

theorem length_order : c.order.length = c.lower.rows := by
  rw [c.perm.length_eq, List.length_range]

theorem nodup_order : c.order.Nodup := c.perm.nodup_iff.mpr List.nodup_range

theorem getElem?_order {p : Nat} (hp : p < c.lower.rows) :
    c.order[p]? = some (c.order.getD p 0) := by
  rw [← c.length_order] at hp
  simp [List.getD_eq_getElem?_getD, hp]

theorem order_lt {p : Nat} (hp : p < c.lower.rows) : c.order.getD p 0 < c.lower.rows :=
  List.mem_range.mp (c.perm.mem_iff.mp (List.mem_of_getElem? (c.getElem?_order hp)))

/-- No row is taken twice. -/
theorem order_injective : Function.Injective fun p : Fin c.lower.rows =>
    (⟨c.order.getD p 0, c.order_lt p.isLt⟩ : Fin c.lower.rows) := by
  intro p q hpq
  have heq : c.order.getD p 0 = c.order.getD q 0 := congrArg Fin.val hpq
  have hsame : c.order[(p : Nat)]? = c.order[(q : Nat)]? := by
    rw [c.getElem?_order p.isLt, c.getElem?_order q.isLt, heq]
  have hp : (p : Nat) < c.order.length := by
    rw [c.length_order]
    exact p.isLt
  exact Fin.ext ((List.getElem?_inj hp c.nodup_order).mp hsame)

/-- The order as a rearrangement of the rows. -/
noncomputable def rearrangement : Equiv.Perm (Fin c.lower.rows) :=
  Equiv.ofBijective _ (Finite.injective_iff_bijective.mp c.order_injective)

end Order

/-! ## Exact factors -/

variable {K : Type} [Field K]

/-- The triangle of a factor. -/
def triangle (c : Cholesky K) : Matrix (Fin c.lower.rows) (Fin c.lower.rows) K :=
  of fun p q => c.lower.get p q

/-- With its rows and columns rearranged, a matrix is a lower triangle with a positive diagonal
times its transpose. -/
structure Factors [LinearOrder K] {n : Nat} (c : Cholesky K) (A : Matrix (Fin n) (Fin n) K) :
    Prop where
  rows_eq : c.lower.rows = n
  above : ∀ p q, p < q → c.lower.get p q = 0
  diagonal_pos : ∀ p, p < n → 0 < c.lower.get p p
  factored : ∀ p q, p < n → q < n →
    ∑ k ∈ Finset.range n, c.lower.get p k * c.lower.get q k =
      entryAt A (c.order.getD p 0) (c.order.getD q 0)

end Cholesky

/-- Solutions of a triangular system: the product with the triangle gives the right sides. -/
def Dense.Solves {K : Type} [Zero K] [Add K] [Mul K] (T B X : Dense K) : Prop :=
  X.rows = T.cols ∧ T.mul X = B

/-- A column of the solution is sent to the same column of the right sides. -/
theorem Dense.Solves.mulVec_eq {K : Type} [Field K] {n : Nat} {T B X : Dense K}
    (h : T.Solves B X) (hrows : T.rows = n) (hcols : T.cols = n) {k : Nat} (hk : k < B.cols) :
    (of fun p q : Fin n => T.get p q) *ᵥ (fun q : Fin n => X.get q k) =
      fun p : Fin n => B.get p k := by
  subst hcols
  obtain ⟨-, rfl⟩ := h
  funext p
  rw [Dense.get_mul T X (by rw [hrows]; exact p.isLt) hk, sumTo_eq_sum, Finset.sum_range]
  rfl

/-- A library whose factors are exact and their triangular systems solved. It may refuse a
matrix. -/
structure CholeskyLibrary.Exact {K : Type} [Field K] [LinearOrder K]
    (library : CholeskyLibrary K) : Prop where
  factors : ∀ J : Compressed K, J.pattern.WellFormed → J.pattern.Ascending → ∀ c,
    library.factor J = .ok c → c.Factors J.normalMatrix
  solves_lower : ∀ J c, library.factor J = .ok c → ∀ B : Dense K, B.rows = c.lower.rows →
    c.lower.Solves B (library.solveLower c.lower B)
  solves_upper : ∀ J c, library.factor J = .ok c → ∀ B : Dense K, B.rows = c.lower.rows →
    c.lower.transpose.Solves B (library.solveUpper c.lower.transpose B)

namespace Cholesky.Factors

variable {K : Type} [Field K] [LinearOrder K] {c : Cholesky K}
  {A : Matrix (Fin c.lower.rows) (Fin c.lower.rows) K}

/-- The triangle times its transpose is the rearranged matrix. -/
theorem triangle_mul_transpose (h : c.Factors A) :
    A.submatrix c.rearrangement c.rearrangement = c.triangle * c.triangleᵀ := by
  ext p q
  have hentry := h.factored p q p.isLt q.isLt
  rw [entryAt_of_lt A (c.order_lt p.isLt) (c.order_lt q.isLt), Finset.sum_range] at hentry
  rw [submatrix_apply, mul_apply]
  exact hentry.symm

theorem diagonal_ne_zero (h : c.Factors A) (p : Fin c.lower.rows) : c.lower.get p p ≠ 0 :=
  ne_of_gt (h.diagonal_pos p p.isLt)

/-- The columns of the triangle, divided by its diagonal, and the rows of its transpose, multiplied
by it, are a factorisation with the pivots on the diagonal of the second factor. -/
theorem exists_unit_lower (h : c.Factors A) :
    ∃ L U : Matrix (Fin c.lower.rows) (Fin c.lower.rows) K,
      L.IsLowerTriangular ∧ (∀ i, L i i = 1) ∧ U.IsUpperTriangular ∧
        A.submatrix c.rearrangement c.rearrangement = L * U ∧
          c.pivots = List.ofFn fun i => U i i := by
  refine ⟨of fun p q => c.lower.get p q / c.lower.get q q,
    of fun p q => c.lower.get p p * c.lower.get q p, ?_, ?_, ?_, ?_, ?_⟩
  · intro p q hpq
    rw [of_apply, h.above p q hpq, zero_div]
  · intro p
    exact div_self (h.diagonal_ne_zero p)
  · intro p q hqp
    rw [of_apply, h.above q p hqp, mul_zero]
  · rw [h.triangle_mul_transpose]
    ext p q
    rw [mul_apply, mul_apply]
    refine Finset.sum_congr rfl fun k _ => ?_
    rw [of_apply, of_apply, ← mul_assoc, div_mul_cancel₀ _ (h.diagonal_ne_zero k)]
    rfl
  · apply List.ext_getElem
    · simp [Cholesky.pivots]
    · intro i hi hi'
      simp [Cholesky.pivots]

end Cholesky.Factors

namespace CholeskyLibrary.Exact

variable {K : Type} [Field K] [LinearOrder K] {library : CholeskyLibrary K} {c : Cholesky K}
  {A : Matrix (Fin c.lower.rows) (Fin c.lower.rows) K}

/-- Rows that are taken in the order of the factor, solved for and put back solve the system. -/
theorem solves (exact : library.Exact) {J : Compressed K} (hc : library.factor J = .ok c)
    (h : c.Factors A) {B : Dense K} (i : Fin c.lower.rows) {k : Nat} (hk : k < B.cols) :
    ∑ j, A i j * (library.solve c B).get j k = B.get i k := by
  have hlower := exact.solves_lower J c hc (B.takeRows c.order) c.length_order
  set W := library.solveLower c.lower (B.takeRows c.order)
  have hWrows : W.rows = c.lower.rows := hlower.1.trans c.square
  have hWcols : W.cols = B.cols := by simpa using congrArg Dense.cols hlower.2
  have hupper := exact.solves_upper J c hc W hWrows
  set V := library.solveUpper c.lower.transpose W
  have hVrows : V.rows = c.lower.rows := hupper.1
  have hVcols : V.cols = B.cols := by simpa [hWcols] using congrArg Dense.cols hupper.2
  let x : Fin c.lower.rows → K := fun j => (library.solve c B).get j k
  -- in the order of the factor the solution is what the triangular systems give
  have hx : x ∘ c.rearrangement = fun p : Fin c.lower.rows => V.get p k := by
    funext p
    have hp : (p : Nat) < c.order.length := c.length_order.symm ▸ p.isLt
    exact Dense.get_putRows c.nodup_order hp (by rw [hVrows]; exact c.order_lt p.isLt)
      (by rw [hVcols]; exact hk)
  have hdown : c.triangle *ᵥ (fun p : Fin c.lower.rows => W.get p k) =
      fun p : Fin c.lower.rows => B.get (c.rearrangement p) k := by
    refine (hlower.mulVec_eq rfl c.square hk).trans (funext fun p => ?_)
    exact Dense.get_takeRows (c.length_order.symm ▸ p.isLt) hk
  have htranspose : c.triangleᵀ = of fun p q : Fin c.lower.rows => c.lower.transpose.get p q := by
    ext p q
    exact (Dense.get_transpose c.lower p q).symm
  have hup : c.triangleᵀ *ᵥ (fun p : Fin c.lower.rows => V.get p k) =
      fun p : Fin c.lower.rows => W.get p k := by
    rw [htranspose]
    exact hupper.mulVec_eq c.square rfl (by rw [hWcols]; exact hk)
  have hsolved : (A *ᵥ x) ∘ c.rearrangement =
      fun p : Fin c.lower.rows => B.get (c.rearrangement p) k := by
    have hmove := submatrix_mulVec_equiv A (x ∘ c.rearrangement) c.rearrangement c.rearrangement
    rw [Function.comp_assoc, Equiv.self_comp_symm, Function.comp_id] at hmove
    rw [← hmove, hx, h.triangle_mul_transpose, ← mulVec_mulVec, hup, hdown]
  have hi := congrFun hsolved (c.rearrangement.symm i)
  rw [Function.comp_apply, Equiv.apply_symm_apply] at hi
  exact hi

/-- **A Cholesky factor is a factorisation.** -/
theorem exact_factorization (exact : library.Exact) {J : Compressed K}
    (hc : library.factor J = .ok c) (h : c.Factors A) : (library.factorization c).Exact A where
  factored := ⟨c.rearrangement, c.rearrangement, h.exists_unit_lower⟩
  solves _ _ _ i _ hk := exact.solves hc h i hk

end CholeskyLibrary.Exact

/-! ## Both libraries -/

namespace Covariance

variable {α : Type} [Zero α] [Add α] [Mul α] {engine : Engine α} {library : Library}
  {J : Compressed α}

/-- Where a factorisation comes from. -/
theorem factorNormal_eq_ok {f : Factorization α} (h : factorNormal engine library J = .ok f) :
    (library = .elimination ∧ engine.factor J.normal = some f) ∨
      (library = .cholesky ∧ ∃ installed c, engine.cholesky = some installed ∧
        installed.factor J = .ok c ∧ f = installed.factorization c) := by
  unfold factorNormal at h
  cases library with
  | elimination =>
    cases hfactor : engine.factor J.normal with
    | none => simp [hfactor] at h
    | some found =>
      simp only [hfactor, Except.ok.injEq] at h
      exact Or.inl ⟨rfl, congrArg some h⟩
  | cholesky =>
    cases hlibrary : engine.cholesky with
    | none => simp [hlibrary] at h
    | some installed =>
      simp only [hlibrary] at h
      cases hfactor : installed.factor J with
      | error reason => simp [hfactor] at h
      | ok c =>
        simp only [hfactor, Except.ok.injEq] at h
        exact Or.inr ⟨rfl, installed, c, rfl, hfactor, h.symm⟩

/-- Why there is none: the library is not there, or it refuses. -/
theorem factorNormal_eq_error {line : Line} (h : factorNormal engine library J = .error line) :
    line = .libraryMissing ∨ ∃ reason, line = .notFactored library.name reason := by
  unfold factorNormal at h
  cases library with
  | elimination =>
    cases hfactor : engine.factor J.normal with
    | some found => simp [hfactor] at h
    | none =>
      simp only [hfactor, Except.error.injEq] at h
      exact Or.inr ⟨_, h.symm⟩
  | cholesky =>
    cases hlibrary : engine.cholesky with
    | none =>
      simp only [hlibrary, Except.error.injEq] at h
      exact Or.inl h.symm
    | some installed =>
      simp only [hlibrary] at h
      cases hfactor : installed.factor J with
      | ok c => simp [hfactor] at h
      | error reason =>
        simp only [hfactor, Except.error.injEq] at h
        exact Or.inr ⟨reason, h.symm⟩

end Covariance

variable {K : Type} [Field K]

/-- An engine whose factorisations of normal equations by some library are exact. It may refuse to
factor them. -/
def Engine.ExactWith (engine : Engine K) (library : Library) : Prop :=
  ∀ J : Compressed K, J.pattern.WellFormed → J.pattern.Ascending → ∀ f,
    Covariance.factorNormal engine library J = .ok f → f.Exact J.normalMatrix

/-- Exact factorisations of symmetric matrices are those of normal equations. -/
theorem Engine.FactorsExactly.exactWith {engine : Engine K} (exact : engine.FactorsExactly) :
    engine.ExactWith .elimination := by
  intro J w a f h
  rcases Covariance.factorNormal_eq_ok h with ⟨-, hfactor⟩ | ⟨hlibrary, -⟩
  · rw [← Compressed.toMatrix_normal w a]
    exact exact _ _ (Compressed.wellFormed_normal w a) (Compressed.size_normal w a) f hfactor
  · cases hlibrary

/-- An engine with an exact Cholesky library, or with none, is exact with it. -/
theorem Engine.exactWith_cholesky [LinearOrder K] {engine : Engine K}
    (exact : ∀ library, engine.cholesky = some library → library.Exact) :
    engine.ExactWith .cholesky := by
  intro J w a f h
  rcases Covariance.factorNormal_eq_ok h with ⟨hlibrary, -⟩ | ⟨-, installed, c, hlibrary, hc, rfl⟩
  · cases hlibrary
  · have hfactors := (exact installed hlibrary).factors J w a c hc
    have hrows := hfactors.rows_eq
    generalize J.normalMatrix = A at hfactors ⊢
    generalize J.pattern.numCols = n at A hrows
    subst hrows
    exact (exact installed hlibrary).exact_factorization hc hfactors

end LeastSquares
