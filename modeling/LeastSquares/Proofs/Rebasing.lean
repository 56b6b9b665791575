/-
LeastSquares.Proofs.Rebasing — the covariance of the parameters does not know the tangent basis.

A manifold chooses a basis of its tangent space, and its Jacobian has the basis for its columns.
Change the basis of some blocks by a matrix `T` each (`Problem.Rebased`): their Jacobians are
multiplied by `T` from the right. The Jacobians of the residual blocks are projected, so they are
multiplied by `T` too (`Problem.Rebased.entryOf_eq`), and the normal matrix becomes `T'NT`
(`Problem.Rebased.gram_eq`), where `T` stands on the diagonal for all blocks. Its inverse `C'` gives
the first one back, `C = TC'T'` (`inv_congruence`). Since the same Jacobian is used for lifting,
`PCP' = (PT)C'(PT)'` is the same matrix for both (`Covariance.ambient_of_rebased`).

Nothing has to be known about `T` but its size: that it is invertible follows from both computations
having succeeded.
-/
import LeastSquares.Proofs.Blockwise
import LeastSquares.Proofs.Likeness
import LeastSquares.Proofs.Positivity

namespace LeastSquares

open Matrix

/-! ## Products -/

namespace Dense

variable {K : Type} [Field K]

theorem mul_mul {A B : Dense K} (C : Dense K) (h : A.cols = B.rows) :
    (A.mul B).mul C = A.mul (B.mul C) := by
  refine ext_get rfl rfl fun i j hi hj => ?_
  have hi : i < A.rows := hi
  have hj : j < C.cols := hj
  rw [get_mul (A.mul B) C hi hj, get_mul A (B.mul C) hi hj, sumTo_eq_sum, sumTo_eq_sum, cols_mul]
  have hleft : ∀ k ∈ Finset.range B.cols, (A.mul B).get i k * C.get k j =
      ∑ l ∈ Finset.range A.cols, A.get i l * B.get l k * C.get k j := fun k hk => by
    rw [get_mul A B hi (Finset.mem_range.mp hk), sumTo_eq_sum, Finset.sum_mul]
  have hright : ∀ l ∈ Finset.range A.cols, A.get i l * (B.mul C).get l j =
      ∑ k ∈ Finset.range B.cols, A.get i l * B.get l k * C.get k j := fun l hl => by
    rw [get_mul B C (by rw [← h]; exact Finset.mem_range.mp hl) hj, sumTo_eq_sum, Finset.mul_sum]
    simp only [mul_assoc]
  rw [Finset.sum_congr rfl hleft, Finset.sum_congr rfl hright, Finset.sum_comm]

theorem transpose_mul {A B : Dense K} (h : A.cols = B.rows) :
    (A.mul B).transpose = B.transpose.mul A.transpose := by
  refine ext_get rfl rfl fun i j hi hj => ?_
  have hi : i < B.cols := hi
  have hj : j < A.rows := hj
  rw [get_transpose, get_mul A B hj hi, get_mul B.transpose A.transpose hi hj, sumTo_eq_sum,
    sumTo_eq_sum, cols_transpose, h]
  refine Finset.sum_congr rfl fun k _ => ?_
  rw [get_transpose, get_transpose, mul_comm]

/-- A matrix between products is the inner product between the outer factors. -/
theorem sandwich_mul {P S B Q T : Dense K} (hP : P.cols = S.rows)
    (hQ : Q.cols = T.rows) (hT : T.cols = B.cols) :
    sandwich (P.mul S) B (Q.mul T) = sandwich P (sandwich S B T) Q := by
  calc ((P.mul S).mul B).mul (Q.mul T).transpose
      = (P.mul (S.mul B)).mul (T.transpose.mul Q.transpose) := by
        rw [mul_mul B hP, transpose_mul hQ]
    _ = ((P.mul (S.mul B)).mul T.transpose).mul Q.transpose :=
        (mul_mul (A := P.mul (S.mul B)) (B := T.transpose) Q.transpose hT.symm).symm
    _ = (P.mul ((S.mul B).mul T.transpose)).mul Q.transpose := by
        rw [mul_mul (B := S.mul B) T.transpose hP]

/-- Between frames zeros are zeros. -/
theorem sandwich_zeros (P Q : Dense K) (m n : Nat) :
    sandwich P (zeros m n) Q = zeros P.rows Q.rows := by
  refine ext_get rfl rfl fun u v hu hv => ?_
  have hu : u < P.rows := hu
  have hv : v < Q.rows := hv
  rw [get_sandwich P _ Q hu hv, get_zeros]
  exact Finset.sum_eq_zero fun s _ => Finset.sum_eq_zero fun t _ => by
    rw [get_zeros, mul_zero, zero_mul]

end Dense

section Congruence

variable {K : Type} [Field K] {n : Type} [Fintype n] [DecidableEq n]

/-- Where both normal matrices are invertible, the inverse of the first one is found from that of
the second one. -/
theorem inv_congruence {D N : Matrix n n K} (h : IsUnit (Dᵀ * N * D)) :
    N⁻¹ = D * (Dᵀ * N * D)⁻¹ * Dᵀ := by
  have hD : IsUnit D.det := by
    rw [isUnit_iff_isUnit_det, det_mul] at h
    exact isUnit_of_mul_isUnit_right h
  have hDt : IsUnit Dᵀ.det := by rwa [det_transpose]
  calc N⁻¹ = D * D⁻¹ * N⁻¹ * (Dᵀ⁻¹ * Dᵀ) := by
        rw [mul_nonsing_inv D hD, nonsing_inv_mul Dᵀ hDt, Matrix.one_mul, Matrix.mul_one]
    _ = D * (Dᵀ * N * D)⁻¹ * Dᵀ := by
        rw [Matrix.mul_inv_rev, Matrix.mul_inv_rev]
        simp only [Matrix.mul_assoc]

end Congruence

/-! ## Diagonals of blocks -/

/-- Forms add up to the form of the sum. -/
theorem sum_map_form {K β : Type} [Field K] (L : List β) {a b : Nat} (x y : Nat → K)
    (F : β → Nat → Nat → K) :
    (L.map fun r => ∑ s ∈ Finset.range a, ∑ t ∈ Finset.range b, x s * F r s t * y t).sum =
      ∑ s ∈ Finset.range a, ∑ t ∈ Finset.range b, x s * (L.map fun r => F r s t).sum * y t := by
  induction L with
  | nil => simp
  | cons r L ih =>
    simp only [List.map_cons, List.sum_cons, ih, mul_add, add_mul, Finset.sum_add_distrib]

namespace ColumnBounds

variable {K : Type} [Field K] (b : ColumnBounds) (T : Nat → Dense K)

/-- Matrices of the blocks on the diagonal, and zeros beside them. -/
def diagonal : Matrix b.Place b.Place K :=
  Matrix.of fun c d => if c.1 = d.1 then (T c.1).get c.2 d.2 else 0

/-- In a sum along a row of the diagonal only the block of the row counts. -/
theorem sum_diagonal_row (c : b.Place) (F : b.Place → K) :
    ∑ a, b.diagonal T c a * F a = ∑ s : Fin (b.widthAt c.1), (T c.1).get c.2 s * F ⟨c.1, s⟩ := by
  rw [Fintype.sum_sigma, Finset.sum_eq_single c.1]
  · simp [diagonal]
  · intro i _ hne
    exact Finset.sum_eq_zero fun s _ => by simp [diagonal, Ne.symm hne]
  · exact fun hnot => absurd (Finset.mem_univ _) hnot

/-- In a sum along a column of the diagonal only the block of the column counts. -/
theorem sum_diagonal_col (d : b.Place) (F : b.Place → K) :
    ∑ a, F a * b.diagonal T a d = ∑ s : Fin (b.widthAt d.1), F ⟨d.1, s⟩ * (T d.1).get s d.2 := by
  rw [Fintype.sum_sigma, Finset.sum_eq_single d.1]
  · simp [diagonal]
  · intro i _ hne
    exact Finset.sum_eq_zero fun s _ => by simp [diagonal, hne]
  · exact fun hnot => absurd (Finset.mem_univ _) hnot

theorem diagonal_mul_mul_transpose (M : Matrix b.Place b.Place K) (c d : b.Place) :
    (b.diagonal T * M * (b.diagonal T)ᵀ) c d =
      ∑ s : Fin (b.widthAt c.1), ∑ t : Fin (b.widthAt d.1),
        (T c.1).get c.2 s * M ⟨c.1, s⟩ ⟨d.1, t⟩ * (T d.1).get d.2 t := by
  have hleft : ∀ a, (b.diagonal T * M) c a =
      ∑ s : Fin (b.widthAt c.1), (T c.1).get c.2 s * M ⟨c.1, s⟩ a := fun a => by
    rw [mul_apply, b.sum_diagonal_row]
  simp only [mul_apply (M := b.diagonal T * M), transpose_apply, mul_comm _ (b.diagonal T d _)]
  rw [b.sum_diagonal_row, Finset.sum_comm]
  refine Finset.sum_congr rfl fun t _ => ?_
  rw [hleft, mul_comm, Finset.sum_mul]

theorem transpose_diagonal_mul_mul (M : Matrix b.Place b.Place K) (c d : b.Place) :
    ((b.diagonal T)ᵀ * M * b.diagonal T) c d =
      ∑ s : Fin (b.widthAt c.1), ∑ t : Fin (b.widthAt d.1),
        (T c.1).get s c.2 * M ⟨c.1, s⟩ ⟨d.1, t⟩ * (T d.1).get t d.2 := by
  have hleft : ∀ a, ((b.diagonal T)ᵀ * M) c a =
      ∑ s : Fin (b.widthAt c.1), (T c.1).get s c.2 * M ⟨c.1, s⟩ a := fun a => by
    simp only [mul_apply, transpose_apply, mul_comm (b.diagonal T _ c)]
    rw [b.sum_diagonal_col]
    simp only [mul_comm]
  rw [mul_apply, b.sum_diagonal_col, Finset.sum_comm]
  refine Finset.sum_congr rfl fun t _ => ?_
  rw [hleft, Finset.sum_mul]

end ColumnBounds

section Rebased

variable {K : Type} [Field K]

/-! ## Another basis -/

/-- The second manifold has the sizes of the first one, and at a point its Jacobian has another
basis of the same tangent space for its columns. -/
structure Manifold.Rebased (m m' : Manifold K) (x : Array K) (T : Dense K) : Prop where
  ambientSize_eq : m'.ambientSize = m.ambientSize
  tangentSize_eq : m'.tangentSize = m.tangentSize
  rows_eq : T.rows = m.tangentSize.toNat
  cols_eq : T.cols = m.tangentSize.toNat
  plusJacobian_eq : ∃ P, m.plusJacobian x = .ok P ∧ P.cols = T.rows ∧
    m'.plusJacobian x = .ok (P.mul T)

/-- The second manifold goes with the same blocks. -/
theorem Manifold.Rebased.fits {m m' : Manifold K} {b : ParameterBlock K} {T : Dense K}
    (h : m.Rebased m' b.values T) (hm : b.manifold = some m) : m'.ambientSize = b.values.size := by
  rw [h.ambientSize_eq, b.fits m hm]

namespace Problem

/-- The second problem is the first one with other bases of the tangent spaces of some blocks. -/
structure Rebased (T : Nat → Dense K) (p q : Problem K) : Prop where
  residuals_eq : q.residuals = p.residuals
  size_eq : q.blocks.size = p.blocks.size
  blockAt_eq : ∀ i,
    (q.blockAt i = p.blockAt i ∧ T i = Dense.identity (p.blockAt i).tangentSize.toNat) ∨
      ∃ m m', (p.blockAt i).manifold = some m ∧ m.Rebased m' (p.blockAt i).values (T i) ∧
        q.blockAt i = (p.blockAt i).withManifold (some m')

namespace Rebased

variable {T : Nat → Dense K} {p q : Problem K}

/-- Another basis has the same size. -/
theorem alike (h : p.Rebased T q) : p.Alike q := by
  have hblock : ∀ i, (q.blockAt i).values = (p.blockAt i).values ∧
      (q.blockAt i).held = (p.blockAt i).held ∧
        (q.blockAt i).tangentSize = (p.blockAt i).tangentSize := by
    intro i
    rcases h.blockAt_eq i with ⟨heq, -⟩ | ⟨m, m', hm, rebased, heq⟩
    · rw [heq]
      exact ⟨rfl, rfl, rfl⟩
    · rw [heq]
      refine ⟨ParameterBlock.values_withManifold _ _, ParameterBlock.held_withManifold _ _, ?_⟩
      rw [ParameterBlock.tangentSize_withManifold (rebased.fits hm), ParameterBlock.tangentSize, hm,
        rebased.tangentSize_eq]
  exact ⟨h.residuals_eq, h.size_eq, fun i => (hblock i).1, fun i => (hblock i).2.1,
    fun i => (hblock i).2.2⟩

/-- A sound problem is sound in any bases. -/
theorem sound (h : p.Rebased T q) (s : p.Sound) : q.Sound where
  nonempty := by
    rw [h.residuals_eq]
    exact s.nonempty
  nodup := by
    rw [h.residuals_eq]
    exact s.nodup
  named := by
    have hposition : q.position? = p.position? := by
      funext a
      simp only [position?, h.size_eq]
    rw [h.residuals_eq, hposition]
    exact s.named

/-- A change of basis is a square matrix of the size of the tangent space. -/
theorem size_basis (h : p.Rebased T q) (i : Nat) :
    (T i).rows = (p.blockAt i).tangentSize.toNat ∧
      (T i).cols = (p.blockAt i).tangentSize.toNat := by
  rcases h.blockAt_eq i with ⟨-, heq⟩ | ⟨m, m', hm, rebased, -⟩
  · rw [heq]
    exact ⟨rfl, rfl⟩
  · simp only [ParameterBlock.tangentSize, hm]
    exact ⟨rebased.rows_eq, rebased.cols_eq⟩

theorem size_basis_of_width (h : p.Rebased T q) {i width : Nat}
    (hwidth : (width : Int) = (p.blockAt i).tangentSize) :
    (T i).rows = width ∧ (T i).cols = width := by
  rw [(h.size_basis i).1, (h.size_basis i).2, ← hwidth]
  exact ⟨rfl, rfl⟩

/-! ## The normal matrix -/

/-- A Jacobian that has been projected is multiplied by the change of basis. -/
theorem projectOne_eq (h : p.Rebased T q) {bounds : ColumnBounds}
    (hsize : bounds.ranges.size = p.blocks.size) {Ps Qs : Array (Option (Dense K))}
    (hPs : p.projections bounds = .ok Ps) (hQs : q.projections bounds = .ok Qs) {i : Nat}
    (hi : 0 < bounds.widthAt i) {J G G' : Dense K} (hG : projectOne Ps i J = .ok G)
    (hcols : G.cols = (p.blockAt i).tangentSize.toNat) (hG' : projectOne Qs i J = .ok G') :
    G' = G.mul (T i) := by
  have hlt : i < p.blocks.size := by
    rw [← hsize]
    exact ColumnBounds.lt_size_of_widthAt_pos hi
  have hp := projectionAt_of_projections hsize hPs hlt
  have hq := projectionAt_of_projections (hsize.trans h.size_eq.symm) hQs
    (by rw [h.size_eq]; exact hlt)
  unfold projectionAt at hp hq
  unfold projectOne at hG hG'
  rcases h.blockAt_eq i with ⟨heq, hidentity⟩ | ⟨m, m', hm, rebased, heq⟩
  · rw [heq, hp, Except.ok.injEq] at hq
    rw [← hq, hG, Except.ok.injEq] at hG'
    rw [hidentity, ← hcols, Dense.mul_identity, hG']
  · have hne := ColumnBounds.size_rangeAt_ne_zero hi
    obtain ⟨P, hP, hfit, hP'⟩ := rebased.plusJacobian_eq
    simp only [hm, if_neg hne, hP, Except.map, Except.ok.injEq] at hp
    simp only [heq, ParameterBlock.manifold_withManifold (rebased.fits hm),
      ParameterBlock.values_withManifold, if_neg hne, hP', Except.map, Except.ok.injEq] at hq
    simp only [← hp] at hG
    simp only [← hq] at hG'
    obtain ⟨hJ, rfl⟩ := Dense.mul?_eq_ok_iff.mp hG
    obtain ⟨-, rfl⟩ := Dense.mul?_eq_ok_iff.mp hG'
    exact (Dense.mul_mul (T i) hJ).symm

variable [BEq K] [LE K] [DecidableLE K] [Elementary K]

/-- What a residual block has for the directions of a block, in another basis. -/
theorem entryOf_eq (h : p.Rebased T q) {bounds : ColumnBounds}
    (hsize : bounds.ranges.size = p.blocks.size) {Ps Qs : Array (Option (Dense K))}
    (hPs : p.projections bounds = .ok Ps) (hQs : q.projections bounds = .ok Qs) {i : Nat}
    (hi : 0 < bounds.widthAt i) (hwidth : (bounds.widthAt i : Int) = (p.blockAt i).tangentSize)
    {applyLoss : Bool} {r : ResidualBlock K} {e e' : Evaluated K} {n : Nat}
    (he : p.evaluate Ps applyLoss r = .ok e) (fits : Fits bounds n r.blocks e.jacobians)
    (he' : q.evaluate Qs applyLoss r = .ok e') {w v : Nat} (hw : w < n)
    (hv : v < bounds.widthAt i) :
    q.entryOf Qs applyLoss r w i v =
      ∑ s ∈ Finset.range (bounds.widthAt i), p.entryOf Ps applyLoss r w i s * (T i).get s v := by
  obtain ⟨residual, Js, hlinearized, hprojected⟩ := exists_linearized_of_evaluate he
  obtain ⟨residual', Js', hlinearized', hprojected'⟩ := exists_linearized_of_evaluate he'
  rw [h.alike.linearized_eq, hlinearized] at hlinearized'
  cases hlinearized'
  have hp := hprojected i
  have hq := hprojected' i
  cases hJ : (r.blocks.zip Js).lookup i with
  | none =>
    rw [hJ] at hp hq
    simp [entryOf, ← Except.ok.inj hp, ← Except.ok.inj hq]
  | some J =>
    rw [hJ] at hp hq
    obtain ⟨G, hG, hsome⟩ := map_eq_ok_iff.mp hp
    obtain ⟨G', hG', hsome'⟩ := map_eq_ok_iff.mp hq
    obtain ⟨hrows, hcols⟩ := shape_of_jacobianOf he fits hsome.symm hi
    have hwidth' : bounds.widthAt i = (p.blockAt i).tangentSize.toNat := by omega
    obtain rfl := h.projectOne_eq hsize hPs hQs hi hG (hcols.trans hwidth') hG'
    simp only [entryOf, ← hsome, ← hsome', Option.map_some, Option.getD_some]
    rw [Dense.get_mul G (T i) (hrows.symm ▸ hw)
      ((h.size_basis_of_width hwidth).2.symm ▸ hv), sumTo_eq_sum, hcols]

/-- What a residual block adds to the normal matrix, in another basis. -/
theorem addend_eq (h : p.Rebased T q) {bounds : ColumnBounds}
    (hsize : bounds.ranges.size = p.blocks.size)
    (hwidths : ∀ i, 0 < bounds.widthAt i → (bounds.widthAt i : Int) = (p.blockAt i).tangentSize)
    {Ps Qs : Array (Option (Dense K))} (hPs : p.projections bounds = .ok Ps)
    (hQs : q.projections bounds = .ok Qs) {applyLoss : Bool} {r : ResidualBlock K}
    {e e' : Evaluated K} (he : p.evaluate Ps applyLoss r = .ok e)
    (fits : Fits bounds (p.residualCount r) r.blocks e.jacobians)
    (he' : q.evaluate Qs applyLoss r = .ok e') {i j u v : Nat} (hu : u < bounds.widthAt i)
    (hv : v < bounds.widthAt j) :
    q.addend Qs applyLoss r i u j v =
      ∑ s ∈ Finset.range (bounds.widthAt i), ∑ t ∈ Finset.range (bounds.widthAt j),
        (T i).get s u * p.addend Ps applyLoss r i s j t * (T j).get t v := by
  have hcount : q.residualCount r = p.residualCount r := by
    simp only [residualCount, valuesOf, h.alike.values_eq]
  rw [form_eq_sum (w := fun _ => 1) (m := p.residualCount r)
    (G := fun w s => p.entryOf Ps applyLoss r w i s)
    (H := fun w t => p.entryOf Ps applyLoss r w j t) fun s t _ _ => by simp only [addend, one_mul]]
  rw [addend, hcount]
  refine Finset.sum_congr rfl fun w hw => ?_
  have hw := Finset.mem_range.mp hw
  have hi := Nat.zero_lt_of_lt hu
  have hj := Nat.zero_lt_of_lt hv
  rw [h.entryOf_eq hsize hPs hQs hi (hwidths i hi) he fits he' hw hu,
    h.entryOf_eq hsize hPs hQs hj (hwidths j hj) he fits he' hw hv, one_mul]
  simp only [mul_comm]

/-- **The normal matrix in another basis** is `T'NT`. -/
theorem gram_eq (h : p.Rebased T q) {bounds : ColumnBounds}
    (hsize : bounds.ranges.size = p.blocks.size)
    (hwidths : ∀ i, 0 < bounds.widthAt i → (bounds.widthAt i : Int) = (p.blockAt i).tangentSize)
    {Ps Qs : Array (Option (Dense K))} (hPs : p.projections bounds = .ok Ps)
    (hQs : q.projections bounds = .ok Qs) {applyLoss : Bool}
    (hp : ∀ r ∈ p.residuals, ∃ e, p.evaluate Ps applyLoss r = .ok e ∧
      Fits bounds (p.residualCount r) r.blocks e.jacobians)
    (hq : ∀ r ∈ q.residuals, ∃ e, q.evaluate Qs applyLoss r = .ok e) :
    q.gram bounds Qs applyLoss =
      (bounds.diagonal T)ᵀ * p.gram bounds Ps applyLoss * bounds.diagonal T := by
  ext c d
  have hlist : (q.residuals.toList.map fun r => q.addend Qs applyLoss r c.1 c.2 d.1 d.2) =
      p.residuals.toList.map fun r => ∑ s ∈ Finset.range (bounds.widthAt c.1),
        ∑ t ∈ Finset.range (bounds.widthAt d.1),
          (T c.1).get s c.2 * p.addend Ps applyLoss r c.1 s d.1 t * (T d.1).get t d.2 := by
    rw [h.residuals_eq]
    refine List.map_congr_left fun r hr => ?_
    rw [Array.mem_toList_iff] at hr
    obtain ⟨e, he, fits⟩ := hp r hr
    obtain ⟨e', he'⟩ := hq r (by rw [h.residuals_eq]; exact hr)
    exact h.addend_eq hsize hwidths hPs hQs he fits he' c.2.isLt d.2.isLt
  rw [bounds.transpose_diagonal_mul_mul]
  calc (q.residuals.toList.map fun r => q.addend Qs applyLoss r c.1 c.2 d.1 d.2).sum
      = ∑ s ∈ Finset.range (bounds.widthAt c.1), ∑ t ∈ Finset.range (bounds.widthAt d.1),
          (T c.1).get s c.2 *
            (p.residuals.toList.map fun r => p.addend Ps applyLoss r c.1 s d.1 t).sum *
              (T d.1).get t d.2 := by rw [hlist, sum_map_form]
    _ = _ := by
        simp only [Finset.sum_range]
        rfl

end Rebased

end Problem

/-! ## Answers in other bases -/

namespace Covariance

section Answers

variable {p q : Problem K} {T : Nat → Dense K} {f f' : Nat → Nat → K} {plan : Plan}

/-- Wherever there is a block for a plan, the first function has the block of the second one between
the changes of basis. -/
def Rebases (plan : Plan) (T : Nat → Dense K) (f f' : Nat → Nat → K) : Prop :=
  ∀ i j, 0 < plan.bounds.widthAt i → 0 < plan.bounds.widthAt j → plan.Covers i j →
    blockOf f plan.bounds i j = Dense.sandwich (T i) (blockOf f' plan.bounds i j) (T j)

/-- The block of two parameter blocks in tangent coordinates changes with their bases. -/
theorem answerAt_tangent_of_rebases (h : p.Rebased T q) (rebases : Rebases plan T f f')
    (i j : Nat) :
    answerAt f plan p .tangent i j = (answerAt f' plan q .tangent i j).map
      (Option.map fun C => Dense.sandwich (T i) C (T j)) := by
  unfold answerAt
  rw [h.alike.zeros_eq]
  split
  · simp only [Coordinates.zeros, Coordinates.size, Except.map, Option.map_some,
      Dense.sandwich_zeros, (h.size_basis _).1]
  · rename_i hwidths
    split
    · rename_i hcovers
      have hblock := rebases i j (by omega) (by omega) hcovers
      simp only [Coordinates.move, Except.map, Option.map_some, hblock]
    · rfl

/-- A frame of the right size, in another basis. -/
theorem frame_of_rebased (h : p.Rebased T q) {i width : Nat}
    (hwidth : (width : Int) = (p.blockAt i).tangentSize) {P : Dense K}
    (hP : Coordinates.frame .ambient (p.blockAt i) width = .ok P) (hcols : P.cols = width) :
    Coordinates.frame .ambient (q.blockAt i) width = .ok (P.mul (T i)) := by
  rcases h.blockAt_eq i with ⟨heq, hidentity⟩ | ⟨m, m', hm, rebased, heq⟩
  · rw [heq, hP, hidentity, ← hwidth, Int.toNat_natCast, ← hcols, Dense.mul_identity]
  · obtain ⟨P₁, hP₁, -, hP'⟩ := rebased.plusJacobian_eq
    simp only [Coordinates.frame, hm, hP₁, Except.ok.injEq] at hP
    subst hP
    simp only [Coordinates.frame, heq, ParameterBlock.manifold_withManifold (rebased.fits hm),
      ParameterBlock.values_withManifold, hP']

/-- The block of two parameter blocks in the coordinates of the parameters does not change with the
bases. -/
theorem answerAt_ambient_of_rebases (h : p.Rebased T q) (rebases : Rebases plan T f f')
    (hwidths : ∀ i, 0 < plan.bounds.widthAt i →
      (plan.bounds.widthAt i : Int) = (p.blockAt i).tangentSize) {i j : Nat}
    (fitted : Fitted plan p i j) :
    answerAt f plan p .ambient i j = answerAt f' plan q .ambient i j := by
  unfold answerAt
  rw [h.alike.zeros_eq]
  split
  · rfl
  · rename_i hempty
    split
    · rename_i hcovers
      obtain ⟨hi, hj⟩ : 0 < plan.bounds.widthAt i ∧ 0 < plan.bounds.widthAt j := by omega
      have hT : ∀ {k}, 0 < plan.bounds.widthAt k →
          (T k).rows = plan.bounds.widthAt k ∧ (T k).cols = plan.bounds.widthAt k :=
        fun hk => h.size_basis_of_width (hwidths _ hk)
      obtain ⟨⟨P, hP, -, hPcols⟩, Q, hQ, -, hQcols⟩ := fitted hi hj hcovers
      rw [move_eq (B := blockOf f plan.bounds i j) hP hQ, if_pos ⟨hPcols, hQcols⟩,
        move_eq (B := blockOf f' plan.bounds i j) (frame_of_rebased h (hwidths i hi) hP hPcols)
          (frame_of_rebased h (hwidths j hj) hQ hQcols), if_pos ⟨(hT hi).2, (hT hj).2⟩,
        rebases i j hi hj hcovers,
        Dense.sandwich_mul (hPcols.trans (hT hi).1.symm) (hQcols.trans (hT hj).1.symm) (hT hj).2]
    · rfl

end Answers

section Results

variable [LinearOrder K] [Elementary K] {p q : Problem K} {T : Nat → Dense K}

/-- The inverse of the normal matrix in other bases gives the first one back, block by block. -/
theorem blockOf_eq_of_inverts (h : p.Rebased T q) {bounds : ColumnBounds}
    (hsize : bounds.ranges.size = p.blocks.size)
    (hwidths : ∀ i, 0 < bounds.widthAt i → (bounds.widthAt i : Int) = (p.blockAt i).tangentSize)
    {applyLoss : Bool} {Ps Qs : Array (Option (Dense K))} {f f' : Nat → Nat → K}
    (hp : Inverts p bounds applyLoss Ps f) (hq : Inverts q bounds applyLoss Qs f') {i j : Nat}
    (hi : 0 < bounds.widthAt i) (hj : 0 < bounds.widthAt j) :
    blockOf f bounds i j = Dense.sandwich (T i) (blockOf f' bounds i j) (T j) := by
  have hgram := h.gram_eq hsize hwidths hp.projected hq.projected hp.evaluated fun r hr =>
    (hq.evaluated r hr).imp fun e he => he.1
  have hinverse := inv_congruence (hgram ▸ hq.isUnit)
  rw [← hgram] at hinverse
  have hT : ∀ {k}, 0 < bounds.widthAt k →
      (T k).rows = bounds.widthAt k ∧ (T k).cols = bounds.widthAt k :=
    fun hk => h.size_basis_of_width (hwidths _ hk)
  have hi' := ColumnBounds.lt_size_of_widthAt_pos hi
  have hj' := ColumnBounds.lt_size_of_widthAt_pos hj
  refine Dense.ext_get (hT hi).1.symm (hT hj).1.symm fun u v hu hv => ?_
  have hu : u < bounds.widthAt i := hu
  have hv : v < bounds.widthAt j := hv
  let a : bounds.Place := ⟨⟨i, hi'⟩, ⟨u, hu⟩⟩
  let b : bounds.Place := ⟨⟨j, hj'⟩, ⟨v, hv⟩⟩
  have hblock : ∀ s t, s < bounds.widthAt i → t < bounds.widthAt j →
      (blockOf f' bounds i j).get s t =
        f' ((bounds.rangeAt i).first + s) ((bounds.rangeAt j).first + t) :=
    fun s t hs ht => Dense.get_ofFn_of_lt _ hs ht
  calc (blockOf f bounds i j).get u v
      = (p.gram bounds Ps applyLoss)⁻¹ a b :=
        (Dense.get_ofFn_of_lt _ hu hv).trans (hp.entry_eq a b)
    _ = ∑ s : Fin (bounds.widthAt i), ∑ t : Fin (bounds.widthAt j), (T i).get u s *
          (q.gram bounds Qs applyLoss)⁻¹ ⟨a.1, s⟩ ⟨b.1, t⟩ * (T j).get v t := by
        rw [hinverse, bounds.diagonal_mul_mul_transpose]
    _ = (Dense.sandwich (T i) (blockOf f' bounds i j) (T j)).get u v := by
        rw [Dense.get_sandwich _ _ _ ((hT hi).1.symm ▸ hu) ((hT hj).1.symm ▸ hv), (hT hi).2,
          Finset.sum_range]
        refine Finset.sum_congr rfl fun s _ => ?_
        rw [Finset.sum_range]
        refine Finset.sum_congr rfl fun t _ => ?_
        rw [hblock s t s.isLt t.isLt, ← hq.entry_eq]
        rfl

variable [IsStrictOrderedRing K] {request : List Item} {engine : Engine K} {c : Covariance K}

/-- With exact factorisations two computations in different bases leave blocks that differ by the
changes of basis. -/
theorem exists_rebases_of_compute (s : p.Sound) (h : p.Rebased T q)
    (exact : engine.FactorsExactly) (halgorithm : c.options.algorithm = .sparseQr)
    (hlibrary : c.options.library = .elimination)
    (hp : (compute engine c p request).answer = .ok true)
    (hq : (compute engine c q request).answer = .ok true) :
    ∃ plan f f', planOf p request = .ok plan ∧
      (compute engine c p request).state = c.holding plan (Truncation.gather f plan.pattern) ∧
      (compute engine c q request).state = c.holding plan (Truncation.gather f' plan.pattern) ∧
      Rebases plan T f f' ∧ ∀ i j, Fitted plan p i j := by
  obtain ⟨plan, f, hplan, hstate, hinverts⟩ :=
    exists_inverts_of_compute s exact halgorithm hlibrary hp
  obtain ⟨plan', f', hplan', hstate', hinverts'⟩ :=
    exists_inverts_of_compute (h.sound s) exact halgorithm hlibrary hq
  rw [h.alike.planOf_eq, hplan] at hplan'
  cases hplan'
  refine ⟨plan, f, f', hplan, hstate, hstate', fun i j hi hj hcovers => ?_,
    fitted_of_inverts hplan hinverts⟩
  have hnonzeros := (regular_of_planOf hplan).1.toWellFormed.nonzeros_ne_zero hcovers
  have hsize : plan.bounds.ranges.size = p.blocks.size := by
    rw [bounds_of_planOf hplan, ColumnBounds.size_ranges_make]
  obtain ⟨Ps, inverts⟩ := hinverts hnonzeros
  obtain ⟨Qs, inverts'⟩ := hinverts' hnonzeros
  exact blockOf_eq_of_inverts h hsize (fun _ => widthAt_eq_tangentSize hplan) inverts inverts' hi hj

/-- **The covariance of the parameters does not depend on the bases of the tangent spaces.** Let two
problems be the same but for the bases of the tangent spaces of some blocks, and let both
computations succeed by elimination with exact factorisations. In the coordinates of the parameters,
the block of two handles and the joint matrix of any handles are the same, and are there. In
tangent coordinates, the blocks are there too and differ by the changes of basis. -/
theorem ambient_of_rebased (reachable : p.Reachable) (h : p.Rebased T q)
    (exact : engine.FactorsExactly) (halgorithm : c.options.algorithm = .sparseQr)
    (hlibrary : c.options.library = .elimination)
    (hp : (compute engine c p request).answer = .ok true)
    (hq : (compute engine c q request).answer = .ok true) :
    let first := (compute engine c p request).state
    let second := (compute engine c q request).state
    (∀ a b i j, p.position a = .ok i → p.position b = .ok j →
      (∃ found, (first.block p .ambient a b).answer = .ok found ∧
        (second.block q .ambient a b).answer = .ok found) ∧
      ∃ found, (second.block q .tangent a b).answer = .ok found ∧
        (first.block p .tangent a b).answer =
          .ok (found.map fun C => Dense.sandwich (T i) C (T j))) ∧
    ∀ (engine' : Engine K) handles,
      (second.matrix engine' q .ambient handles).answer =
        (first.matrix engine' p .ambient handles).answer ∧
      ∀ positions, handles.mapM p.position = .ok positions →
        ∃ found, (first.matrix engine' p .ambient handles).answer = .ok found := by
  intro first second
  obtain ⟨plan, f, f', hplan, hstate, hstate', rebases, fitted⟩ :=
    exists_rebases_of_compute reachable.sound h exact halgorithm hlibrary hp hq
  have hwidths : ∀ i, 0 < plan.bounds.widthAt i →
      (plan.bounds.widthAt i : Int) = (p.blockAt i).tangentSize :=
    fun _ => widthAt_eq_tangentSize hplan
  have hambient : ∀ i j, answerAt f plan p .ambient i j = answerAt f' plan q .ambient i j :=
    fun i j => answerAt_ambient_of_rebases h rebases hwidths (fitted i j)
  refine ⟨fun a b i j ha hb => ?_, fun engine' handles => ?_⟩
  · have ha' : q.position a = .ok i := by rw [h.alike.position_eq, ha]
    have hb' : q.position b = .ok j := by rw [h.alike.position_eq, hb]
    have hi := lt_ranges_of_position hplan ha
    have hj := lt_ranges_of_position hplan hb
    have hfirst := fun coordinates => answer_block_holding f hplan c coordinates ha hb hi hj
    have hsecond := fun coordinates => answer_block_holding f' hplan c coordinates ha' hb' hi hj
    simp only [first, second, hstate, hstate', hfirst, hsecond, hambient,
      answerAt_tangent_of_rebases h rebases]
    constructor
    · obtain ⟨found, hfound⟩ := exists_answerAt_of_fitted f (fitted i j)
      rw [hambient] at hfound
      exact ⟨found, hfound, hfound⟩
    · obtain ⟨found, hfound⟩ := exists_answerAt_tangent f' plan q i j
      exact ⟨found, hfound, by rw [hfound]; rfl⟩
  · have hknown : ∀ a ∈ handles, ∀ k, p.position a = .ok k → k < plan.bounds.ranges.size :=
      fun a _ k hk => lt_ranges_of_position hplan hk
    have hposition : q.position = p.position := funext h.alike.position_eq
    have hplaced : placedAt f' plan q .ambient = placedAt f plan p .ambient := by
      funext pair
      simp only [placedAt, hambient, h.alike.sizeIn_eq]
    have hsizes : memberSizes q .ambient = memberSizes p .ambient := by
      funext positions
      simp only [memberSizes, h.alike.sizeIn_eq]
    simp only [first, second, hstate, hstate']
    constructor
    · rw [answer_matrix_holding f hplan c engine' .ambient hknown,
        answer_matrix_holding f' hplan c engine' .ambient (by rw [hposition]; exact hknown),
        hposition, hplaced, hsizes]
    · intro positions hpositions
      exact exists_matrix_of_fitted f hplan hpositions hknown fun k _ l _ => fitted k l

end Results

end Covariance

end Rebased

/-! ## The plane with another basis -/

namespace Covariance

/-- The basis `(1, 0)`, `(1, 1)`. -/
def shear : Dense ℚ := Dense.ofRows 2 [[1, 1], [0, 1]]

/-- The plane with that basis at every point. -/
def skewPlane : Manifold ℚ := { Manifold.euclidean 2 with plusJacobian := fun _ => .ok shear }

/-- The residuals `2x` and `y` of a point of a plane. -/
def onPlane (m : Manifold ℚ) : Problem ℚ :=
  (oneBlock 2 #[2, 0, 0, 1]).modify 0 fun b => b.withManifold (some m)

theorem reachable_onPlane : (onPlane (.euclidean 2)).Reachable := by
  have hedits : onPlane (.euclidean 2) = Edit.runAll .empty
      [.addBlock #[0, 0] (some (.euclidean 2)), .addResidual [.integer 0]
        ⟨fun _ => .ok (Array.replicate 2 0), fun _ => .ok [⟨[2, 2], #[2, 0, 0, 1]⟩], none⟩] := rfl
  rw [hedits]
  exact .run _ (.run _ .empty)

theorem rebased_onPlane :
    (onPlane (.euclidean 2)).Rebased (fun i => if i = 0 then shear else Dense.identity 0)
      (onPlane skewPlane) where
  residuals_eq := rfl
  size_eq := rfl
  blockAt_eq i := by
    cases i with
    | zero =>
      have hjacobian : skewPlane.plusJacobian #[0, 0] = .ok ((Dense.identity 2).mul shear) := by cbv
      exact Or.inr
        ⟨_, skewPlane, rfl, ⟨rfl, rfl, rfl, rfl, Dense.identity 2, rfl, rfl, hjacobian⟩, rfl⟩
    | succ i => exact Or.inl ⟨rfl, rfl⟩

theorem prepared_onPlane {m : Manifold ℚ} (hambient : m.ambientSize = 2)
    (htangent : m.tangentSize = 2) {J : Compressed ℚ}
    (hJ : ((onPlane m).jacobian .inOrder oneBlockPlan.bounds false 1).answer = .ok J) :
    Prepared Engine.exact (plain .sparseQr).options (onPlane m) itself oneBlockPlan J where
  planned := by
    have halike : (oneBlock 2 #[2, 0, 0, 1]).Alike (onPlane m) := by
      let b := (oneBlock 2 #[2, 0, 0, 1]).blockAt 0
      have hfits : m.ambientSize = b.values.size := hambient
      refine ⟨rfl, rfl, fun i => ?_, fun i => ?_, fun i => ?_⟩
      · cases i with
        | zero => exact b.values_withManifold (some m)
        | succ i => rfl
      · cases i with
        | zero => exact b.held_withManifold (some m)
        | succ i => rfl
      · cases i with
        | zero => exact (ParameterBlock.tangentSize_withManifold hfits).trans htangent
        | succ i => rfl
    rw [halike.planOf_eq, planOf_oneBlock]
  free := (prepared_square .sparseQr).free
  jacobian := hJ

theorem sandwich_shear : Dense.sandwich shear (Dense.ofRows 2 [[5 / 4, -1], [-1, 1]]) shear =
    Dense.ofRows 2 [[1 / 4, 0], [0, 1]] := by
  change (shear.mul (Dense.ofRows 2 [[5 / 4, -1], [-1, 1]])).mul shear.transpose = _
  cbv

/-- In the basis `(1, 0)`, `(1, 1)` the covariance of `2x` and `y` is that with the rows `5/4`, `-1`
and `-1`, `1`; in the usual one it is diagonal. -/
theorem ambient_of_rebased_onPlane :
    ((compute Engine.exact (plain .sparseQr) (onPlane skewPlane) itself).state.block
        (onPlane skewPlane) .tangent (.integer 0) (.integer 0)).answer =
      .ok (some (Dense.ofRows 2 [[5 / 4, -1], [-1, 1]])) ∧
    ((compute Engine.exact (plain .sparseQr) (onPlane (.euclidean 2)) itself).state.block
        (onPlane (.euclidean 2)) .tangent (.integer 0) (.integer 0)).answer =
      .ok (some (Dense.ofRows 2 [[1 / 4, 0], [0, 1]])) ∧
    ((compute Engine.exact (plain .sparseQr) (onPlane skewPlane) itself).state.matrix Engine.exact
        (onPlane skewPlane) .ambient [.integer 0, .integer 0]).answer =
      ((compute Engine.exact (plain .sparseQr) (onPlane (.euclidean 2)) itself).state.matrix
        Engine.exact (onPlane (.euclidean 2)) .ambient [.integer 0, .integer 0]).answer := by
  have hp := prepared_onPlane (m := .euclidean 2)
    (J := ⟨Pattern.ofRows 2 [[0, 1], [0, 1]], #[2, 0, 0, 1]⟩) rfl rfl (by cbv)
  have hq := prepared_onPlane (m := skewPlane)
    (J := ⟨Pattern.ofRows 2 [[0, 1], [0, 1]], #[2, 2, 0, 1]⟩) rfl rfl (by cbv)
  have hvalues : (estimateValues Engine.exact (plain .sparseQr).options
      ⟨Pattern.ofRows 2 [[0, 1], [0, 1]], #[2, 0, 0, 1]⟩ oneBlockPlan.pattern).answer =
        .ok (some #[1 / 4, 0, 0, 1]) := by cbv
  have hvalues' : (estimateValues Engine.exact (plain .sparseQr).options
      ⟨Pattern.ofRows 2 [[0, 1], [0, 1]], #[2, 2, 0, 1]⟩ oneBlockPlan.pattern).answer =
        .ok (some #[5 / 4, -1, -1, 1]) := by cbv
  have hskew : ((compute Engine.exact (plain .sparseQr) (onPlane skewPlane) itself).state.block
      (onPlane skewPlane) .tangent (.integer 0) (.integer 0)).answer =
        .ok (some (Dense.ofRows 2 [[5 / 4, -1], [-1, 1]])) := by
    rw [hq.compute_eq.2, hvalues']
    cbv
  obtain ⟨hblocks, hmatrices⟩ := ambient_of_rebased reachable_onPlane rebased_onPlane
    Engine.factorsExactly_exact rfl rfl (by rw [hp.compute_eq.1, hvalues]; rfl)
    (by rw [hq.compute_eq.1, hvalues']; rfl)
  refine ⟨hskew, ?_, (hmatrices Engine.exact _).1⟩
  obtain ⟨-, found, hfound, hfirst⟩ := hblocks (.integer 0) (.integer 0) 0 0 (by cbv) (by cbv)
  rw [hskew] at hfound
  cases hfound
  exact hfirst.trans (congrArg (fun B => Except.ok (some B)) sandwich_shear)

end Covariance

end LeastSquares
