/-
LeastSquares.Proofs.Lifting — a block between the frames of its two parameter blocks.

A block of a plan is answered in one of two coordinates. Tangent coordinates leave it as it is, and
the parameters' own coordinates multiply it by the Jacobians of the manifolds, from the left for its
rows and from the right for its columns. Both are one product: the block stands between two frames
(`Coordinates.frame`), of which one is the identity where nothing is to be done, and it is moved
exactly when the frames are as wide as the block is high and wide (`move_eq`).

Everything about the shape and the entries of an answer can be read off this product: its sizes are
the heights of the frames, its entries are double sums (`Dense.get_sandwich`), and in exchange of
the two frames it is transposed (`Dense.transpose_sandwich`), so that the answers about two
positions and about the same in exchange are transposes of each other (`answerAt_swap`). In return,
where there is an answer there were frames, and they fitted (`move_eq_ok_iff`).
-/
import LeastSquares.Proofs.Complaint
import LeastSquares.Proofs.Lookup
import LeastSquares.Proofs.Normal

namespace LeastSquares

/-! ## Products -/

namespace Dense

variable {K : Type} [Field K]

/-- A matrix between two frames, which are laid along its rows and its columns. -/
def sandwich (P B Q : Dense K) : Dense K := (P.mul B).mul Q.transpose

@[simp] theorem rows_sandwich (P B Q : Dense K) : (sandwich P B Q).rows = P.rows := rfl

@[simp] theorem cols_sandwich (P B Q : Dense K) : (sandwich P B Q).cols = Q.rows := rfl

theorem get_sandwich (P B Q : Dense K) {u v : Nat} (hu : u < P.rows) (hv : v < Q.rows) :
    (sandwich P B Q).get u v =
      ∑ s ∈ Finset.range P.cols, ∑ t ∈ Finset.range B.cols, P.get u s * B.get s t * Q.get v t := by
  rw [sandwich, get_mul (P.mul B) Q.transpose hu hv, sumTo_eq_sum, cols_mul, Finset.sum_comm]
  refine Finset.sum_congr rfl fun t ht => ?_
  rw [get_mul P B hu (Finset.mem_range.mp ht), sumTo_eq_sum, get_transpose, Finset.sum_mul]

theorem mul?_eq_ok_iff {A B C : Dense K} : A.mul? B = .ok C ↔ A.cols = B.rows ∧ A.mul B = C := by
  unfold mul?
  split <;> simp [*]

/-- Multiplying from both sides is refused where one of the frames does not fit. -/
theorem mul?_bind_mul? (P B Q : Dense K) :
    (P.mul? B >>= fun C => C.mul? Q.transpose) =
      if P.cols = B.rows ∧ Q.cols = B.cols then .ok (sandwich P B Q) else .error .shapes := by
  unfold mul?
  by_cases hP : P.cols = B.rows
  · by_cases hQ : Q.cols = B.cols
    · rw [if_pos hP, if_pos ⟨hP, hQ⟩]
      exact if_pos hQ.symm
    · rw [if_pos hP, if_neg fun h => hQ h.2]
      exact if_neg fun h => hQ h.symm
  · rw [if_neg hP, if_neg fun h => hP h.1]
    rfl

/-- In exchange of its frames a matrix is transposed. -/
theorem transpose_sandwich {P B Q : Dense K} (hP : P.cols = B.rows) (hQ : Q.cols = B.cols) :
    (sandwich P B Q).transpose = sandwich Q B.transpose P := by
  refine ext_get rfl rfl fun v u hv hu => ?_
  have hv : v < Q.rows := hv
  have hu : u < P.rows := hu
  rw [get_transpose, get_sandwich P B Q hu hv, get_sandwich Q B.transpose P hv hu, cols_transpose,
    hP, hQ, Finset.sum_comm]
  refine Finset.sum_congr rfl fun t _ => Finset.sum_congr rfl fun s _ => ?_
  rw [get_transpose]
  ring

theorem sandwich_identity (B : Dense K) :
    sandwich (identity B.rows) B (identity B.cols) = B := by
  rw [sandwich, identity_mul, transpose_identity, mul_identity]

theorem transpose_symmetrized (A : Dense K) :
    A.symmetrized.transpose = A.transpose.symmetrized := by
  refine ext_get rfl rfl fun i j hi hj => ?_
  have hi : i < A.cols := hi
  have hj : j < A.rows := hj
  rw [get_transpose, get_symmetrized A hj hi, get_symmetrized A.transpose hi hj, get_transpose,
    get_transpose]

theorem transpose_zeros (m n : Nat) : (zeros m n : Dense K).transpose = zeros n m :=
  ext_get rfl rfl fun i j _ _ => by rw [get_transpose, get_zeros, get_zeros]

end Dense

namespace Covariance

variable {K : Type} [Field K]

/-! ## Frames -/

/-- What a block of some width is laid along: the Jacobian of the manifold in the coordinates of the
parameters, and nothing elsewhere. -/
def Coordinates.frame (coordinates : Coordinates) (b : ParameterBlock K) (width : Nat) :
    Except Fault (Dense K) :=
  match coordinates, b.manifold with
  | .ambient, some m => m.plusJacobian b.values
  | _, _ => .ok (Dense.identity width)

/-- The last step of a move: a block with itself is averaged with its transpose. -/
def Coordinates.finish (coordinates : Coordinates) (same : Bool) (B : Dense K) : Dense K :=
  match coordinates, same with
  | .ambient, true => B.symmetrized
  | _, _ => B

@[simp] theorem rows_finish (coordinates : Coordinates) (same : Bool) (B : Dense K) :
    (coordinates.finish same B).rows = B.rows := by
  cases coordinates <;> cases same <;> rfl

@[simp] theorem cols_finish (coordinates : Coordinates) (same : Bool) (B : Dense K) :
    (coordinates.finish same B).cols = B.cols := by
  cases coordinates <;> cases same <;> rfl

theorem transpose_finish (coordinates : Coordinates) (same : Bool) (B : Dense K) :
    (coordinates.finish same B).transpose = coordinates.finish same B.transpose := by
  cases coordinates <;> cases same
  · rfl
  · rfl
  · rfl
  · exact Dense.transpose_symmetrized B

/-- A block whose manifold has a Jacobian has a frame. -/
theorem exists_frame {b : ParameterBlock K} (h : ∃ P, b.plusJacobian = .ok P)
    (coordinates : Coordinates) (width : Nat) : ∃ P, coordinates.frame b width = .ok P := by
  cases coordinates with
  | tangent => exact ⟨_, rfl⟩
  | ambient =>
    unfold Coordinates.frame
    cases hmanifold : b.manifold with
    | none => exact ⟨_, rfl⟩
    | some m =>
      obtain ⟨P, hP⟩ := h
      rw [ParameterBlock.plusJacobian, hmanifold] at hP
      exact ⟨P, hP⟩

/-- Moving the rows of a block multiplies it by its frame from the left. -/
theorem liftRows_eq {b : ParameterBlock K} {B P : Dense K}
    (h : Coordinates.frame .ambient b B.rows = .ok P) : liftRows b B = P.mul? B := by
  unfold Coordinates.frame at h
  unfold liftRows ParameterBlock.plusJacobian
  cases hmanifold : b.manifold with
  | none =>
    simp only [hmanifold, Except.ok.injEq] at h
    rw [← h, Dense.mul?_eq_ok rfl, Dense.identity_mul]
  | some m =>
    simp only [hmanifold] at h
    simp only [h]
    rfl

/-- Moving the columns of a block multiplies it by its frame from the right. -/
theorem liftCols_eq {b : ParameterBlock K} {B Q : Dense K}
    (h : Coordinates.frame .ambient b B.cols = .ok Q) : liftCols b B = B.mul? Q.transpose := by
  unfold Coordinates.frame at h
  unfold liftCols ParameterBlock.plusJacobian
  cases hmanifold : b.manifold with
  | none =>
    simp only [hmanifold, Except.ok.injEq] at h
    rw [← h, Dense.transpose_identity, Dense.mul?_eq_ok rfl, Dense.mul_identity]
  | some m =>
    simp only [hmanifold] at h
    simp only [h]
    rfl

/-- What moves the rows of a block has a frame for them. -/
theorem exists_frame_of_liftRows {b : ParameterBlock K} {B C : Dense K}
    (h : liftRows b B = .ok C) : ∃ P, Coordinates.frame .ambient b B.rows = .ok P := by
  unfold liftRows ParameterBlock.plusJacobian at h
  unfold Coordinates.frame
  cases hmanifold : b.manifold with
  | none => exact ⟨_, rfl⟩
  | some m =>
    simp only [hmanifold] at h
    obtain ⟨P, hP, -⟩ := bind_eq_ok_iff.mp h
    exact ⟨P, hP⟩

/-- What moves the columns of a block has a frame for them. -/
theorem exists_frame_of_liftCols {b : ParameterBlock K} {B C : Dense K}
    (h : liftCols b B = .ok C) : ∃ Q, Coordinates.frame .ambient b B.cols = .ok Q := by
  unfold liftCols ParameterBlock.plusJacobian at h
  unfold Coordinates.frame
  cases hmanifold : b.manifold with
  | none => exact ⟨_, rfl⟩
  | some m =>
    simp only [hmanifold] at h
    obtain ⟨Q, hQ, -⟩ := bind_eq_ok_iff.mp h
    exact ⟨Q, hQ⟩

theorem cols_of_mul? {A B C : Dense K} (h : A.mul? B = .ok C) : C.cols = B.cols := by
  obtain ⟨-, rfl⟩ := Dense.mul?_eq_ok_iff.mp h
  rfl

/-- **Moving a block** lays it between its frames, if these fit. -/
theorem move_eq {coordinates : Coordinates} {a b : ParameterBlock K} {B P Q : Dense K}
    (hP : coordinates.frame a B.rows = .ok P) (hQ : coordinates.frame b B.cols = .ok Q)
    (same : Bool) :
    coordinates.move a b same B =
      if P.cols = B.rows ∧ Q.cols = B.cols then
        .ok (coordinates.finish same (Dense.sandwich P B Q))
      else .error .shapes := by
  cases coordinates with
  | tangent =>
    simp only [Coordinates.frame, Except.ok.injEq] at hP hQ
    subst hP hQ
    rw [if_pos ⟨rfl, rfl⟩, Dense.sandwich_identity]
    rfl
  | ambient =>
    have hcols : (P.mul? B >>= liftCols b) = P.mul? B >>= fun C => C.mul? Q.transpose := by
      cases hrows : P.mul? B with
      | error e => rfl
      | ok C => exact liftCols_eq (by rw [cols_of_mul? hrows]; exact hQ)
    rw [Coordinates.move, lift_eq, liftRows_eq hP, hcols, Dense.mul?_bind_mul?]
    by_cases hfit : P.cols = B.rows ∧ Q.cols = B.cols
    · rw [if_pos hfit, if_pos hfit]
      cases same <;> rfl
    · rw [if_neg hfit, if_neg hfit]
      rfl

/-- A block that can be moved has frames for its rows and its columns. -/
theorem exists_frames_of_move {coordinates : Coordinates} {a b : ParameterBlock K} {same : Bool}
    {B C : Dense K} (h : coordinates.move a b same B = .ok C) :
    (∃ P, coordinates.frame a B.rows = .ok P) ∧ ∃ Q, coordinates.frame b B.cols = .ok Q := by
  cases coordinates with
  | tangent => exact ⟨⟨_, rfl⟩, ⟨_, rfl⟩⟩
  | ambient =>
    rw [Coordinates.move, lift_eq] at h
    obtain ⟨both, hboth, -⟩ := map_eq_ok_iff.mp h
    obtain ⟨left, hleft, hright⟩ := bind_eq_ok_iff.mp hboth
    obtain ⟨P, hP⟩ := exists_frame_of_liftRows hleft
    obtain ⟨Q, hQ⟩ := exists_frame_of_liftCols hright
    rw [liftRows_eq hP] at hleft
    exact ⟨⟨P, hP⟩, Q, by rw [← cols_of_mul? hleft]; exact hQ⟩

/-- A move that succeeds is a product of frames that fit. -/
theorem move_eq_ok_iff {coordinates : Coordinates} {a b : ParameterBlock K} {same : Bool}
    {B C : Dense K} :
    coordinates.move a b same B = .ok C ↔
      ∃ P Q, coordinates.frame a B.rows = .ok P ∧ coordinates.frame b B.cols = .ok Q ∧
        P.cols = B.rows ∧ Q.cols = B.cols ∧
        C = coordinates.finish same (Dense.sandwich P B Q) := by
  constructor
  · intro h
    obtain ⟨⟨P, hP⟩, Q, hQ⟩ := exists_frames_of_move h
    rw [move_eq hP hQ] at h
    split at h
    · rename_i hfit
      cases h
      exact ⟨P, Q, hP, hQ, hfit.1, hfit.2, rfl⟩
    · cases h
  · rintro ⟨P, Q, hP, hQ, hrows, hcols, rfl⟩
    rw [move_eq hP hQ, if_pos ⟨hrows, hcols⟩]

/-! ## Answers in exchange -/

theorem zeros_swap (coordinates : Coordinates) (a b : ParameterBlock K) :
    coordinates.zeros b a = (coordinates.zeros a b).transpose := by
  rw [Coordinates.zeros, Coordinates.zeros, Dense.transpose_zeros]

theorem move_swap {coordinates : Coordinates} {a b : ParameterBlock K} {B P Q : Dense K}
    (hP : coordinates.frame a B.rows = .ok P) (hQ : coordinates.frame b B.cols = .ok Q)
    (same : Bool) :
    coordinates.move b a same B.transpose = (coordinates.move a b same B).map Dense.transpose := by
  rw [move_eq hP hQ, move_eq (a := b) (b := a) (B := B.transpose) hQ hP]
  simp only [Dense.rows_transpose, Dense.cols_transpose, and_comm (a := Q.cols = B.cols)]
  by_cases hfit : P.cols = B.rows ∧ Q.cols = B.cols
  · rw [if_pos hfit, if_pos hfit, ← Dense.transpose_sandwich hfit.1 hfit.2, ← transpose_finish]
    rfl
  · rw [if_neg hfit, if_neg hfit]
    rfl

variable {f : Nat → Nat → K} {plan : Plan}

theorem transpose_blockOf (hf : ∀ i j, f i j = f j i) (bounds : ColumnBounds) (i j : Nat) :
    (blockOf f bounds i j).transpose = blockOf f bounds j i := by
  refine Dense.ext_get rfl rfl fun v u hv hu => ?_
  have hv : v < bounds.widthAt j := hv
  have hu : u < bounds.widthAt i := hu
  rw [Dense.get_transpose, blockOf, Dense.get_ofFn_of_lt _ hu hv, blockOf,
    Dense.get_ofFn_of_lt _ hv hu, hf]

/-- Two positions have frames, if an answer about them goes by their frames at all. -/
def Framed (plan : Plan) (q : Problem K) (coordinates : Coordinates) (i j : Nat) : Prop :=
  0 < plan.bounds.widthAt i → 0 < plan.bounds.widthAt j → plan.Covers i j →
    (∃ P, coordinates.frame (q.blockAt i) (plan.bounds.widthAt i) = .ok P) ∧
      ∃ Q, coordinates.frame (q.blockAt j) (plan.bounds.widthAt j) = .ok Q

/-- Where there is an answer there were frames. -/
theorem framed_of_answerAt {q : Problem K} {coordinates : Coordinates} {i j : Nat}
    {found : Option (Dense K)} (h : answerAt f plan q coordinates i j = .ok found) :
    Framed plan q coordinates i j := by
  intro hi hj hcovered
  rw [answerAt, if_neg (by omega), if_pos hcovered] at h
  obtain ⟨B, hB, -⟩ := map_eq_ok_iff.mp h
  exact exists_frames_of_move hB

/-- **Answers in exchange** are transposes of each other, and failures are the same. -/
theorem answerAt_swap (hf : ∀ i j, f i j = f j i) (r : plan.pattern.Mirrored) {q : Problem K}
    {coordinates : Coordinates} {i j : Nat} (framed : Framed plan q coordinates i j) :
    answerAt f plan q coordinates j i =
      (answerAt f plan q coordinates i j).map (Option.map Dense.transpose) := by
  have hcovers : plan.Covers j i ↔ plan.Covers i j := ⟨r _ _, r _ _⟩
  have hsame : decide (j = i) = decide (i = j) := decide_eq_decide.mpr eq_comm
  unfold answerAt
  simp only [or_comm (a := plan.bounds.widthAt j = 0), hcovers, hsame]
  split
  · rw [zeros_swap]
    rfl
  · rename_i hwidths
    split
    · rename_i hcovered
      obtain ⟨⟨P, hP⟩, Q, hQ⟩ := framed (by omega) (by omega) hcovered
      rw [← transpose_blockOf hf, move_swap (B := blockOf f plan.bounds i j) hP hQ]
      cases coordinates.move (q.blockAt i) (q.blockAt j) (decide (i = j))
        (blockOf f plan.bounds i j) <;> rfl
    · rfl

/-! ## Answers that are there -/

/-- The frame of the block at a position. -/
def frameAt (plan : Plan) (q : Problem K) (coordinates : Coordinates) (i : Nat) : Dense K :=
  match coordinates.frame (q.blockAt i) (plan.bounds.widthAt i) with
  | .ok P => P
  | .error _ => Dense.zeros 0 0

/-- An answer that is there is a matrix of zeros, or a block between its frames. -/
theorem answerAt_eq_some {q : Problem K} {coordinates : Coordinates} {i j : Nat} {B : Dense K}
    (h : answerAt f plan q coordinates i j = .ok (some B)) :
    ((plan.bounds.widthAt i = 0 ∨ plan.bounds.widthAt j = 0) ∧ ∃ m n, B = Dense.zeros m n) ∨
      (frameAt plan q coordinates i).cols = plan.bounds.widthAt i ∧
        (frameAt plan q coordinates j).cols = plan.bounds.widthAt j ∧
        B = coordinates.finish (i = j) (Dense.sandwich (frameAt plan q coordinates i)
          (blockOf f plan.bounds i j) (frameAt plan q coordinates j)) := by
  unfold answerAt at h
  split at h
  · rename_i hwidths
    left
    refine ⟨hwidths, ?_⟩
    cases h
    exact ⟨_, _, rfl⟩
  · right
    split at h
    · obtain ⟨B', hB', hsome⟩ := map_eq_ok_iff.mp h
      cases hsome
      obtain ⟨P, Q, hP, hQ, hrows, hcols, rfl⟩ := move_eq_ok_iff.mp hB'
      have hPat : frameAt plan q coordinates i = P := by
        rw [frameAt, show coordinates.frame (q.blockAt i) (plan.bounds.widthAt i) = .ok P from hP]
      have hQat : frameAt plan q coordinates j = Q := by
        rw [frameAt, show coordinates.frame (q.blockAt j) (plan.bounds.widthAt j) = .ok Q from hQ]
      rw [hPat, hQat]
      exact ⟨hrows, hcols, rfl⟩
    · cases h

end Covariance

end LeastSquares
