/-
LeastSquares.Proofs.Symmetry — every stored and every answered covariance is symmetric.

After a computation a plan holds averages of transposed entries. These are the values of a symmetric
function of row and column, whatever was averaged (`average_eq_gather`), and so it does not matter
what an algorithm made of the values: `exists_holding_of_compute` brings every computation into this
form, and everything below starts from there.

* `dense_transpose`: the stored matrix is its own transpose.
* `block_swap`: the answers about two handles and about the same in exchange are transposes of each
  other, in either coordinates. That failures are the same too is due to the computation itself,
  which has asked all manifolds of blocks with columns for their Jacobians (`framed_of_compute`).
* `Joined.transpose_eq`: a joint matrix takes its blocks above the diagonal from these answers and
  transposes them below it; on the diagonal stand answers about a block and itself.
-/
import LeastSquares.Proofs.Editing
import LeastSquares.Proofs.Estimation
import LeastSquares.Proofs.Evaluation
import LeastSquares.Proofs.Joining
import LeastSquares.Proofs.Lifting
import LeastSquares.Proofs.Rational

namespace LeastSquares

namespace Covariance

/-! ## What a covariance holds -/

section Holding

variable {α : Type}

/-- A covariance that holds values for a plan. -/
def holding (c : Covariance α) (plan : Plan) (values : Array α) : Covariance α :=
  { c with computed := true, estimate := .ready plan values }

variable {problem : Problem α} {request : List Item} {plan : Plan}

theorem lt_ranges_of_position (h : planOf problem request = .ok plan) {a : Atom} {i : Nat}
    (ha : problem.position a = .ok i) : i < plan.bounds.ranges.size := by
  rw [bounds_of_planOf h, ColumnBounds.size_ranges_make]
  exact Problem.lt_size_of_position ha

section Answers

variable [Zero α] [One α] [Add α] [Mul α] [Div α] [NatCast α]

variable {q : Problem α}

/-- What a covariance answers that holds the values of a function, about any problem of which the
plan knows the blocks. -/
theorem answer_block_holding (f : Nat → Nat → α) (h : planOf problem request = .ok plan)
    (c : Covariance α) (coordinates : Coordinates) {a b : Atom} {i j : Nat}
    (ha : q.position a = .ok i) (hb : q.position b = .ok j) (hi : i < plan.bounds.ranges.size)
    (hj : j < plan.bounds.ranges.size) :
    ((c.holding plan (Truncation.gather f plan.pattern)).block q coordinates a b).answer =
      answerAt f plan q coordinates i j :=
  blockIn_of_planOf f h coordinates ha hb hi hj

/-- A joint matrix of a covariance that holds the values of a function is made of what is answered
about the positions of its handles. -/
theorem joined_holding (f : Nat → Nat → α) (h : planOf problem request = .ok plan)
    {c : Covariance α} {engine : Engine α} {coordinates : Coordinates} {handles : List Atom}
    (hknown : ∀ a ∈ handles, ∀ k, q.position a = .ok k → k < plan.bounds.ranges.size)
    {M : Dense α}
    (hM : ((c.holding plan (Truncation.gather f plan.pattern)).matrix engine q coordinates
      handles).answer = .ok (some M)) :
    ∃ positions block, handles.mapM q.position = .ok positions ∧
      Joined (memberSizes q coordinates positions) block M ∧
      ∀ i j k l, i ≤ j → positions[i]? = some k → positions[j]? = some l →
        answerAt f plan q coordinates k l = .ok (some (block i j)) ∧
          goesInto (coordinates.size (q.blockAt k)) (block i j).rows = true ∧
          goesInto (coordinates.size (q.blockAt l)) (block i j).cols = true := by
  obtain ⟨positions, block, hpositions, joined, hblocks⟩ := joined_of_matrixIn hM
  refine ⟨positions, block, hpositions, joined, fun i j k l hij hk hl => ?_⟩
  obtain ⟨a, ha, hposition⟩ := exists_getElem?_of_mapM_eq_ok hpositions hk
  obtain ⟨b, hb, hposition'⟩ := exists_getElem?_of_mapM_eq_ok hpositions hl
  have hblock := hblocks i j a b k l hij ha hb hk hl
  rw [blockIn_of_planOf f h coordinates hposition hposition'
    (hknown a (List.mem_of_getElem? ha) k hposition)
    (hknown b (List.mem_of_getElem? hb) l hposition')] at hblock
  exact hblock

end Answers

end Holding

section Computing

variable {α : Type} [Zero α] [One α] [Add α] [Sub α] [Neg α] [Mul α] [Div α] [NatCast α] [BEq α]
  [LT α] [DecidableLT α] [LE α] [DecidableLE α] [Elementary α] {engine : Engine α}
  {c : Covariance α} {problem : Problem α} {request : List Item}

/-- What a computation leaves are averages of some values. -/
theorem exists_holding_of_compute (h : (compute engine c problem request).answer = .ok true) :
    ∃ plan raw, planOf problem request = .ok plan ∧
      (compute engine c problem request).state =
        c.holding plan (average raw plan.pattern.transposedOrder) := by
  obtain ⟨plan, values, hplan, hfilled, hstate⟩ := exists_of_compute h
  obtain ⟨r, -, -⟩ := regular_of_planOf hplan
  suffices hraw : ∃ raw, values = average raw plan.pattern.transposedOrder by
    obtain ⟨raw, rfl⟩ := hraw
    exact ⟨plan, raw, hplan, hstate⟩
  by_cases hempty : plan.pattern.nonzeros = 0
  · have hnil : plan.pattern.transposedOrder = [] := by
      rw [← List.length_eq_zero_iff, r.length_transposedOrder,
        r.toWellFormed.length_coordinates, ← r.toWellFormed.nonzeros_eq, hempty]
    rw [fillPlan, if_pos hempty] at hfilled
    cases hfilled
    exact ⟨#[], by rw [hnil]; rfl⟩
  · obtain ⟨J, hJ⟩ := exists_jacobian_of_fillPlan hempty hfilled
    rw [answer_fillPlan hempty hJ, estimateValues_eq r] at hfilled
    split at hfilled
    · cases hfilled
    · obtain ⟨found, -, hfound⟩ := map_eq_ok_iff.mp hfilled
      obtain ⟨raw, -, rfl⟩ := Option.map_eq_some_iff.mp hfound
      exact ⟨raw, rfl⟩

end Computing

variable {K : Type} [Field K]

section Framing

variable [BEq K] [LT K] [DecidableLT K] [LE K] [DecidableLE K] [Elementary K]
  {engine : Engine K} {c : Covariance K} {problem : Problem K} {request : List Item} {plan : Plan}

/-- A computation has asked the blocks with columns for their Jacobians. -/
theorem framed_of_compute (h : (compute engine c problem request).answer = .ok true)
    (hplan : planOf problem request = .ok plan) (coordinates : Coordinates) (i j : Nat) :
    Framed plan problem coordinates i j := by
  obtain ⟨plan', values, hplan', hfilled, -⟩ := exists_of_compute h
  rw [hplan] at hplan'
  cases hplan'
  intro hi hj hcovers
  have hnonzeros := (regular_of_planOf hplan).1.toWellFormed.nonzeros_ne_zero hcovers
  obtain ⟨J, hJ⟩ := exists_jacobian_of_fillPlan hnonzeros hfilled
  obtain ⟨projections, -, -, -, hprojections, -⟩ := Problem.jacobian_eq_ok_iff.mp hJ
  have hbounds := bounds_of_planOf hplan
  have hsize : plan.bounds.ranges.size = problem.blocks.size := by
    rw [hbounds, ColumnBounds.size_ranges_make]
  have hframe : ∀ {k : Nat}, 0 < plan.bounds.widthAt k →
      ∃ P, coordinates.frame (problem.blockAt k) (plan.bounds.widthAt k) = .ok P := by
    intro k hk
    refine exists_frame
      (Problem.exists_plusJacobian_of_projections hsize hprojections ?_ ?_) coordinates _
    · rw [← hsize]
      exact ColumnBounds.lt_size_of_widthAt_pos hk
    · intro hzero
      rw [ColumnBounds.widthAt, ColumnRange.width, hzero] at hk
      exact absurd hk (Nat.lt_irrefl 0)
  exact ⟨hframe hi, hframe hj⟩

end Framing

/-! ## Symmetric functions -/

variable {problem : Problem K} {request : List Item} {plan : Plan} {f : Nat → Nat → K}

/-- A matrix with the values of a symmetric function along a regular pattern is symmetric. -/
theorem dense_transpose (hf : ∀ i j, f i j = f j i) {p : Pattern} (r : p.Regular) :
    (Compressed.mk p (Truncation.gather f p)).dense.transpose =
      (Compressed.mk p (Truncation.gather f p)).dense := by
  have hentry : ∀ i j, i < p.numRows → j < p.numRows →
      (Compressed.mk p (Truncation.gather f p)).entry i j =
        (Compressed.mk p (Truncation.gather f p)).entry j i := by
    intro i j hi hj
    by_cases hij : p.Stores i j
    · rw [Compressed.entry_gather f r.toWellFormed r.ascending hij,
        Compressed.entry_gather f r.toWellFormed r.ascending (r.mirrored i j hij), hf]
    · have hji : ¬ p.Stores j i := fun h => hij (r.mirrored j i h)
      rw [Compressed.entry_eq_zero_of_not_stores _ fun h => hij ⟨hi, h⟩,
        Compressed.entry_eq_zero_of_not_stores _ fun h => hji ⟨hj, h⟩]
  have hsquare := r.square
  refine Dense.ext_get hsquare.symm hsquare fun j i hj hi => ?_
  have hj : j < p.numCols := hj
  have hi : i < p.numRows := hi
  have hj' : j < p.numRows := by rw [hsquare]; exact hj
  have hi' : i < p.numCols := by rw [← hsquare]; exact hi
  rw [Dense.get_transpose, Compressed.dense, Dense.get_ofFn_of_lt _ hi hj,
    Dense.get_ofFn_of_lt _ hj' hi']
  exact hentry i j hi hj'

/-- The answers of a covariance about two handles and about the same in exchange. -/
theorem block_swap (hf : ∀ i j, f i j = f j i) (h : planOf problem request = .ok plan)
    {coordinates : Coordinates} {i j : Nat} (framed : Framed plan problem coordinates i j)
    (c : Covariance K) {a b : Atom} (ha : problem.position a = .ok i)
    (hb : problem.position b = .ok j) :
    ((c.holding plan (Truncation.gather f plan.pattern)).block problem coordinates b a).answer =
      ((c.holding plan (Truncation.gather f plan.pattern)).block problem coordinates a b).answer.map
        (Option.map Dense.transpose) := by
  have hi := lt_ranges_of_position h ha
  have hj := lt_ranges_of_position h hb
  rw [answer_block_holding f h c coordinates ha hb hi hj,
    answer_block_holding f h c coordinates hb ha hj hi]
  exact answerAt_swap hf (regular_of_planOf h).1.mirrored framed

/-- A matrix of blocks is symmetric if those on the diagonal are. -/
theorem Joined.transpose_eq {sizes : List Nat} {block : Nat → Nat → Dense K} {M : Dense K}
    (joined : Joined sizes block M)
    (hdiagonal : ∀ i, i < sizes.length → (block i i).transpose = block i i) : M.transpose = M := by
  have hsquare : M.rows = M.cols := joined.rows.trans joined.cols.symm
  refine Dense.ext_get hsquare.symm hsquare fun r r' hr hr' => ?_
  have hr : r < (rowsOf sizes).length := by rw [← joined.cols]; exact hr
  have hr' : r' < (rowsOf sizes).length := by rw [← joined.rows]; exact hr'
  obtain ⟨i, u, hu, rfl⟩ := exists_place hr
  obtain ⟨j, v, hv, rfl⟩ := exists_place hr'
  rw [Dense.get_transpose, joined.get j i v u hv hu, joined.get i j u v hu hv]
  rcases Nat.lt_trichotomy i j with hij | rfl | hij
  · rw [if_neg (by omega), if_pos (by omega)]
  · have hself := hdiagonal i (lt_length_of_lt_sizeAt hu)
    have hblock : (block i i).cols = (block i i).rows := congrArg Dense.rows hself
    rw [if_pos (Nat.le_refl i), if_pos (Nat.le_refl i), stretched, stretched, hblock,
      ← Dense.get_transpose, hself]
  · rw [if_pos (by omega), if_neg (by omega)]

/-- A joint matrix of a symmetric function is symmetric. -/
theorem matrix_transpose (hf : ∀ i j, f i j = f j i) (h : planOf problem request = .ok plan)
    {c : Covariance K} {engine : Engine K} {coordinates : Coordinates} {handles : List Atom}
    {M : Dense K}
    (hM : ((c.holding plan (Truncation.gather f plan.pattern)).matrix engine problem coordinates
      handles).answer = .ok (some M)) : M.transpose = M := by
  obtain ⟨positions, block, -, joined, hblocks⟩ :=
    joined_holding f h (fun a _ k hk => lt_ranges_of_position h hk) hM
  refine joined.transpose_eq fun i hi => ?_
  have hi : i < positions.length := by simpa [memberSizes] using hi
  obtain ⟨hanswer, -⟩ := hblocks i i _ _ (Nat.le_refl i) (List.getElem?_eq_getElem hi)
    (List.getElem?_eq_getElem hi)
  have hself := answerAt_swap hf (regular_of_planOf h).1.mirrored (framed_of_answerAt hanswer)
  rw [hanswer] at hself
  simpa [Except.map] using hself.symm

section Results

variable [LinearOrder K] [Elementary K] {engine : Engine K} {c : Covariance K}

/-- What a computation leaves are the values of a symmetric function. -/
theorem exists_symmetric_of_compute
    (h : (compute engine c problem request).answer = .ok true) :
    ∃ plan f, planOf problem request = .ok plan ∧ (∀ i j, f i j = f j i) ∧
      (compute engine c problem request).state =
        c.holding plan (Truncation.gather f plan.pattern) := by
  obtain ⟨plan, raw, hplan, hstate⟩ := exists_holding_of_compute h
  refine ⟨plan, fun i j => half * (valueAt raw plan.pattern i j + valueAt raw plan.pattern j i),
    hplan, fun i j => congrArg (half * ·) (add_comm _ _), ?_⟩
  rw [← average_eq_gather raw (regular_of_planOf hplan).1]
  exact hstate

/-- **Exact symmetry.** After a computation that succeeds, a covariance holds averages of the values
that its algorithm found. Whatever these values were: the stored matrix is its own transpose, and so
is its pattern; the blocks of two handles and of the same in exchange are transposes of each other,
or both are not there, or fail in the same way; and joint matrices are symmetric, whatever handles
they are for. -/
theorem computed_symmetric (h : (compute engine c problem request).answer = .ok true) :
    ∃ plan raw, planOf problem request = .ok plan ∧
      (compute engine c problem request).state =
        c.holding plan (average raw plan.pattern.transposedOrder) ∧
      ∀ raw : Array K,
        let held := c.holding plan (average raw plan.pattern.transposedOrder)
        (∃ M, held.estimate.matrix? = some M ∧ M.pattern.transposed = M.pattern ∧
          M.dense.transpose = M.dense) ∧
        ∀ coordinates,
          (∀ a b i j, problem.position a = .ok i → problem.position b = .ok j →
            (held.block problem coordinates b a).answer =
              (held.block problem coordinates a b).answer.map (Option.map Dense.transpose)) ∧
          ∀ (engine' : Engine K) handles M,
            (held.matrix engine' problem coordinates handles).answer = .ok (some M) →
              M.transpose = M := by
  obtain ⟨plan, raw, hplan, hstate⟩ := exists_holding_of_compute h
  refine ⟨plan, raw, hplan, hstate, ?_⟩
  intro raw held
  obtain ⟨r, -, -⟩ := regular_of_planOf hplan
  have framed := framed_of_compute h hplan
  have hf : ∀ i j, half * (valueAt raw plan.pattern i j + valueAt raw plan.pattern j i) =
      half * (valueAt raw plan.pattern j i + valueAt raw plan.pattern i j) :=
    fun i j => by rw [add_comm]
  have hheld : held = c.holding plan (Truncation.gather
      (fun i j => half * (valueAt raw plan.pattern i j + valueAt raw plan.pattern j i))
      plan.pattern) := by rw [← average_eq_gather raw r]
  rw [hheld]
  exact ⟨⟨_, rfl, r.transposed_eq, dense_transpose hf r⟩, fun coordinates =>
    ⟨fun a b i j ha hb => block_swap hf hplan (framed coordinates i j) c ha hb,
      fun engine' handles M hM => matrix_transpose hf hplan hM⟩⟩

/-- The values `1, 2, 3, 4` of a block of two parameters are averaged, and the joint matrix of the
block with itself is symmetric. -/
theorem computed_symmetric_square :
    (compute Engine.exact (plain .sparseQr) (oneBlock 2 #[2, 0, 0, 1]) itself).answer = .ok true ∧
      ∃ M, (((plain .sparseQr).holding oneBlockPlan
          (average #[1, 2, 3, 4] oneBlockPlan.pattern.transposedOrder)).matrix Engine.exact
          (oneBlock 2 #[2, 0, 0, 1]) .ambient [.integer 0, .integer 0]).answer = .ok (some M) ∧
        M.get 0 3 = 5 / 2 ∧ M.transpose = M := by
  have hanswer := answer_square .sparseQr
  obtain ⟨plan, -, hplan, -, hsymmetric⟩ := computed_symmetric hanswer
  rw [planOf_oneBlock] at hplan
  cases hplan
  have hmatrix : (((plain .sparseQr).holding oneBlockPlan
      (average #[1, 2, 3, 4] oneBlockPlan.pattern.transposedOrder)).matrix Engine.exact
      (oneBlock 2 #[2, 0, 0, 1]) .ambient [.integer 0, .integer 0]).answer =
        .ok (some (Dense.ofRows 4 [[1, 5 / 2, 1, 5 / 2], [5 / 2, 4, 5 / 2, 4],
          [1, 5 / 2, 1, 5 / 2], [5 / 2, 4, 5 / 2, 4]])) := by cbv
  exact ⟨hanswer, _, hmatrix, by cbv,
    ((hsymmetric #[1, 2, 3, 4]).2 .ambient).2 Engine.exact _ _ hmatrix⟩

end Results

end Covariance

end LeastSquares
