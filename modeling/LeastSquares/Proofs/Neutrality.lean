/-
LeastSquares.Proofs.Neutrality — manifolds that leave out no direction change nothing.

A block without a manifold moves in all its directions, and so does one with the Euclidean manifold
of its size, or with a subset manifold of which no coordinate is constant. The two kinds of blocks
take different ways: with a manifold the Jacobians are multiplied by its own, and the answers are
lifted. But the Jacobian of such a manifold is the identity, over a ring both ways end at the same
matrix, and all sizes are the same.

* `Dressed` relates a problem to the same one with such manifolds on some blocks that had none;
  setting them is how to get there (`Dressed.setManifold`).
* `Dressed.jacobian_eq`, `compute_eq_of_dressed`, `blockIn_eq_of_dressed` and
  `matrixIn_eq_of_dressed`: nothing that is answered or logged can tell the two problems apart.
* `block_of_neutral`: the block of two parameter blocks that move in all directions is the same in
  either coordinates.
-/
import LeastSquares.Manifold.Euclidean
import LeastSquares.Manifold.Subset
import LeastSquares.Proofs.History
import LeastSquares.Proofs.Inversion
import LeastSquares.Proofs.Likeness

namespace LeastSquares

/-! ## Neutral manifolds -/

/-- The subset of which no coordinate is constant. -/
def Subset.full (size : Nat) : Subset where
  size := size
  constants := []
  nodup := List.nodup_nil
  lt_size _ h := nomatch h

/-- Every coordinate moves with its own tangent entry. -/
theorem Subset.plusJacobian_full {α : Type} [Zero α] [One α] (size : Nat) :
    (full size).plusJacobian = (Dense.identity size : Dense α) := by
  have hwidth : (full size).tangentSize.toNat = size := by simp [tangentSize, full]
  refine Dense.ext_get (Int.toNat_natCast _) hwidth fun i j hi hj => ?_
  have hi : i < (full size).size.toNat := hi
  have hj : j < (full size).tangentSize.toNat := hj
  have hlt : j < size := by rwa [hwidth] at hj
  rw [Dense.get_identity (n := size) hi hlt, plusJacobian, Dense.get_ofFn_of_lt _ hi hj]
  simp [free, full, hlt, eq_comm]

section Neutral

variable {α : Type} [Zero α] [One α] [Add α] [Sub α]

/-- Without constant coordinates a subset manifold is made of them all. -/
theorem Manifold.subset_nil (size : Nat) :
    (subset size [] : Except Fault (Manifold α)) = .ok (.ofSubset (.full size)) := by
  have hmake : Subset.make size [] = .ok (.full size) := by
    simp [Subset.make, Subset.full]
  have hnone : ([] : List Atom).mapM Atom.whole = .ok [] := rfl
  rw [Manifold.subset, hnone]
  show (Subset.make size [] >>= fun m => pure (ofSubset m) : Except Fault (Manifold α)) = _
  rw [hmake]
  rfl

/-- The manifolds of a size that leave out no direction. -/
def Manifold.Neutral (m : Manifold α) (size : Nat) : Prop :=
  m = Manifold.euclidean size ∨ Manifold.subset size [] = .ok m

namespace Manifold.Neutral

variable {m : Manifold α} {size : Nat}

theorem eq_or_eq (h : m.Neutral size) :
    m = Manifold.euclidean size ∨ m = .ofSubset (.full size) := by
  rw [Neutral, subset_nil, Except.ok.injEq] at h
  exact h.imp_right Eq.symm

theorem ambientSize_eq (h : m.Neutral size) : m.ambientSize = size := by
  rcases h.eq_or_eq with rfl | rfl
  · rfl
  · rfl

theorem tangentSize_eq (h : m.Neutral size) : m.tangentSize = size := by
  rcases h.eq_or_eq with rfl | rfl
  · rfl
  · exact Int.sub_zero _

/-- At a point of its size the Jacobian is the identity. -/
theorem plusJacobian_eq {x : Array α} (h : m.Neutral x.size) :
    m.plusJacobian x = .ok (Dense.identity x.size) := by
  rcases h.eq_or_eq with rfl | rfl
  · exact plusJacobian_euclidean x
  · rw [← Subset.plusJacobian_full]
    exact if_pos rfl

end Manifold.Neutral

namespace ParameterBlock

/-- A block that moves in all directions: without a manifold, or with a neutral one. -/
def Neutral (b : ParameterBlock α) : Prop := ∀ m, b.manifold = some m → m.Neutral b.ambientSize

variable {b : ParameterBlock α}

theorem Neutral.tangentSize_eq (h : b.Neutral) : b.tangentSize = b.ambientSize := by
  unfold tangentSize
  cases hmanifold : b.manifold with
  | none => rfl
  | some m => exact (h m hmanifold).tangentSize_eq

theorem Neutral.plusJacobian_eq (h : b.Neutral) :
    b.plusJacobian = .ok (Dense.identity b.ambientSize) := by
  unfold plusJacobian
  cases hmanifold : b.manifold with
  | none => rfl
  | some m => exact (h m hmanifold).plusJacobian_eq

end ParameterBlock

end Neutral

/-! ## The same problem with neutral manifolds -/

namespace Problem

section Dressing

variable {α : Type} [Zero α] [One α] [Add α] [Sub α]

/-- The second problem is the first one with neutral manifolds on some blocks that had none. -/
structure Dressed (p q : Problem α) : Prop where
  residuals_eq : q.residuals = p.residuals
  size_eq : q.blocks.size = p.blocks.size
  blockAt_eq : ∀ i, q.blockAt i = p.blockAt i ∨ ∃ m, (p.blockAt i).manifold = none ∧
    m.Neutral (p.blockAt i).ambientSize ∧ q.blockAt i = (p.blockAt i).withManifold (some m)

namespace Dressed

variable {p q : Problem α}

theorem refl (p : Problem α) : p.Dressed p := ⟨rfl, rfl, fun _ => Or.inl rfl⟩

/-- Neutral manifolds have the sizes of their blocks. -/
theorem alike (h : p.Dressed q) : p.Alike q := by
  have hblock : ∀ i, (q.blockAt i).values = (p.blockAt i).values ∧
      (q.blockAt i).held = (p.blockAt i).held ∧
        (q.blockAt i).tangentSize = (p.blockAt i).tangentSize := by
    intro i
    rcases h.blockAt_eq i with heq | ⟨m, hnone, hm, heq⟩
    · rw [heq]
      exact ⟨rfl, rfl, rfl⟩
    · rw [heq]
      refine ⟨ParameterBlock.values_withManifold _ _, ParameterBlock.held_withManifold _ _, ?_⟩
      rw [ParameterBlock.tangentSize_withManifold hm.ambientSize_eq, ParameterBlock.tangentSize,
        hnone, hm.tangentSize_eq]
  exact ⟨h.residuals_eq, h.size_eq, fun i => (hblock i).1, fun i => (hblock i).2.1,
    fun i => (hblock i).2.2⟩

/-- A block is the same, or moves in all directions in both problems. -/
theorem eq_or_neutral (h : p.Dressed q) (i : Nat) :
    q.blockAt i = p.blockAt i ∨ (p.blockAt i).Neutral ∧ (q.blockAt i).Neutral := by
  refine (h.blockAt_eq i).imp_right ?_
  rintro ⟨m, hnone, hm, heq⟩
  refine ⟨fun m' hm' => ?_, fun m' hm' => ?_⟩
  · rw [hnone] at hm'
    cases hm'
  · rw [heq, ParameterBlock.manifold_withManifold hm.ambientSize_eq, Option.some.injEq] at hm'
    rw [h.alike.ambientSize_eq, ← hm']
    exact hm

/-- A block without a manifold accepts a neutral one. -/
theorem setManifold (h : p.Dressed q) {a : Atom} {i : Nat} (ha : p.position a = .ok i)
    (hnone : (p.blockAt i).manifold = none) {m : Manifold α}
    (hm : m.Neutral (p.blockAt i).ambientSize) :
    ∃ q', q.setManifold a (some m) = .ok q' ∧ p.Dressed q' := by
  have hset : q.setManifold a (some m) =
      .ok (q.modify i fun b => b.withManifold (some m)) := by
    have hsize : m.ambientSize = ((q.blockAt i).ambientSize : Int) := by
      rw [hm.ambientSize_eq, h.alike.ambientSize_eq]
    simp only [Problem.setManifold, h.alike.position_eq, ha, hsize, if_true]
    rfl
  refine ⟨_, hset, h.residuals_eq, (size_modify q i _).trans h.size_eq, fun j => ?_⟩
  rw [blockAt_modify]
  split
  · rename_i hij
    obtain ⟨rfl, -⟩ := hij
    refine Or.inr ⟨m, hnone, hm, ?_⟩
    rcases h.blockAt_eq i with heq | ⟨m', -, -, heq⟩
    · rw [heq]
    · rw [heq]
      exact ParameterBlock.withManifold_withManifold _ hm.ambientSize_eq
  · exact h.blockAt_eq j

/-- The projection of a block is the same, or it is the identity where there was none. -/
theorem projectionAt_eq (h : p.Dressed q) (bounds : ColumnBounds) (i : Nat) :
    q.projectionAt bounds i = p.projectionAt bounds i ∨
      p.projectionAt bounds i = .ok none ∧
        q.projectionAt bounds i = .ok (some (Dense.identity (p.blockAt i).ambientSize)) := by
  unfold projectionAt
  rcases h.blockAt_eq i with heq | ⟨m, hnone, hm, heq⟩
  · exact Or.inl (by rw [heq])
  · simp only [heq, hnone, ParameterBlock.manifold_withManifold hm.ambientSize_eq,
      ParameterBlock.values_withManifold]
    split
    · exact Or.inl rfl
    · right
      rw [ParameterBlock.ambientSize, hm.plusJacobian_eq]
      exact ⟨trivial, rfl⟩

/-- Projections fail alike, and those that are found differ by identities alone. -/
theorem projections_cases (h : p.Dressed q) {bounds : ColumnBounds}
    (hsize : bounds.ranges.size = p.blocks.size) :
    (∃ e, p.projections bounds = .error e ∧ q.projections bounds = .error e) ∨
      ∃ Ps Qs, p.projections bounds = .ok Ps ∧ q.projections bounds = .ok Qs ∧
        ∀ i, Qs.getD i none = Ps.getD i none ∨ Ps.getD i none = none ∧
          Qs.getD i none = some (Dense.identity (p.blockAt i).ambientSize) := by
  have hsize' : bounds.ranges.size = q.blocks.size := hsize.trans h.size_eq.symm
  have hfaults : ∀ e, q.projections bounds = .error e ↔ p.projections bounds = .error e := by
    intro e
    rw [projections_eq hsize, projections_eq hsize', h.size_eq, map_eq_error_iff, map_eq_error_iff,
      mapM_eq_error_iff, mapM_eq_error_iff]
    refine iff_of_eq (congrArg (· = some e) (findSome?_congr fun i _ => ?_))
    rcases h.projectionAt_eq bounds i with heq | ⟨hp, hq⟩
    · rw [heq]
    · rw [hp, hq]
      rfl
  cases hPs : p.projections bounds with
  | error e => exact Or.inl ⟨e, rfl, (hfaults e).mpr hPs⟩
  | ok Ps =>
    cases hQs : q.projections bounds with
    | error e =>
      rw [(hfaults e).mp hQs] at hPs
      cases hPs
    | ok Qs =>
      refine Or.inr ⟨Ps, Qs, rfl, rfl, fun i => ?_⟩
      rcases Nat.lt_or_ge i p.blocks.size with hi | hi
      · have hp := projectionAt_of_projections hsize hPs hi
        have hq := projectionAt_of_projections hsize' hQs (i := i) (by rw [h.size_eq]; exact hi)
        rcases h.projectionAt_eq bounds i with heq | ⟨hnone, hidentity⟩
        · rw [heq, hp, Except.ok.injEq] at hq
          exact Or.inl hq.symm
        · rw [hnone, Except.ok.injEq] at hp
          rw [hidentity, Except.ok.injEq] at hq
          exact Or.inr ⟨hp.symm, hq.symm⟩
      · rw [getD_of_projections hsize hPs hi,
          getD_of_projections hsize' hQs (i := i) (by rw [h.size_eq]; exact hi)]
        exact Or.inl rfl

end Dressed

end Dressing

/-! ## The same Jacobian -/

namespace Dressed

variable {K : Type} [Field K] {p q : Problem K}

/-- Multiplying with an identity makes no difference. -/
theorem projectOne_eq {Ps Qs : Array (Option (Dense K))} {i : Nat} {J : Dense K}
    (hPQ : Qs.getD i none = Ps.getD i none ∨
      Ps.getD i none = none ∧ Qs.getD i none = some (Dense.identity J.cols)) :
    projectOne Qs i J = projectOne Ps i J := by
  unfold projectOne
  rcases hPQ with heq | ⟨hnone, hidentity⟩
  · rw [heq]
  · simp only [hnone, hidentity]
    rw [Dense.mul?_eq_ok rfl, Dense.mul_identity]

variable [BEq K] [LE K] [DecidableLE K] [Elementary K]

/-- The evaluated residual blocks are the same. -/
theorem evaluate_eq (h : p.Dressed q) {Ps Qs : Array (Option (Dense K))} {r : ResidualBlock K}
    (hPQ : ∀ i ∈ r.blocks, Qs.getD i none = Ps.getD i none ∨ Ps.getD i none = none ∧
      Qs.getD i none = some (Dense.identity (p.blockAt i).ambientSize)) (applyLoss : Bool) :
    q.evaluate Qs applyLoss r = p.evaluate Ps applyLoss r := by
  rw [evaluate_eq_bind, evaluate_eq_bind, h.alike.linearized_eq]
  cases hlinearized : p.linearized applyLoss r with
  | error e => rfl
  | ok found =>
    obtain ⟨residual, Js⟩ := found
    have hproject : project Qs r.blocks Js = project Ps r.blocks Js := by
      rw [project_eq, project_eq]
      refine mapM_congr fun iJ hiJ => projectOne_eq ?_
      rw [(shape_of_linearized hlinearized hiJ).2]
      exact hPQ iJ.1 (List.of_mem_zip hiJ).1
    simp only [bind, Except.bind, hproject]

/-- **The same Jacobian**, or the same fault, and the same log line. -/
theorem jacobian_eq (h : p.Dressed q) (tangentSpace : Bool) (schedule : Schedule)
    (applyLoss : Bool) (threads : Int) :
    q.jacobian schedule (ColumnBounds.make q tangentSpace) applyLoss threads =
      p.jacobian schedule (ColumnBounds.make p tangentSpace) applyLoss threads := by
  rw [h.alike.make_eq]
  have hevaluateAll : q.evaluateAll schedule (ColumnBounds.make p tangentSpace) applyLoss threads =
      p.evaluateAll schedule (ColumnBounds.make p tangentSpace) applyLoss threads := by
    rw [evaluateAll_eq, evaluateAll_eq, h.residuals_eq]
    rcases h.projections_cases (ColumnBounds.size_ranges_make p tangentSpace) with
      ⟨e, hPs, hQs⟩ | ⟨Ps, Qs, hPs, hQs, hPQ⟩
    · rw [hPs, hQs]
    · simp only [hPs, hQs]
      exact mapM_congr fun r _ => h.evaluate_eq (fun i _ => hPQ i) applyLoss
  simp only [jacobian, hevaluateAll, h.residuals_eq]

end Dressed

end Problem

/-! ## The same computation -/

namespace Covariance

/-- A block that moves in all directions is not moved by its frame. -/
theorem liftRows_of_neutral {K : Type} [Field K] {b : ParameterBlock K} (h : b.Neutral)
    {B : Dense K} (hB : B.rows = b.ambientSize) : liftRows b B = .ok B := by
  unfold liftRows
  cases b.manifold with
  | none => rfl
  | some m =>
    simp only [h.plusJacobian_eq, bind, Except.bind, ← hB]
    rw [Dense.mul?_eq_ok rfl, Dense.identity_mul]

theorem liftCols_of_neutral {K : Type} [Field K] {b : ParameterBlock K} (h : b.Neutral)
    {B : Dense K} (hB : B.cols = b.ambientSize) : liftCols b B = .ok B := by
  unfold liftCols
  cases b.manifold with
  | none => rfl
  | some m =>
    simp only [h.plusJacobian_eq, bind, Except.bind, ← hB, Dense.transpose_identity]
    rw [Dense.mul?_eq_ok rfl, Dense.mul_identity]

section Computing

variable {K : Type} [Field K] [BEq K] [LT K] [DecidableLT K] [LE K] [DecidableLE K] [Elementary K]
  {p q : Problem K}

/-- **The same computation**: its answer, what it leaves and its log. -/
theorem compute_eq_of_dressed (h : p.Dressed q) (engine : Engine K) (c : Covariance K)
    (request : List Item) : compute engine c q request = compute engine c p request := by
  refine compute_eq_of_aligned h.alike.aligned (fun schedule applyLoss threads => ?_) engine c
    request
  have hjacobian := h.jacobian_eq true schedule applyLoss threads
  rwa [h.alike.make_eq] at hjacobian

end Computing

/-! ## The same answers -/

/-- As many positions are found as the first block has columns. -/
theorem length_of_offsets {α : Type} {p : Problem α} {request : List Item} {plan : Plan}
    (hplan : planOf p request = .ok plan) {a b : Atom} {i j : Nat}
    (ha : p.position a = .ok i) (hb : p.position b = .ok j) {offsets : List Nat}
    (h : plan.offsets a b = .ok (some offsets)) : offsets.length = plan.bounds.widthAt i := by
  have hi := lt_ranges_of_position hplan ha
  have hj := lt_ranges_of_position hplan hb
  obtain ⟨-, pairs, -, -, -, rfl⟩ := exists_pairs_of_planOf hplan
  rw [Plan.bounds_ofPairs] at hi hj
  rw [Plan.offsets_eq ha hb hi hj, Except.ok.injEq] at h
  have hlength := congrArg List.length (mapM_eq_some_iff.mp h)
  simpa [ColumnRange.columns, ColumnBounds.widthAt] using hlength.symm

section Asking

variable {K : Type} [Field K] {p q : Problem K} {request : List Item} {plan : Plan}

/-- The rows of a block are moved alike. -/
theorem liftRows_eq_of_dressed (h : p.Dressed q) {i : Nat} {B : Dense K}
    (hB : (B.rows : Int) = (p.blockAt i).tangentSize) :
    liftRows (q.blockAt i) B = liftRows (p.blockAt i) B := by
  rcases h.eq_or_neutral i with heq | ⟨hp, hq⟩
  · rw [heq]
  · rw [hp.tangentSize_eq, Int.ofNat_inj] at hB
    rw [liftRows_of_neutral hp hB,
      liftRows_of_neutral hq (hB.trans (h.alike.ambientSize_eq i).symm)]

/-- The columns of a block are moved alike. -/
theorem liftCols_eq_of_dressed (h : p.Dressed q) {i : Nat} {B : Dense K}
    (hB : (B.cols : Int) = (p.blockAt i).tangentSize) :
    liftCols (q.blockAt i) B = liftCols (p.blockAt i) B := by
  rcases h.eq_or_neutral i with heq | ⟨hp, hq⟩
  · rw [heq]
  · rw [hp.tangentSize_eq, Int.ofNat_inj] at hB
    rw [liftCols_of_neutral hp hB,
      liftCols_of_neutral hq (hB.trans (h.alike.ambientSize_eq i).symm)]

/-- Moving the rows of a block keeps its columns. -/
theorem cols_of_liftRows {b : ParameterBlock K} {B C : Dense K} (h : liftRows b B = .ok C) :
    C.cols = B.cols := by
  obtain ⟨P, hP⟩ := exists_frame_of_liftRows h
  rw [liftRows_eq hP] at h
  exact cols_of_mul? h

/-- A block is moved alike. -/
theorem lift_eq_of_dressed (h : p.Dressed q) {i j : Nat} {B : Dense K} (same : Bool)
    (hrows : (B.rows : Int) = (p.blockAt i).tangentSize)
    (hcols : (B.cols : Int) = (p.blockAt j).tangentSize) :
    lift (q.blockAt i) (q.blockAt j) same B = lift (p.blockAt i) (p.blockAt j) same B := by
  have hboth : (liftRows (p.blockAt i) B >>= liftCols (q.blockAt j)) =
      liftRows (p.blockAt i) B >>= liftCols (p.blockAt j) := by
    cases hleft : liftRows (p.blockAt i) B with
    | error e => rfl
    | ok left => exact liftCols_eq_of_dressed h (by rw [cols_of_liftRows hleft]; exact hcols)
  rw [lift_eq, lift_eq, liftRows_eq_of_dressed h hrows, hboth]

/-- **The same blocks**, and the same log lines. -/
theorem blockIn_eq_of_dressed (h : p.Dressed q) (hplan : planOf p request = .ok plan)
    (values : Array K) (coordinates : Coordinates) (a b : Atom) :
    blockIn plan values q coordinates a b = blockIn plan values p coordinates a b := by
  unfold blockIn
  simp only [h.alike.position_eq]
  cases ha : p.position a with
  | error e => rfl
  | ok i =>
    cases hb : p.position b with
    | error e => rfl
    | ok j =>
      have hlift : isZero plan.bounds a b = .ok false →
          ∀ offsets, plan.offsets a b = .ok (some offsets) →
            lift (q.blockAt i) (q.blockAt j) (i = j)
                (readBlock values offsets (plan.bounds.rangeAt j).width) =
              lift (p.blockAt i) (p.blockAt j) (i = j)
                (readBlock values offsets (plan.bounds.rangeAt j).width) := by
        intro hzero offsets hoffsets
        have hi := lt_ranges_of_position hplan ha
        have hj := lt_ranges_of_position hplan hb
        rw [isZero_eq (regular_of_planOf hplan).2.1 ha hb hi hj, Except.ok.injEq,
          decide_eq_false_iff_not, not_or] at hzero
        refine lift_eq_of_dressed h _ ?_ ?_
        · rw [← widthAt_eq_tangentSize hplan (Nat.pos_of_ne_zero hzero.1),
            ← length_of_offsets hplan ha hb hoffsets]
          rfl
        · rw [← widthAt_eq_tangentSize hplan (Nat.pos_of_ne_zero hzero.2)]
          rfl
      simp only [h.alike.zeros_eq]
      cases hzero : isZero plan.bounds a b with
      | error e => rfl
      | ok zero =>
        cases zero with
        | true => rfl
        | false =>
          cases hoffsets : plan.offsets a b with
          | error e => rfl
          | ok found =>
            cases found with
            | none => rfl
            | some offsets => simp only [hlift hzero offsets hoffsets]

/-- **The same joint matrices**, and the same log lines. -/
theorem matrixIn_eq_of_dressed (h : p.Dressed q) (hplan : planOf p request = .ok plan)
    (schedule : Schedule) (threads : Int) (values : Array K) (coordinates : Coordinates)
    (handles : List Atom) :
    matrixIn schedule threads plan values q coordinates handles =
      matrixIn schedule threads plan values p coordinates handles :=
  matrixIn_congr h.alike.aligned
    (fun a _ b _ => blockIn_eq_of_dressed h hplan values coordinates a b)
    (fun _ _ i _ => h.alike.sizeIn_eq coordinates i) schedule threads

end Asking

/-! ## Tangent vectors and parameters -/

section Coinciding

variable {K : Type} [Field K] [LinearOrder K] [IsStrictOrderedRing K] {p : Problem K}
  {request : List Item} {plan : Plan} {f : Nat → Nat → K} {i j : Nat}

/-- A symmetric matrix is its own average. -/
theorem symmetrized_of_transpose {A : Dense K} (h : A.transpose = A) : A.symmetrized = A := by
  refine Dense.ext_get rfl rfl fun u v hu hv => ?_
  have hu : u < A.rows := hu
  have hv : v < A.cols := hv
  have hentry : A.get v u = A.get u v := by rw [← Dense.get_transpose, h]
  rw [Dense.get_symmetrized A hu hv, hentry, half_mul_add_self]

/-- Where two blocks move in all directions the values of a symmetric function are answered alike in
both coordinates. -/
theorem answerAt_of_neutral (hf : ∀ i j, f i j = f j i) (hplan : planOf p request = .ok plan)
    (hi : (p.blockAt i).Neutral) (hj : (p.blockAt j).Neutral) :
    answerAt f plan p .tangent i j = answerAt f plan p .ambient i j := by
  unfold answerAt
  split
  · simp only [Coordinates.zeros, Coordinates.size, hi.tangentSize_eq, hj.tangentSize_eq]
  · rename_i hwidths
    split
    · have hwidth : ∀ {k : Nat}, (p.blockAt k).Neutral → plan.bounds.widthAt k ≠ 0 →
          plan.bounds.widthAt k = (p.blockAt k).ambientSize := fun hk hne => by
        have htangent := widthAt_eq_tangentSize hplan (Nat.pos_of_ne_zero hne)
        rwa [hk.tangentSize_eq, Int.ofNat_inj] at htangent
      have hrows : (blockOf f plan.bounds i j).rows = (p.blockAt i).ambientSize :=
        hwidth hi fun h => hwidths (Or.inl h)
      have hcols : (blockOf f plan.bounds i j).cols = (p.blockAt j).ambientSize :=
        hwidth hj fun h => hwidths (Or.inr h)
      simp only [Coordinates.move, lift_eq, liftRows_of_neutral hi hrows, bind, Except.bind,
        liftCols_of_neutral hj hcols, Except.map, Except.ok.injEq, Option.some.injEq,
        decide_eq_true_eq]
      split
      · rename_i hij
        subst hij
        exact (symmetrized_of_transpose (transpose_blockOf hf plan.bounds i i)).symm
      · rfl
    · rfl

variable [Elementary K] {engine : Engine K} {c : Covariance K}

/-- The block of two parameter blocks that move in all directions is the same in both
coordinates. -/
theorem block_of_neutral {a b : Atom} (ha : p.position a = .ok i) (hb : p.position b = .ok j)
    (hi : (p.blockAt i).Neutral) (hj : (p.blockAt j).Neutral) :
    ((compute engine c p request).state.block p .tangent a b).answer =
      ((compute engine c p request).state.block p .ambient a b).answer := by
  cases hready : (compute engine c p request).state.estimate with
  | absent => simp only [block, whenReady, hready]
  | failed plan => simp only [block, whenReady, hready]
  | ready plan values =>
    obtain ⟨-, htrue⟩ := planned_of_ready hready
    obtain ⟨plan, f, hplan, hf, hstate⟩ := exists_symmetric_of_compute htrue
    have hlt := lt_ranges_of_position hplan ha
    have hlt' := lt_ranges_of_position hplan hb
    rw [hstate, answer_block_holding f hplan c .tangent ha hb hlt hlt',
      answer_block_holding f hplan c .ambient ha hb hlt hlt']
    exact answerAt_of_neutral hf hplan hi hj

/-- **Neutral manifolds change nothing.** Give some blocks that have no manifold the Euclidean one
of their size, or the subset manifold without constant coordinates. The columns, the Jacobian, the
computation with what it stores, and every answer of the four queries are the same, whatever the
request, the options and the engine are. And the block of two parameter blocks that have no
manifold, or such a one, is the same in tangent coordinates as in those of the parameters. -/
theorem neutral_manifolds {q : Problem K} (h : p.Dressed q) :
    (∀ tangentSpace, ColumnBounds.make q tangentSpace = ColumnBounds.make p tangentSpace) ∧
    (∀ tangentSpace schedule applyLoss threads,
      q.jacobian schedule (ColumnBounds.make q tangentSpace) applyLoss threads =
        p.jacobian schedule (ColumnBounds.make p tangentSpace) applyLoss threads) ∧
    ∀ (engine : Engine K) (c : Covariance K) (request : List Item),
      compute engine c q request = compute engine c p request ∧
      let after := (compute engine c q request).state
      (∀ coordinates a b, after.block q coordinates a b = after.block p coordinates a b) ∧
      (∀ (engine' : Engine K) coordinates handles,
        after.matrix engine' q coordinates handles = after.matrix engine' p coordinates handles) ∧
      ∀ a b i j, q.position a = .ok i → q.position b = .ok j →
        (q.blockAt i).Neutral → (q.blockAt j).Neutral →
        (after.block q .tangent a b).answer = (after.block q .ambient a b).answer := by
  refine ⟨h.alike.make_eq, h.jacobian_eq, fun engine c request => ?_⟩
  have hcompute := compute_eq_of_dressed h engine c request
  refine ⟨hcompute, fun coordinates a b => ?_, fun engine' coordinates handles => ?_,
    fun a b i j ha hb hi hj => block_of_neutral ha hb hi hj⟩
  · rw [hcompute]
    cases hready : (compute engine c p request).state.estimate with
    | absent => simp only [block, whenReady, hready]
    | failed plan => simp only [block, whenReady, hready]
    | ready plan values =>
      simp only [block, whenReady, hready, blockIn_eq_of_dressed h (planned_of_ready hready).1]
  · rw [hcompute]
    cases hready : (compute engine c p request).state.estimate with
    | absent => simp only [matrix, whenReady, hready]
    | failed plan => simp only [matrix, whenReady, hready]
    | ready plan values =>
      simp only [matrix, whenReady, hready, matrixIn_eq_of_dressed h (planned_of_ready hready).1]

end Coinciding

/-- With the Euclidean manifold on one block and a subset manifold on the other, the covariance of
the two blocks is still `-1`, in either coordinates. -/
theorem neutral_manifolds_sheared :
    ∃ q q', sheared.setManifold (.integer 0) (some (Manifold.euclidean 1)) = .ok q ∧
      q.setManifold (.integer 1) (some (.ofSubset (.full 1))) = .ok q' ∧
      compute Engine.exact (plain .sparseQr) q' shearedRequest =
        compute Engine.exact (plain .sparseQr) sheared shearedRequest ∧
      ∀ coordinates, ((compute Engine.exact (plain .sparseQr) q' shearedRequest).state.block q'
        coordinates (.integer 0) (.integer 1)).answer = .ok (some (Dense.ofRows 1 [[-1]])) := by
  obtain ⟨q, hq, dressed⟩ := (Problem.Dressed.refl sheared).setManifold
    (a := .integer 0) (i := 0) (by cbv) rfl (Or.inl rfl)
  obtain ⟨q', hq', dressed'⟩ := dressed.setManifold
    (a := .integer 1) (i := 1) (by cbv) rfl (Or.inr (Manifold.subset_nil 1))
  refine ⟨q, q', hq, hq', ?_⟩
  obtain ⟨-, -, hsame⟩ := neutral_manifolds dressed'
  obtain ⟨hcompute, hblock, -⟩ := hsame Engine.exact (plain .sparseQr) shearedRequest
  have hvalues : (estimateValues Engine.exact (plain .sparseQr).options shearedJacobian
      (Plan.ofPairs shearedBounds [(1, 0)]).pattern).answer = .ok (some #[-1, -1]) := by cbv
  have hstate : (compute Engine.exact (plain .sparseQr) sheared shearedRequest).state =
      (plain .sparseQr).holding (Plan.ofPairs shearedBounds [(1, 0)]) #[-1, -1] := by
    rw [prepared_sheared.compute_eq.2, hvalues]
    rfl
  refine ⟨hcompute, fun coordinates => ?_⟩
  rw [hblock, hcompute, hstate]
  cases coordinates with
  | tangent => cbv
  | ambient => cbv

end Covariance

end LeastSquares
