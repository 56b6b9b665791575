/-
LeastSquares.Proofs.Complaint — who says that nothing was computed.

A query says so where nothing was computed. Everything that a query of a result goes through has
faults of its own, and none of them is this one: handles, columns, offsets, shapes and the manifolds
of the library (`Manifold.Supplied.plusJacobian_ne`). Only a manifold that a caller made could say
it (`Problem.Complains`), and only where it is asked to lift a block. `everyQuery_of_computed` puts
this together for all four kinds of query.
-/
import LeastSquares.Covariance.Query
import LeastSquares.Group
import LeastSquares.Manifold.Euclidean
import LeastSquares.Manifold.Retraction
import LeastSquares.Manifold.Subset
import LeastSquares.Proofs.Collection

namespace LeastSquares

/-! ## Manifolds -/

theorem Extent.check_ne_notComputed (dims : List Int) :
    Extent.check dims ≠ .error .notComputed := by
  unfold Extent.check
  split
  · simp
  · split <;> simp

section Manifolds

variable {α : Type} [Zero α] [One α] [Add α] [Sub α] [Neg α] [Mul α] [Div α] [NatCast α]
  [Elementary α]

/-- The manifolds that the library makes. -/
inductive Manifold.Supplied : Manifold α → Prop
  | euclidean (size : Int) : Supplied (.euclidean size)
  | ofSubset (m : Subset) : Supplied (.ofSubset m)
  | retraction (ambientSize : Int) (tangentSize : Nat) (retract : Nested (Expr α))
      (inverse : Option (Nested (Expr α))) :
      Supplied (.retraction ambientSize tangentSize retract inverse)
  | ofGroup (g : Group (Flushed α)) : Supplied (.ofGroup g)

/-- No manifold of the library complains. -/
theorem Manifold.Supplied.plusJacobian_ne {m : Manifold α} (h : m.Supplied) (x : Array α) :
    m.plusJacobian x ≠ .error .notComputed := by
  cases h with
  | euclidean size =>
    simp only [Manifold.euclidean]
    split
    · simp
    · exact fun h => Extent.check_ne_notComputed _ (map_eq_error_iff.mp h)
  | ofSubset m =>
    simp only [Manifold.ofSubset]
    split
    · simp
    · exact fun h => Extent.check_ne_notComputed _ (map_eq_error_iff.mp h)
  | retraction ambientSize tangentSize retract inverse =>
    simp only [Manifold.retraction, Manifold.retractionJacobian]
    split
    · split
      · simp
      · exact fun h => Extent.check_ne_notComputed _ (map_eq_error_iff.mp h)
    · split
      · rename_i e hcheck
        rintro ⟨⟩
        exact Extent.check_ne_notComputed _ hcheck
      · split <;> simp
  | ofGroup g =>
    simp only [Manifold.ofGroup]
    split <;> simp

/-- Some block has a manifold that a caller made, and that itself answers that nothing was
computed. -/
def Problem.Complains (problem : Problem α) : Prop :=
  ∃ i m, (problem.blockAt i).manifold = some m ∧ ¬ m.Supplied ∧
    m.plusJacobian (problem.blockAt i).values = .error .notComputed

theorem Problem.complains_of_plusJacobian {problem : Problem α} {i : Nat}
    (h : (problem.blockAt i).plusJacobian = .error .notComputed) : problem.Complains := by
  unfold ParameterBlock.plusJacobian at h
  cases hmanifold : (problem.blockAt i).manifold with
  | none => simp [hmanifold] at h
  | some m =>
    simp only [hmanifold] at h
    exact ⟨i, m, hmanifold, fun supplied => supplied.plusJacobian_ne _ h, h⟩

end Manifolds

namespace Covariance

/-! ## Queries -/

section Queries

variable {α : Type}

theorem position_ne_notComputed (p : Problem α) (a : Atom) :
    p.position a ≠ .error .notComputed := by
  unfold Problem.position
  cases p.position? a <;> simp

theorem range_ne_notComputed (b : ColumnBounds) (a : Atom) :
    b.range a ≠ .error .notComputed := by
  unfold ColumnBounds.range
  split
  · split <;> simp
  · split
    · simp
    · split <;> simp

theorem isZero_ne_notComputed (b : ColumnBounds) (a a' : Atom) :
    isZero b a a' ≠ .error .notComputed := by
  have hempty : ∀ c, b.isEmpty c ≠ .error .notComputed := by
    intro c h
    exact range_ne_notComputed b c (map_eq_error_iff.mp h)
  intro h
  rcases bind_eq_error_iff.mp h with h | ⟨empty, -, h⟩
  · exact hempty a h
  · cases empty with
    | true => cases h
    | false => exact hempty a' h

theorem offsets_ne_notComputed (plan : Plan) (a b : Atom) :
    plan.offsets a b ≠ .error .notComputed := by
  intro h
  rcases bind_eq_error_iff.mp h with h | ⟨rows, -, h⟩
  · exact range_ne_notComputed _ _ h
  · rcases bind_eq_error_iff.mp h with h | ⟨cols, -, h⟩
    · exact range_ne_notComputed _ _ h
    · cases h

theorem mul?_ne_notComputed [Zero α] [Add α] [Mul α] (A B : Dense α) :
    A.mul? B ≠ .error .notComputed := by
  unfold Dense.mul?
  split <;> simp

variable [Zero α] [One α] [Add α] [Mul α]

/-- The rows of a block, moved to the parameters. -/
def liftRows (a : ParameterBlock α) (B : Dense α) : Except Fault (Dense α) :=
  match a.manifold with
  | none => .ok B
  | some _ => do (← a.plusJacobian).mul? B

/-- The columns of a block, moved to the parameters. -/
def liftCols (b : ParameterBlock α) (B : Dense α) : Except Fault (Dense α) :=
  match b.manifold with
  | none => .ok B
  | some _ => do B.mul? (← b.plusJacobian).transpose

variable [Div α] [NatCast α]

/-- Lifting a block moves its rows and then its columns. -/
theorem lift_eq (a b : ParameterBlock α) (same : Bool) (B : Dense α) :
    lift a b same B = (liftRows a B >>= liftCols b).map fun both =>
      if same then both.symmetrized else both := by
  have hcols : ∀ left : Dense α, (liftCols b left >>= fun both =>
      pure (if same then both.symmetrized else both)) =
        (liftCols b left).map fun both => if same then both.symmetrized else both := by
    intro left
    cases liftCols b left <;> rfl
  have hsteps : lift a b same B = liftRows a B >>= fun left =>
      liftCols b left >>= fun both => pure (if same then both.symmetrized else both) := by
    unfold lift liftRows liftCols
    cases a.manifold with
    | none => cases b.manifold <;> simp
    | some m => cases b.manifold <;> simp
  rw [hsteps]
  simp only [hcols]
  cases liftRows a B <;> rfl

/-- Lifting complains only where a manifold does. -/
theorem lift_eq_notComputed {a b : ParameterBlock α} {same : Bool} {B : Dense α}
    (h : lift a b same B = .error .notComputed) :
    a.plusJacobian = .error .notComputed ∨ b.plusJacobian = .error .notComputed := by
  rw [lift_eq, map_eq_error_iff, bind_eq_error_iff] at h
  rcases h with h | ⟨left, -, h⟩
  · left
    unfold liftRows at h
    split at h
    · cases h
    · rcases bind_eq_error_iff.mp h with h | ⟨P, -, h⟩
      · exact h
      · exact absurd h (mul?_ne_notComputed _ _)
  · right
    unfold liftCols at h
    split at h
    · cases h
    · rcases bind_eq_error_iff.mp h with h | ⟨P, -, h⟩
      · exact h
      · exact absurd h (mul?_ne_notComputed _ _)

variable [Sub α] [Neg α] [Elementary α]

/-- A block of a result does not complain, unless it is lifted by a manifold that does. -/
theorem blockIn_eq_notComputed {plan : Plan} {values : Array α} {problem : Problem α}
    {coordinates : Coordinates} {a b : Atom}
    (h : (blockIn plan values problem coordinates a b).answer = .error .notComputed) :
    coordinates = .ambient ∧ problem.Complains := by
  unfold blockIn at h
  cases ha : problem.position a with
  | error e =>
    simp only [ha, reply] at h
    cases h
    exact absurd ha (position_ne_notComputed _ _)
  | ok i =>
    cases hb : problem.position b with
    | error e =>
      simp only [ha, hb, reply] at h
      cases h
      exact absurd hb (position_ne_notComputed _ _)
    | ok j =>
      cases hzero : isZero plan.bounds a b with
      | error e =>
        simp only [ha, hb, hzero, reply] at h
        cases h
        exact absurd hzero (isZero_ne_notComputed _ _ _)
      | ok zero =>
        cases zero with
        | true =>
          simp only [ha, hb, hzero, reply] at h
          cases h
        | false =>
          cases hoffsets : plan.offsets a b with
          | error e =>
            simp only [ha, hb, hzero, hoffsets, reply] at h
            cases h
            exact absurd hoffsets (offsets_ne_notComputed _ _ _)
          | ok offsets =>
            cases offsets with
            | none =>
              simp only [ha, hb, hzero, hoffsets, reply] at h
              cases h
            | some offsets =>
              simp only [ha, hb, hzero, hoffsets] at h
              cases coordinates with
              | tangent => cases h
              | ambient =>
                refine ⟨rfl, ?_⟩
                rcases lift_eq_notComputed (map_eq_error_iff.mp h) with h | h
                · exact Problem.complains_of_plusJacobian h
                · exact Problem.complains_of_plusJacobian h

theorem blockOfPair_eq_notComputed {plan : Plan} {values : Array α} {problem : Problem α}
    {coordinates : Coordinates} {handles : Array Atom} {sizes : Array Int} {k : Nat}
    (h : (blockOfPair plan values problem coordinates handles sizes k).2 = .error .notComputed) :
    coordinates = .ambient ∧ problem.Complains := by
  unfold blockOfPair at h
  generalize Triangle.pair handles.size k = pair at h
  obtain ⟨i, j⟩ := pair
  dsimp only at h
  split at h
  · split at h <;> cases h
  · exact blockIn_eq_notComputed h

/-- A joint matrix of a result complains only where one of its blocks does. -/
theorem matrixIn_eq_notComputed {schedule : Schedule} {threads : Int} {plan : Plan}
    {values : Array α} {problem : Problem α} {coordinates : Coordinates} {handles : List Atom}
    (h : (matrixIn schedule threads plan values problem coordinates handles).answer =
      .error .notComputed) : coordinates = .ambient ∧ problem.Complains := by
  unfold matrixIn at h
  cases hblocks : handles.mapM problem.block with
  | error e =>
    simp only [hblocks, reply] at h
    cases h
    obtain ⟨a, -, ha⟩ := List.exists_of_findSome?_eq_some (mapM_eq_error_iff.mp hblocks)
    exact absurd (map_eq_error_iff.mp (failure?_eq_some_iff.mp ha)) (position_ne_notComputed _ _)
  | ok blocks =>
    simp only [hblocks] at h
    split at h
    · rename_i shared e hcollect
      simp only [reply] at h
      cases h
      have hfailure := congrArg Prod.snd hcollect
      rw [Parallel.snd_collect] at hfailure
      obtain ⟨k, -, hk⟩ := List.exists_of_findSome?_eq_some hfailure
      exact blockOfPair_eq_notComputed (failure?_eq_some_iff.mp hk)
    · cases h

end Queries

section Asking

variable {α : Type}

variable {c : Covariance α}

theorem whenReady_of_not_computed {β : Type} (h : c.computed = false)
    (f : Plan → Array α → Reply (Option β)) : c.whenReady f = reply (.error .notComputed) := by
  simp [whenReady, h]

theorem whenReady_of_matrix_eq_none {β : Type} (hcomputed : c.computed = true)
    (h : c.estimate.matrix? = none) (f : Plan → Array α → Reply (Option β)) :
    c.whenReady f = reply (.ok none) [.unavailable] := by
  unfold whenReady
  rw [if_pos hcomputed]
  cases hestimate : c.estimate with
  | absent => rfl
  | failed plan => rfl
  | ready plan values => simp [hestimate, Estimate.matrix?] at h

/-- A covariance that was computed complains only where what it reads does. -/
theorem whenReady_eq_notComputed {β : Type} (hcomputed : c.computed = true)
    {f : Plan → Array α → Reply (Option β)} (h : (c.whenReady f).answer = .error .notComputed) :
    ∃ plan values, (f plan values).answer = .error .notComputed := by
  unfold whenReady at h
  rw [if_pos hcomputed] at h
  cases hestimate : c.estimate with
  | absent => simp [hestimate, reply] at h
  | failed plan => simp [hestimate, reply] at h
  | ready plan values => exact ⟨plan, values, by simpa [hestimate] using h⟩

variable [Zero α] [One α] [Add α] [Mul α] [Div α] [NatCast α]

/-- What all queries of a covariance about a problem give, those for blocks and those for joint
matrices, in either coordinates. -/
def EveryQuery (c : Covariance α) (engine : Engine α) (problem : Problem α)
    (P : Coordinates → Reply (Option (Dense α)) → Prop) : Prop :=
  ∀ coordinates, (∀ a b, P coordinates (c.block problem coordinates a b)) ∧
    ∀ handles, P coordinates (c.matrix engine problem coordinates handles)

variable {engine : Engine α}

theorem everyQuery_of_not_computed (h : c.computed = false) (problem : Problem α) :
    c.EveryQuery engine problem fun _ answered => answered = reply (.error .notComputed) :=
  fun _ => ⟨fun _ _ => whenReady_of_not_computed h _, fun _ => whenReady_of_not_computed h _⟩

theorem everyQuery_of_matrix_eq_none (hcomputed : c.computed = true)
    (h : c.estimate.matrix? = none) (problem : Problem α) :
    c.EveryQuery engine problem fun _ answered => answered = reply (.ok none) [.unavailable] :=
  fun _ => ⟨fun _ _ => whenReady_of_matrix_eq_none hcomputed h _,
    fun _ => whenReady_of_matrix_eq_none hcomputed h _⟩

theorem everyQuery_of_computed [Sub α] [Neg α] [Elementary α] (h : c.computed = true) (problem : Problem α) :
    c.EveryQuery engine problem fun coordinates answered =>
      answered.answer = .error .notComputed → coordinates = .ambient ∧ problem.Complains := by
  intro coordinates
  refine ⟨fun a b hanswer => ?_, fun handles hanswer => ?_⟩
  · obtain ⟨plan, values, hblock⟩ := whenReady_eq_notComputed h hanswer
    exact blockIn_eq_notComputed hblock
  · obtain ⟨plan, values, hmatrix⟩ := whenReady_eq_notComputed h hanswer
    exact matrixIn_eq_notComputed hmatrix

end Asking

end Covariance

end LeastSquares
