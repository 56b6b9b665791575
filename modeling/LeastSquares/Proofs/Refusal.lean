/-
LeastSquares.Proofs.Refusal — what a refused call leaves behind.

A call that is refused leaves the problem as it was, with one exception: a block that comes with a
manifold is there before its manifold is looked at, and stays there when the manifold is refused
(`Edit.state_of_error`). Nobody uses such a leftover block. It takes a handle, so every block that
is added later has a handle one higher, but it has no columns (`ColumnBounds.make_pushBlock`) and
the Jacobian does not see it (`Problem.jacobian_pushBlock`).
-/
import LeastSquares.Manifold.Euclidean
import LeastSquares.Proofs.Editing
import LeastSquares.Proofs.Evaluation
import LeastSquares.Proofs.Rational

namespace LeastSquares

variable {α : Type}

/-! ## Columns of a block that nobody uses -/

namespace ColumnBounds

theorem rangesFrom_append (start : Int) (sizes : List Int) (size : Int) :
    rangesFrom start (sizes ++ [size]) =
      rangesFrom start sizes ++ [⟨start + totalExtent sizes, size⟩] := by
  induction sizes generalizing start with
  | nil => simp [rangesFrom]
  | cons first rest ih => simp [rangesFrom, ih, Int.add_assoc]

theorem totalExtent_append (sizes : List Int) (size : Int) :
    totalExtent (sizes ++ [size]) = totalExtent sizes + size := by
  induction sizes with
  | nil => simp
  | cons first rest ih => simp [ih, Int.add_assoc]

/-- The blocks that are there keep their widths when another one is added. -/
theorem width_pushBlock (p : Problem α) (values : Array α) (tangentSpace : Bool) {i : Nat}
    (h : i < p.blocks.size) :
    width (p.pushBlock values) tangentSpace i = width p tangentSpace i := by
  have hblock : (p.pushBlock values).blockAt i = p.blockAt i := by
    rw [Problem.blockAt_pushBlock, if_neg (Nat.ne_of_lt h)]
  unfold width
  rw [hblock]
  rfl

/-- The blocks that are there keep their columns when another one is added. -/
theorem rangeAt_pushBlock (p : Problem α) (values : Array α) (tangentSpace : Bool) {i : Nat}
    (h : i < p.blocks.size) :
    (make (p.pushBlock values) tangentSpace).rangeAt i = (make p tangentSpace).rangeAt i := by
  have hlt : i < (p.pushBlock values).blocks.size := by
    rw [Problem.size_pushBlock]
    omega
  rw [rangeAt_make _ _ h, rangeAt_make _ _ hlt, width_pushBlock p values tangentSpace h]
  have hbefore : (List.range i).map (width (p.pushBlock values) tangentSpace) =
      (List.range i).map (width p tangentSpace) := by
    refine List.map_congr_left fun j hj => ?_
    exact width_pushBlock p values tangentSpace (Nat.lt_trans (List.mem_range.mp hj) h)
  rw [hbefore]

/-- A new block is used by no residual block, so it gets no columns. -/
theorem width_last_pushBlock {p : Problem α} (s : p.Sound) (values : Array α)
    (tangentSpace : Bool) : width (p.pushBlock values) tangentSpace p.blocks.size = 0 := by
  have huses : (p.pushBlock values).uses p.blocks.size = false := by
    rw [Problem.uses, Problem.residuals_pushBlock, Array.any_eq_false]
    intro k hk
    simp only [List.contains_eq_mem, decide_eq_true_eq]
    exact fun hmem => Nat.lt_irrefl _ (s.lt_size (Array.getElem_mem hk) hmem)
  unfold width
  simp [huses]

/-- A new block has an empty range behind all columns, and moves nothing. -/
theorem make_pushBlock {p : Problem α} (s : p.Sound) (values : Array α) (tangentSpace : Bool) :
    make (p.pushBlock values) tangentSpace =
      { make p tangentSpace with
        ranges := (make p tangentSpace).ranges.push ⟨(make p tangentSpace).numCols, 0⟩ } := by
  have hwidths : (List.range (p.pushBlock values).blocks.size).map
      (width (p.pushBlock values) tangentSpace) =
        (List.range p.blocks.size).map (width p tangentSpace) ++ [0] := by
    rw [Problem.size_pushBlock, List.range_succ, List.map_append, List.map_singleton,
      width_last_pushBlock s]
    refine congrArg (· ++ [0]) (List.map_congr_left fun i hi => ?_)
    exact width_pushBlock p values tangentSpace (List.mem_range.mp hi)
  simp only [make, hwidths, rangesFrom_append, totalExtent_append]
  simp

end ColumnBounds

/-! ## The Jacobian of what is used -/

namespace Problem

theorem piecesOf_congr {b b' : ColumnBounds} (row residuals : Nat) {blocks : List Nat}
    (h : ∀ i ∈ blocks, b'.range (.integer i) = b.range (.integer i)) (Js : List (Dense α)) :
    piecesOf b' row residuals blocks Js = piecesOf b row residuals blocks Js := by
  induction blocks generalizing Js with
  | nil => rfl
  | cons i blocks ih =>
    cases Js with
    | nil => rfl
    | cons J Js =>
      rw [piecesOf, piecesOf, h i List.mem_cons_self,
        ih fun j hj => h j (List.mem_cons_of_mem _ hj)]

/-- Pieces are put together by the columns of the blocks that residual blocks use. -/
theorem stack_congr {b b' : ColumnBounds} (row : Nat)
    {found : List (ResidualBlock α × Evaluated α)}
    (h : ∀ re ∈ found, ∀ i ∈ re.1.blocks, b'.range (.integer i) = b.range (.integer i)) :
    stack b' row found = stack b row found := by
  induction found generalizing row with
  | nil => rfl
  | cons re found ih =>
    rw [stack, stack, piecesOf_congr row _ (h re List.mem_cons_self),
      ih _ fun q hq => h q (List.mem_cons_of_mem _ hq)]

/-- The projection of a new block is none; the others stay. -/
theorem projections_pushBlock (p : Problem α) (values : Array α) (tangentSpace : Bool) :
    (p.pushBlock values).projections (ColumnBounds.make (p.pushBlock values) tangentSpace) =
      (p.projections (ColumnBounds.make p tangentSpace)).map fun Ps => Ps.push none := by
  rw [projections_eq (ColumnBounds.size_ranges_make _ _),
    projections_eq (ColumnBounds.size_ranges_make _ _), size_pushBlock, List.range_succ,
    List.mapM_append]
  have hold : ∀ i ∈ List.range p.blocks.size,
      (p.pushBlock values).projectionAt (ColumnBounds.make (p.pushBlock values) tangentSpace) i =
        p.projectionAt (ColumnBounds.make p tangentSpace) i := by
    intro i hi
    have hi := List.mem_range.mp hi
    simp only [projectionAt, blockAt_pushBlock, if_neg (Nat.ne_of_lt hi),
      ColumnBounds.rangeAt_pushBlock p values tangentSpace hi]
  have hnew : (p.pushBlock values).projectionAt
      (ColumnBounds.make (p.pushBlock values) tangentSpace) p.blocks.size = .ok none := by
    simp only [projectionAt, blockAt_pushBlock, if_true]
  rw [mapM_congr hold]
  simp only [List.mapM_cons, List.mapM_nil, hnew]
  cases (List.range p.blocks.size).mapM
      (p.projectionAt (ColumnBounds.make p tangentSpace)) with
  | error e => rfl
  | ok Ps => simp [bind, Except.bind, pure, Except.pure, Except.map]

variable [Zero α] [One α] [Add α] [Sub α] [Mul α] [Div α] [NatCast α] [BEq α] [LE α]
  [DecidableLE α] [Elementary α]

/-- A residual block is evaluated with the values and the projections of its own blocks. -/
theorem evaluate_congr {p q : Problem α} {Ps Qs : Array (Option (Dense α))} (applyLoss : Bool)
    {r : ResidualBlock α} (hvalues : q.valuesOf r = p.valuesOf r)
    (h : ∀ i ∈ r.blocks, Qs.getD i none = Ps.getD i none) :
    q.evaluate Qs applyLoss r = p.evaluate Ps applyLoss r := by
  have hproject : ∀ Js, project Qs r.blocks Js = project Ps r.blocks Js := by
    intro Js
    rw [project_eq, project_eq]
    refine mapM_congr fun iJ hiJ => ?_
    simp only [projectOne, h iJ.1 (List.of_mem_zip hiJ).1]
  simp only [evaluate, hvalues, hproject]

/-- **A block that nobody uses leaves the Jacobian alone**, its log line included. -/
theorem jacobian_pushBlock {p : Problem α} (s : p.Sound) (values : Array α)
    (tangentSpace : Bool) (schedule : Schedule) (applyLoss : Bool) (threads : Int) :
    (p.pushBlock values).jacobian schedule
        (ColumnBounds.make (p.pushBlock values) tangentSpace) applyLoss threads =
      p.jacobian schedule (ColumnBounds.make p tangentSpace) applyLoss threads := by
  have hevaluate : (p.pushBlock values).evaluateAll schedule
      (ColumnBounds.make (p.pushBlock values) tangentSpace) applyLoss threads =
        p.evaluateAll schedule (ColumnBounds.make p tangentSpace) applyLoss threads := by
    rw [evaluateAll_eq, evaluateAll_eq, projections_pushBlock]
    cases hprojections : p.projections (ColumnBounds.make p tangentSpace) with
    | error e => rfl
    | ok Ps =>
      refine mapM_congr fun r hr => ?_
      have hr := Array.mem_toList_iff.mp hr
      refine evaluate_congr applyLoss ?_ ?_
      · refine List.map_congr_left fun i hi => ?_
        rw [blockAt_pushBlock, if_neg (Nat.ne_of_lt (s.lt_size hr hi))]
      · intro i _
        rw [Array.getD_eq_getD_getElem?, Array.getD_eq_getD_getElem?, Array.getElem?_push]
        split
        · rename_i hi
          simp [hi]
        · rfl
  have hstack : ∀ found, stack (ColumnBounds.make (p.pushBlock values) tangentSpace) 0
      (p.residuals.toList.zip found) =
        stack (ColumnBounds.make p tangentSpace) 0 (p.residuals.toList.zip found) := by
    intro found
    refine stack_congr 0 ?_
    intro re hre i hi
    have hlt := s.lt_size (Array.mem_toList_iff.mp (List.of_mem_zip hre).1) hi
    have hsize : i < (ColumnBounds.make p tangentSpace).ranges.size := by
      rw [ColumnBounds.size_ranges_make]
      exact hlt
    have hsize' : i < (ColumnBounds.make (p.pushBlock values) tangentSpace).ranges.size := by
      rw [ColumnBounds.size_ranges_make, size_pushBlock]
      omega
    rw [ColumnBounds.range_natCast _ hsize, ColumnBounds.range_natCast _ hsize',
      ColumnBounds.rangeAt_pushBlock p values tangentSpace hlt]
  have hcolumns : (ColumnBounds.make (p.pushBlock values) tangentSpace).numCols =
      (ColumnBounds.make p tangentSpace).numCols := by
    rw [ColumnBounds.make_pushBlock s]
  unfold jacobian
  simp only [hevaluate, residuals_pushBlock, hstack, hcolumns]

end Problem

/-! ## Refused calls -/

namespace Edit

/-- The values of the block that a call leaves behind when it is refused. -/
def leftover? : Edit α → Option (Array α)
  | .addBlock values (some _) => some values
  | _ => none

/-- A refused call leaves the problem, and behind it the leftover block if there is one. -/
theorem state_of_error {p : Problem α} {edit : Edit α} {e : Fault}
    (h : (edit.run p).answer = .error e) :
    (edit.run p).state = edit.leftover?.elim p p.pushBlock := by
  cases edit with
  | addBlock values manifold =>
    cases manifold with
    | none => cases h
    | some m =>
      simp only [run, Problem.addBlock_some, Outcome.mapAnswer] at h ⊢
      split at h
      · cases h
      · rename_i hsize
        rw [if_neg hsize]
        rfl
  | addResidual handles cost =>
    refine Problem.state_addResidual_of_error (e := e) ?_
    cases hanswer : (p.addResidual handles cost).answer with
    | error e' => simpa [run, Outcome.mapAnswer, hanswer, Except.map] using h
    | ok n => simp [run, Outcome.mapAnswer, hanswer, Except.map] at h
  | setManifold handle manifold =>
    simp only [run] at h ⊢
    cases hset : p.setManifold handle manifold with
    | error e' => rfl
    | ok q => simp [hset, orKeep] at h
  | setHeld handle held =>
    simp only [run] at h ⊢
    cases hset : p.setHeld handle held with
    | error e' => rfl
    | ok q => simp [hset, orKeep] at h

/-- Only a manifold of another ambient size refuses a call that leaves something behind. -/
theorem refused_manifold {p : Problem α} {edit : Edit α} {e : Fault} {values : Array α}
    (h : (edit.run p).answer = .error e) (hleft : edit.leftover? = some values) :
    ∃ m, edit = .addBlock values (some m) ∧ m.ambientSize ≠ (values.size : Int) ∧
      e = .manifoldSize m.ambientSize (.integer p.blocks.size) values.size := by
  cases edit with
  | addBlock values' manifold =>
    cases manifold with
    | none => cases hleft
    | some m =>
      cases hleft
      simp only [run, Problem.addBlock_some, Outcome.mapAnswer] at h
      split at h
      · cases h
      · rename_i hsize
        cases h
        exact ⟨m, rfl, hsize, rfl⟩
  | addResidual handles cost => cases hleft
  | setManifold handle manifold => cases hleft
  | setHeld handle held => cases hleft

variable [Zero α] [One α] [Add α] [Sub α] [Mul α] [Div α] [NatCast α] [BEq α] [LE α]
  [DecidableLE α] [Elementary α]

/-- **Refused calls.** A refused call of a problem that calls have made leaves the problem as it
was, unless it adds a block with a manifold. Such a call is refused for the ambient size of the
manifold alone, and leaves the block without its manifold: a new handle, an empty range behind the
same columns, and the same Jacobian. -/
theorem run_of_error {p : Problem α} (reachable : p.Reachable) {edit : Edit α} {e : Fault}
    (h : (edit.run p).answer = .error e) :
    (edit.leftover? = none → (edit.run p).state = p) ∧
      ∀ values, edit.leftover? = some values →
        (∃ m, edit = .addBlock values (some m) ∧ m.ambientSize ≠ (values.size : Int) ∧
          e = .manifoldSize m.ambientSize (.integer p.blocks.size) values.size) ∧
        (edit.run p).state = p.pushBlock values ∧ (edit.run p).state ≠ p ∧
        ∀ tangentSpace,
          ColumnBounds.make (edit.run p).state tangentSpace =
            { ColumnBounds.make p tangentSpace with
              ranges := (ColumnBounds.make p tangentSpace).ranges.push
                ⟨(ColumnBounds.make p tangentSpace).numCols, 0⟩ } ∧
          ∀ schedule applyLoss threads,
            (edit.run p).state.jacobian schedule
                (ColumnBounds.make (edit.run p).state tangentSpace) applyLoss threads =
              p.jacobian schedule (ColumnBounds.make p tangentSpace) applyLoss threads := by
  have hstate := state_of_error h
  refine ⟨fun hnone => by rw [hstate, hnone]; rfl, ?_⟩
  intro values hleft
  have hpush : (edit.run p).state = p.pushBlock values := by
    rw [hstate, hleft]
    rfl
  refine ⟨refused_manifold h hleft, hpush, ?_, ?_⟩
  · intro hsame
    have hsize := congrArg (fun q => q.blocks.size) (hpush.symm.trans hsame)
    simp at hsize
  · intro tangentSpace
    rw [hpush]
    exact ⟨ColumnBounds.make_pushBlock reachable.sound values tangentSpace,
      fun schedule applyLoss threads =>
        Problem.jacobian_pushBlock reachable.sound values tangentSpace schedule applyLoss threads⟩

/-! ## A manifold that does not fit -/

/-- Add a block of two parameters with a manifold of three. -/
def overstretched : Edit ℚ := .addBlock #[1, 2] (some (Manifold.euclidean 3))

/-- The problem of one block of one parameter, which is its own residual. -/
def single : Problem ℚ :=
  let block := (Edit.addBlock #[5] none).run .empty
  let cost : Cost ℚ := ⟨fun _ => .ok #[5], fun _ => .ok [⟨[1, 1], #[1]⟩], none⟩
  ((Edit.addResidual [.integer 0] cost).run block.state).state

theorem reachable_single : single.Reachable :=
  .run _ (.run _ .empty)

/-- The block without its manifold is left behind the used one, and the Jacobian stays. -/
theorem run_overstretched :
    (overstretched.run single).answer = .error (.manifoldSize 3 (.integer 1) 2) ∧
      (overstretched.run single).state = single.pushBlock #[1, 2] ∧
      (overstretched.run single).state.jacobian .inOrder
          (ColumnBounds.make (overstretched.run single).state true) true 1 =
        single.jacobian .inOrder (ColumnBounds.make single true) true 1 := by
  have h : (overstretched.run single).answer = .error (.manifoldSize 3 (.integer 1) 2) := by cbv
  obtain ⟨-, hstate, -, hunseen⟩ := (run_of_error reachable_single h).2 #[1, 2] rfl
  exact ⟨h, hstate, (hunseen true).2 .inOrder true 1⟩

/-- A call on the empty problem is refused and leaves a block there, so that the next block gets
handle one, where it would have got handle zero. -/
theorem leftover_of_overstretched :
    (Problem.empty : Problem ℚ).Reachable ∧
      (overstretched.run .empty).answer = .error (.manifoldSize 3 (.integer 0) 2) ∧
      (overstretched.run .empty).state.blocks.size = 1 ∧
      (overstretched.run .empty).state ≠ .empty ∧
      ((Edit.addBlock #[5] none).run (overstretched.run .empty).state).answer = .ok (some 1) ∧
      ((Edit.addBlock #[5] none).run (.empty : Problem ℚ)).answer = .ok (some 0) := by
  have hsize : (overstretched.run .empty).state.blocks.size = 1 := by cbv
  refine ⟨.empty, by cbv, hsize, ?_, by cbv, by cbv⟩
  intro hsame
  rw [hsame] at hsize
  exact absurd hsize (by decide)

end Edit

end LeastSquares
