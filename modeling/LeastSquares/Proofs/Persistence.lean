/-
LeastSquares.Proofs.Persistence — the last successful update decides.

A preconditioner of diagonal blocks is updated again and again. An update may be refused for the
width of its matrix or for its damping, it may stop at a singular block after others were inverted,
or it succeeds. `update_cases` says all that an update can do to the preconditioner: it succeeds and
keeps the inverses of its own blocks, or it leaves everything as it was. By induction over the
updates, what counts afterwards is the last one that succeeded (`run_of_success`), and as long as
none has, there is nothing to apply (`run_of_no_success`).

What is kept can be applied: a block picks as many numbers from every column of numbers as it picked
columns from the matrix (`Inverted.shape`), whatever the signs of the sizes. So after a success
applying never fails (`exists_applyBlocks_of_fits`).
-/
import LeastSquares.Proofs.Diagonal

namespace LeastSquares

namespace Span

theorem place_le (n : Nat) (i : Int) : place n i ≤ n := by
  unfold place
  split <;> omega

/-- What a span picks lies among the positions. -/
theorem pick_add_le (s : Span) (n : Nat) : (s.pick n).1 + (s.pick n).2 ≤ n := by
  have hstart := place_le n s.start
  have hstop := place_le n s.stop
  simp only [pick]
  omega

end Span

/-- An inverse is as large as its matrix. -/
theorem Elimination.shape_of_inverse? {α : Type} [Zero α] [One α] [Add α] [Sub α] [Neg α] [Mul α]
    [Div α] [BEq α] [LT α] [DecidableLT α] {B I : Dense α} (h : inverse? B = some I) :
    I.rows = B.rows ∧ I.cols = B.rows := by
  unfold inverse? at h
  split at h
  · cases h
  · cases h
    exact ⟨rfl, by simp [Dense.ofRows]⟩

namespace BlockJacobi

section Slices

variable {α : Type}

/-- A preconditioner is made without inverses. -/
theorem inverses_of_make {sizes : List Atom} {b : BlockJacobi α} (made : make sizes = .ok b) :
    b.inverses = none := by
  unfold make at made
  cases hsizes : sizes.mapM Atom.whole with
  | error e =>
    rw [hsizes] at made
    cases made
  | ok found =>
    rw [hsizes] at made
    dsimp only [bind, Except.bind] at made
    split at made
    · cases made
    · cases made
      rfl

/-- A slice has as many entries as its span picks. -/
theorem size_slice_eq (x : Array α) (s : Span) : (slice x s).size = (s.pick x.size).2 := by
  have := s.pick_add_le x.size
  simp only [slice, Array.size_extract]
  omega

variable [Zero α] [Add α] [Mul α]

/-- Blocks that are as large as what their spans pick can be applied. -/
theorem exists_applyBlocks_of_fits {n : Nat} {x : Array α} (hx : x.size = n)
    {blocks : List (Span × Dense α)}
    (hfits : ∀ e ∈ blocks, e.2.rows = (e.1.pick n).2 ∧ e.2.cols = (e.1.pick n).2) {y : Array α}
    (hy : y.size = n) : ∃ z, applyBlocks x blocks y = .ok z ∧ z.size = n := by
  induction blocks generalizing y with
  | nil => exact ⟨y, rfl, hy⟩
  | cons first rest ih =>
    obtain ⟨s, B⟩ := first
    have hrows : B.rows = (s.pick n).2 := (hfits (s, B) List.mem_cons_self).1
    have hcols : B.cols = (s.pick n).2 := (hfits (s, B) List.mem_cons_self).2
    have hslice : (slice x s).size = B.cols := by rw [size_slice_eq, hx, hcols]
    have hroom : Stretch.fits (s.pick n).2 B.rows = true := by simp [Stretch.fits, hrows]
    obtain ⟨z, hz, hsize⟩ := ih (fun e he => hfits e (List.mem_cons_of_mem _ he))
      (y := addSlice y (s.pick n).1 (B.mulVec (slice x s)) (s.pick n).2)
      (by rw [size_addSlice, hy])
    refine ⟨z, ?_, hsize⟩
    rw [applyBlocks, hy]
    exact (if_pos ⟨hslice, hroom⟩).trans hz

/-- Damping keeps the shape of a block. -/
theorem shape_of_damp {damping : Option (Array α)} {s : Span} {B B' : Dense α}
    (h : damp damping s B = .ok B') : B'.rows = B.rows ∧ B'.cols = B.cols := by
  unfold damp at h
  split at h
  · cases h
    exact ⟨rfl, rfl⟩
  · dsimp only at h
    split at h
    · cases h
      exact ⟨rfl, rfl⟩
    · cases h

end Slices

section Updates

variable {α : Type} [Zero α] [One α] [Add α] [Sub α] [Neg α] [Mul α] [Div α] [BEq α] [LT α]
  [DecidableLT α]

/-- An inverted block has a row and a column for every column that its span picks. -/
theorem Inverted.shape {A : Compressed α} {damping : Option (Array α)} {s : Span} {I : Dense α}
    (h : Inverted A damping s I) :
    I.rows = (s.pick A.pattern.numCols).2 ∧ I.cols = (s.pick A.pattern.numCols).2 := by
  obtain ⟨B, hB, hI⟩ := h
  obtain ⟨hrows, hcols⟩ := Elimination.shape_of_inverse? (inverse?_of_finiteInverse? hI)
  have hrows' : B.rows = (s.pick A.pattern.numCols).2 := (shape_of_damp hB).1
  exact ⟨hrows.trans hrows', hcols.trans hrows'⟩

/-! ## One update -/

/-- A matrix and a damping that a preconditioner is updated with. -/
structure Update (α : Type) where
  matrix : Compressed α
  damping : Option (Array α) := none

/-- Inverses of all blocks of one and the same matrix and damping. -/
def Update.Gives (u : Update α) (b : BlockJacobi α) (inverses : List (Dense α)) : Prop :=
  (u.matrix.pattern.numCols : Int) = b.numRows ∧
    List.Forall₂ (Inverted u.matrix u.damping) b.spans inverses

/-- **One update.** It succeeds and keeps the inverses of its own blocks, or it leaves the
preconditioner as it was. -/
theorem update_cases (b : BlockJacobi α) (u : Update α) :
    ((b.update u.matrix u.damping).answer = .ok true ∧ ∃ inverses, u.Gives b inverses ∧
        (b.update u.matrix u.damping).state = { b with inverses := some inverses }) ∨
      ((b.update u.matrix u.damping).answer ≠ .ok true ∧
        (b.update u.matrix u.damping).state = b) := by
  unfold update
  cases u.matrix.check with
  | error e => exact .inr ⟨by simp, rfl⟩
  | ok checked =>
    by_cases hwidth : (u.matrix.pattern.numCols : Int) = b.numRows
    · simp only [if_pos hwidth]
      cases hinverses : invertFrom u.matrix u.damping 0 b.spans with
      | error e => exact .inr ⟨by simp, rfl⟩
      | ok found =>
        cases found with
        | error index => exact .inr ⟨by simp, rfl⟩
        | ok inverses =>
          exact .inl ⟨rfl, inverses, ⟨hwidth, (invertFrom_eq_ok_iff 0).mp hinverses⟩, rfl⟩
    · dsimp only
      rw [if_neg hwidth]
      exact .inr ⟨by simp, rfl⟩

/-- What an update answers depends on the block sizes, and not on what was kept before. -/
theorem answer_update_congr {b b' : BlockJacobi α} (h : b.blockSizes = b'.blockSizes)
    (u : Update α) :
    (b.update u.matrix u.damping).answer = (b'.update u.matrix u.damping).answer := by
  have hrows : b.numRows = b'.numRows := congrArg totalExtent h
  have hspans : b.spans = b'.spans := congrArg (Span.adjacent 0) h
  unfold update
  rw [hrows, hspans]
  cases u.matrix.check with
  | error e => rfl
  | ok checked =>
    dsimp only
    split
    · cases invertFrom u.matrix u.damping 0 b'.spans with
      | error e => rfl
      | ok found => cases found <;> rfl
    · rfl

/-- The inverses of an update are all that it gives. -/
theorem Update.Gives.unique {u : Update α} {b b' : BlockJacobi α}
    {inverses inverses' : List (Dense α)} (h : u.Gives b inverses) (h' : u.Gives b' inverses')
    (hsizes : b.blockSizes = b'.blockSizes) : inverses = inverses' := by
  have hspans : b.spans = b'.spans := congrArg (Span.adjacent 0) hsizes
  have hfound := (invertFrom_eq_ok_iff 0).mpr h.2
  rw [hspans, (invertFrom_eq_ok_iff 0).mpr h'.2] at hfound
  exact (Except.ok.inj (Except.ok.inj hfound)).symm

/-! ## Any updates -/

/-- The preconditioner after some updates. -/
def run (b : BlockJacobi α) (us : List (Update α)) : BlockJacobi α :=
  us.foldl (fun b u => (b.update u.matrix u.damping).state) b

/-- What the updates answer, each of them where it is made. -/
def answers (b : BlockJacobi α) : List (Update α) → List (Except Fault Bool)
  | [] => []
  | u :: rest =>
    (b.update u.matrix u.damping).answer :: answers (b.update u.matrix u.damping).state rest

theorem run_append (b : BlockJacobi α) (us vs : List (Update α)) :
    b.run (us ++ vs) = (b.run us).run vs := List.foldl_append

@[simp] theorem blockSizes_state_update (b : BlockJacobi α) (u : Update α) :
    (b.update u.matrix u.damping).state.blockSizes = b.blockSizes := by
  rcases update_cases b u with ⟨-, inverses, -, hstate⟩ | ⟨-, hstate⟩ <;> rw [hstate]

@[simp] theorem blockSizes_run (b : BlockJacobi α) (us : List (Update α)) :
    (b.run us).blockSizes = b.blockSizes := by
  induction us generalizing b with
  | nil => rfl
  | cons u rest ih => exact (ih _).trans (blockSizes_state_update b u)

/-- Updates without a success leave no trace. -/
theorem run_of_no_success {b : BlockJacobi α} {us : List (Update α)}
    (h : .ok true ∉ b.answers us) : b.run us = b := by
  induction us generalizing b with
  | nil => rfl
  | cons u rest ih =>
    rw [answers, List.mem_cons, not_or] at h
    rcases update_cases b u with ⟨hanswer, -⟩ | ⟨-, hstate⟩
    · exact absurd hanswer.symm h.1
    · have hrest := h.2
      rw [hstate] at hrest
      show run (b.update u.matrix u.damping).state rest = b
      rw [hstate, ih hrest]

/-- The last of some updates that succeeded: where it stood among them it answered with `true`, and
no later one did. -/
def LastSuccess (b : BlockJacobi α) (us : List (Update α)) (u : Update α) : Prop :=
  ∃ before after, us = before ++ u :: after ∧
    ((b.run before).update u.matrix u.damping).answer = .ok true ∧
    .ok true ∉ ((b.run before).update u.matrix u.damping).state.answers after

/-- Where some update succeeded, one of them was the last. -/
theorem exists_lastSuccess {b : BlockJacobi α} {us : List (Update α)}
    (h : .ok true ∈ b.answers us) : ∃ u, LastSuccess b us u := by
  induction us generalizing b with
  | nil => cases h
  | cons u rest ih =>
    by_cases hrest : .ok true ∈ (b.update u.matrix u.damping).state.answers rest
    · obtain ⟨v, before, after, heq, hanswer, hafter⟩ := ih hrest
      exact ⟨v, u :: before, after, congrArg (u :: ·) heq, hanswer, hafter⟩
    · rcases List.mem_cons.mp h with hanswer | hmem
      · exact ⟨u, [], rest, rfl, hanswer.symm, hrest⟩
      · exact absurd hmem hrest

/-- What is kept after some updates is what the last success gives. -/
theorem LastSuccess.inverses_run {b : BlockJacobi α} {us : List (Update α)} {u : Update α}
    (h : LastSuccess b us u) :
    ∃ inverses, u.Gives b inverses ∧ b.run us = { b with inverses := some inverses } ∧
      (b.update u.matrix u.damping).state = { b with inverses := some inverses } := by
  obtain ⟨before, after, rfl, hanswer, hafter⟩ := h
  have hsizes : (b.run before).blockSizes = b.blockSizes := blockSizes_run b before
  rcases update_cases (b.run before) u with ⟨-, inverses, hgives, hstate⟩ | ⟨hno, -⟩
  · rcases update_cases b u with ⟨-, inverses', hgives', hstate'⟩ | ⟨hno, -⟩
    · obtain rfl : inverses = inverses' := hgives.unique hgives' hsizes
      refine ⟨inverses, hgives', ?_, hstate'⟩
      show (b.run (before ++ u :: after)) = _
      rw [run_append]
      show ((b.run before).update u.matrix u.damping).state.run after = _
      rw [run_of_no_success hafter, hstate, hsizes]
    · exact absurd ((answer_update_congr hsizes u).symm.trans hanswer) hno
  · exact absurd hanswer hno

/-- The inverses of one update can be applied to columns of the right length. -/
theorem Update.Gives.exists_multiplyAdd {u : Update α} {b : BlockJacobi α}
    {inverses : List (Dense α)} (h : u.Gives b inverses) {x y : Array α}
    (hx : (x.size : Int) = b.numRows) (hy : (y.size : Int) = b.numRows) :
    ∃ z, applyBlocks x (b.spans.zip inverses) y = .ok z ∧ z.size = x.size := by
  obtain ⟨hwidth, hinverted⟩ := h
  have hxn : u.matrix.pattern.numCols = x.size := by omega
  have hyn : y.size = x.size := by omega
  refine exists_applyBlocks_of_fits rfl (fun e he => ?_) hyn
  rw [← hxn]
  exact ((List.forall₂_iff_zip.mp hinverted).2 he).shape

/-- **A failed update keeps the last good preconditioner.** After any updates, of which some may be
refused and some stop at any block, applying fails if and only if none has succeeded yet, and then
because there was no update. Otherwise one of them was the last to succeed: all inverses that are
kept are those of its blocks, and what is added to a column of numbers is what is added after that
update alone. -/
theorem run_applies_last_success {sizes : List Atom} {b : BlockJacobi α}
    (made : make sizes = .ok b) (us : List (Update α)) {x y : Array α}
    (hx : (x.size : Int) = b.numRows) (hy : (y.size : Int) = b.numRows) :
    (∀ e, (b.run us).multiplyAdd x y = .error e ↔ e = .notUpdated ∧ .ok true ∉ b.answers us) ∧
    Fault.notUpdated.message = "update() must be called first" ∧
    (.ok true ∈ b.answers us → ∃ u, LastSuccess b us u) ∧
    ∀ u, LastSuccess b us u → ∃ inverses z,
      u.Gives b inverses ∧ (b.run us).inverses = some inverses ∧
      (b.run us).multiplyAdd x y = .ok z ∧ z.size = x.size ∧
      (b.update u.matrix u.damping).state.multiplyAdd x y = .ok z := by
  have hlast : ∀ u, LastSuccess b us u → ∃ inverses z,
      u.Gives b inverses ∧ (b.run us).inverses = some inverses ∧
      (b.run us).multiplyAdd x y = .ok z ∧ z.size = x.size ∧
      (b.update u.matrix u.damping).state.multiplyAdd x y = .ok z := by
    intro u hu
    obtain ⟨inverses, hgives, hrun, halone⟩ := hu.inverses_run
    obtain ⟨z, hz, hsize⟩ := hgives.exists_multiplyAdd hx hy
    refine ⟨inverses, z, hgives, ?_, ?_, hsize, ?_⟩
    · rw [hrun]
    · rw [hrun]
      exact hz
    · rw [halone]
      exact hz
  refine ⟨fun e => ?_, rfl, exists_lastSuccess, hlast⟩
  by_cases hsuccess : .ok true ∈ b.answers us
  · obtain ⟨u, hu⟩ := exists_lastSuccess hsuccess
    obtain ⟨inverses, z, -, -, hz, -⟩ := hlast u hu
    simp [hz, hsuccess]
  · have hnone : (b.run us).multiplyAdd x y = .error .notUpdated := by
      rw [run_of_no_success hsuccess, multiplyAdd, inverses_of_make made]
    simp [hnone, hsuccess, eq_comm]

/-- The diagonal matrix of two and one. -/
def diagonalUpdate : Update ℚ := ⟨⟨Pattern.ofRows 2 [[0], [1]], #[2, 1]⟩, none⟩

/-- Three updates that do not succeed: the second block is singular after the first one was
inverted, the matrix is too wide, and the damping stops before the second block. -/
def failingUpdates : List (Update ℚ) :=
  [⟨⟨Pattern.ofRows 2 [[0]], #[3]⟩, none⟩,
    ⟨⟨Pattern.ofRows 3 [[0]], #[1]⟩, none⟩,
    ⟨⟨Pattern.ofRows 2 [[0], [1]], #[5, 5]⟩, some #[1]⟩]

/-- After all four the inverses of the first are applied. -/
theorem run_applies_first_of_four :
    ∃ b : BlockJacobi ℚ, make [.integer 1, .integer 1] = .ok b ∧
      b.answers (diagonalUpdate :: failingUpdates) =
        [.ok true, .ok false, .error .matrixWidth, .error .shapes] ∧
      (b.run (diagonalUpdate :: failingUpdates)).multiplyAdd #[4, 5] #[1, 1] = .ok #[2, 6] := by
  have made : (make [.integer 1, .integer 1] : Except Fault (BlockJacobi ℚ)) =
    .ok ⟨[1, 1], none⟩ := rfl
  obtain ⟨-, -, -, hlast⟩ := run_applies_last_success made (diagonalUpdate :: failingUpdates)
    (x := #[4, 5]) (y := #[1, 1]) rfl rfl
  have hsuccess : ((⟨[1, 1], none⟩ : BlockJacobi ℚ).update diagonalUpdate.matrix none).answer =
    .ok true := by with_unfolding_all rfl
  have hfailures :
      ((⟨[1, 1], none⟩ : BlockJacobi ℚ).update diagonalUpdate.matrix none).state.answers
        failingUpdates = [.ok false, .error .matrixWidth, .error .shapes] := by
    with_unfolding_all rfl
  have hnone : .ok true ∉ ((⟨[1, 1], none⟩ : BlockJacobi ℚ).update diagonalUpdate.matrix
      none).state.answers failingUpdates := by
    rw [hfailures]
    simp
  obtain ⟨inverses, z, -, -, hrun, -, halone⟩ := hlast diagonalUpdate
    ⟨[], failingUpdates, rfl, hsuccess, hnone⟩
  refine ⟨_, made, ?_, hrun.trans ?_⟩
  · rw [answers]
    exact congr (congrArg List.cons hsuccess) hfailures
  · rw [← halone]
    with_unfolding_all rfl

end Updates

end BlockJacobi

end LeastSquares
