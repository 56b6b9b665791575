/-
LeastSquares.Proofs.Reporting — what fails says so once, and what succeeds does not.

A computation, a query or an update that comes back with nothing leaves one error line, and one that
comes back with something leaves none (`Outcome.Reports`). The property goes along the stages: an
algorithm gives up with its line, whatever was planned or evaluated before adds lines of information
alone, and a query adds the pair that it did not find. The numbers in the line of a null direction
are those that were compared (`log_valuesBySvd`).

A joint matrix is the exception. Its blocks are read by threads, each of which notes what it did not
find, so its lines are those of its blocks in an order that only the schedule knows
(`log_matrixIn`), and it is missing where there is any (`matrixIn_eq_none_iff`).
-/
import LeastSquares.Preconditioner.BlockJacobi
import LeastSquares.Proofs.Availability
import LeastSquares.Proofs.History
import LeastSquares.Proofs.Joining

namespace LeastSquares

namespace Outcome

variable {σ τ β : Type}

/-- An outcome whose answer is a failure tells so in one error line, and one whose answer is none
has no error line. A fault is told by itself. -/
def Reports (succeeded : β → Bool) (o : Outcome σ β) : Prop :=
  ∀ b, o.answer = .ok b → o.errorCount = if succeeded b then 0 else 1

/-- Was nothing found? -/
def isMissing (o : Outcome σ (Option β)) : Bool :=
  match o.answer with
  | .ok none => true
  | _ => false

theorem isMissing_iff {o : Outcome σ (Option β)} : o.isMissing = true ↔ o.answer = .ok none := by
  unfold isMissing
  split
  · rename_i h
    simp [h]
  · rename_i hother
    refine iff_of_false Bool.false_ne_true hother

theorem reports_of_error {succeeded : β → Bool} {o : Outcome σ β} {e : Fault}
    (h : o.answer = .error e) : o.Reports succeeded := by
  intro b hb
  rw [h] at hb
  cases hb

theorem reports_of_ok {succeeded : β → Bool} {o : Outcome σ β} {b : β} (h : o.answer = .ok b)
    (hcount : o.errorCount = if succeeded b then 0 else 1) : o.Reports succeeded := by
  intro b' hb
  rw [h] at hb
  cases hb
  exact hcount

theorem errorCount_after (lines : List Line) (o : Outcome σ β) :
    (o.after lines).errorCount = lines.countP Line.isError + o.errorCount :=
  List.countP_append

/-- Lines of information before an outcome leave its report as it is. -/
theorem Reports.after {succeeded : β → Bool} {o : Outcome σ β} (h : o.Reports succeeded)
    {lines : List Line} (hlines : lines.countP Line.isError = 0) :
    (o.after lines).Reports succeeded := by
  intro b hb
  rw [errorCount_after, hlines, Nat.zero_add]
  exact h b hb

end Outcome

/-! ## Null directions -/

namespace Truncation

variable {α : Type} [Zero α] [One α] [Mul α] [Div α] [LT α] [DecidableLT α]

/-- Only a null value that may not be dropped ends the loop without reciprocals. -/
theorem exists_null_of_reciprocals {automatic : Bool} {limit top : α} {values : List α}
    (h : reciprocals automatic limit top values = none) :
    automatic = false ∧ ∃ kept null rest, values = kept ++ null :: rest ∧
      (∀ x ∈ kept, ¬ ratio top x < limit) ∧ ratio top null < limit := by
  induction values with
  | nil => cases h
  | cons s values ih =>
    rw [reciprocals] at h
    split at h
    · rename_i hnull
      split at h
      · cases h
      · rename_i hautomatic
        exact ⟨by simpa using hautomatic, [], s, values, rfl, by simp, hnull⟩
    · rename_i hkeep
      obtain ⟨hautomatic, kept, null, rest, rfl, hkept, hnull⟩ := ih (Option.map_eq_none_iff.mp h)
      exact ⟨hautomatic, s :: kept, null, rest, rfl, List.forall_mem_cons.mpr ⟨hkeep, hkept⟩, hnull⟩

variable [Elementary α] {options : Options α} {values : List α}

/-- Where a direction that must be kept is null, its ratio is the one that is reported. -/
theorem firstNullRatio_of_weights_eq_none (h : weights options values = none) :
    0 ≤ options.nullSpaceRank ∧ ∃ kept null rest, values = kept ++ null :: rest ∧
      kept.length < maxRank values.length options.nullSpaceRank ∧
      (∀ x ∈ kept, ¬ ratio (values.headD 0) x < Elementary.sqrt options.minReciprocalCondition) ∧
      ratio (values.headD 0) null < Elementary.sqrt options.minReciprocalCondition ∧
      firstNullRatio options values = ratio (values.headD 0) null := by
  obtain ⟨hautomatic, kept, null, rest, htake, hkept, hnull⟩ :=
    exists_null_of_reciprocals (Option.map_eq_none_iff.mp h)
  have hsplit : values = kept ++ null :: (rest ++
      values.drop (maxRank values.length options.nullSpaceRank)) := by
    rw [← List.cons_append, ← List.append_assoc, ← htake, List.take_append_drop]
  have hlength : kept.length < maxRank values.length options.nullSpaceRank := by
    have htaken := congrArg List.length htake
    simp only [List.length_take, List.length_append, List.length_cons] at htaken
    omega
  refine ⟨by simpa using hautomatic, kept, null, _, hsplit, hlength, hkept, hnull, ?_⟩
  unfold firstNullRatio
  generalize values.headD 0 = top at hkept hnull ⊢
  have hfind : (kept.map (ratio top)).find?
      (fun r => decide (r < Elementary.sqrt options.minReciprocalCondition)) = none := by
    simpa using hkept
  rw [hsplit, List.map_append, List.find?_append, hfind, Option.none_or, List.map_cons,
    List.find?_cons]
  simp only [hnull, decide_true, Option.getD_some]

end Truncation

/-! ## Computing -/

namespace Covariance

open Outcome

/-- Planning reports progress at most. -/
theorem errorCount_make {α : Type} (p : Problem α) (items : List Item) :
    (Plan.make p items).errorCount = 0 := by
  unfold Plan.make
  split
  · rfl
  · dsimp only
    split <;> rfl

section Jacobian

variable {α : Type} [Zero α] [One α] [Add α] [Sub α] [Mul α] [Div α] [NatCast α] [BEq α] [LE α]
  [DecidableLE α] [Elementary α]

/-- Evaluating the Jacobian reports progress at most. -/
theorem errorCount_jacobian (p : Problem α) (schedule : Schedule) (bounds : ColumnBounds)
    (applyLoss : Bool) (threads : Int) :
    (p.jacobian schedule bounds applyLoss threads).errorCount = 0 := by
  unfold Problem.jacobian
  dsimp only
  split
  · rfl
  · unfold errorCount
    dsimp only
    split <;> rfl

end Jacobian

section Computing

variable {α : Type} [Zero α] [One α] [Add α] [Mul α] [Div α] [BEq α] [LT α] [DecidableLT α]

theorem reports_valuesByFactor [Neg α] [LE α] [DecidableLE α] (engine : Engine α)
    (options : Options α) (J : Compressed α) (p : Pattern) :
    (valuesByFactor engine options J p).Reports Option.isSome := by
  unfold valuesByFactor
  cases hfactor : factorNormal engine options.library J with
  | error line =>
    have herror : line.isError = true := by
      rcases factorNormal_eq_error hfactor with rfl | ⟨reason, rfl⟩ <;> rfl
    exact reports_of_ok rfl (by simp [errorCount, herror])
  | ok f =>
    dsimp only
    split
    · exact reports_of_ok rfl rfl
    · exact reports_of_ok rfl rfl

variable [NatCast α] [Elementary α]

theorem reports_valuesBySvd (engine : Engine α) (options : Options α) (J : Dense α)
    (p : Pattern) : (valuesBySvd engine options J p).Reports Option.isSome := by
  unfold valuesBySvd
  cases engine.singular J with
  | none => exact reports_of_error rfl
  | some s =>
    dsimp only
    cases Truncation.weights options s.values with
    | none => exact reports_of_ok rfl rfl
    | some weights => exact reports_of_ok rfl rfl

/-- **The line of a near rank deficiency** gives the ratio of the first null direction, which is one
of those that must be kept, and the limit that it is below. -/
theorem log_valuesBySvd {engine : Engine α} {options : Options α} {J : Dense α} {p : Pattern}
    (h : (valuesBySvd engine options J p).answer = .ok none) :
    ∃ s kept null rest, engine.singular J = some s ∧ s.values = kept ++ null :: rest ∧
      0 ≤ options.nullSpaceRank ∧
      kept.length < Truncation.maxRank s.values.length options.nullSpaceRank ∧
      (∀ x ∈ kept, ¬ Truncation.ratio (s.values.headD 0) x <
        Elementary.sqrt options.minReciprocalCondition) ∧
      Truncation.ratio (s.values.headD 0) null <
        Elementary.sqrt options.minReciprocalCondition ∧
      (valuesBySvd engine options J p).log =
        [.nearRankDeficient (engine.scientific (Truncation.ratio (s.values.headD 0) null))
          (engine.scientific (Elementary.sqrt options.minReciprocalCondition))] := by
  unfold valuesBySvd at h ⊢
  cases hs : engine.singular J with
  | none =>
    rw [hs] at h
    cases h
  | some s =>
    simp only [hs] at h ⊢
    cases hweights : Truncation.weights options s.values with
    | some weights =>
      rw [hweights] at h
      cases h
    | none =>
      obtain ⟨hrank, kept, null, rest, hvalues, hlength, hkept, hnull, hratio⟩ :=
        Truncation.firstNullRatio_of_weights_eq_none hweights
      exact ⟨s, kept, null, rest, rfl, hvalues, hrank, hlength, hkept, hnull, by rw [hratio]⟩

variable [Neg α] [LE α] [DecidableLE α]

theorem reports_values (engine : Engine α) (options : Options α) (J : Compressed α)
    (p : Pattern) : (values engine options J p).Reports Option.isSome := by
  unfold values
  split
  · exact reports_valuesBySvd engine options J.dense p
  · exact reports_valuesByFactor engine options J p

theorem reports_estimateValues (engine : Engine α) (options : Options α) (J : Compressed α)
    (p : Pattern) : (estimateValues engine options J p).Reports Option.isSome := by
  unfold estimateValues
  split
  · exact reports_of_ok rfl rfl
  · have hvalues := reports_values engine options J p
    dsimp only
    split
    · rename_i raw hraw
      cases p.transposePermutation with
      | error e => exact reports_of_error rfl
      | ok transposed => exact reports_of_ok rfl (hvalues (some raw) hraw)
    · exact hvalues

variable [Sub α]

theorem reports_fillPlan (engine : Engine α) (options : Options α) (problem : Problem α)
    (plan : Plan) : (fillPlan engine options problem plan).Reports Option.isSome := by
  unfold fillPlan
  split
  · exact reports_of_ok rfl rfl
  · dsimp only
    split
    · exact reports_of_error rfl
    · rename_i J _
      exact (reports_estimateValues engine options J plan.pattern).after
        (errorCount_jacobian problem engine.schedule plan.bounds options.applyLoss options.threads)

/-- **A computation that fails says so once.** -/
theorem reports_compute (engine : Engine α) (c : Covariance α) (problem : Problem α)
    (request : List Item) : (compute engine c problem request).Reports fun done => done := by
  unfold compute
  cases Request.pairs request with
  | error e => exact reports_of_error rfl
  | ok pairs =>
    dsimp only
    have hplanned := errorCount_make problem
      (pairs.map fun pair => .list [.integer pair.1, .integer pair.2])
    cases hplan : (Plan.make problem
        (pairs.map fun pair => .list [.integer pair.1, .integer pair.2])).answer with
    | error e => exact reports_of_error rfl
    | ok plan =>
      have hfilled := reports_fillPlan engine c.options problem plan
      dsimp only
      cases hanswer : (fillPlan engine c.options problem plan).answer with
      | error e => exact reports_of_error rfl
      | ok found =>
        have hcount := hfilled found hanswer
        unfold errorCount at hplanned hcount
        cases found with
        | none =>
          refine reports_of_ok rfl ?_
          simpa [errorCount, hplanned] using hcount
        | some values =>
          refine reports_of_ok rfl ?_
          simpa [errorCount, hplanned] using hcount

end Computing

/-! ## Queries -/

section Queries

variable {α : Type} [Zero α] [One α] [Add α] [Mul α] [Div α] [NatCast α]

/-- A block of a result has a line where it is missing, and this is its line. -/
theorem log_blockIn (plan : Plan) (values : Array α) (problem : Problem α)
    (coordinates : Coordinates) (a b : Atom) :
    (blockIn plan values problem coordinates a b).log =
      if (blockIn plan values problem coordinates a b).isMissing then [.notRequested a b]
      else [] := by
  have hfound : ∀ x : Except Fault (Dense α), (reply (x.map some)).isMissing = false := by
    intro x
    cases x <;> rfl
  unfold blockIn
  cases problem.position a with
  | error e => rfl
  | ok i =>
    cases problem.position b with
    | error e => rfl
    | ok j =>
      cases isZero plan.bounds a b with
      | error e => rfl
      | ok zero =>
        cases zero with
        | true => rfl
        | false =>
          cases plan.offsets a b with
          | error e => rfl
          | ok offsets =>
            cases offsets with
            | none => rfl
            | some offsets =>
              cases coordinates with
              | tangent => rfl
              | ambient =>
                dsimp only
                rw [hfound]
                rfl

/-- **A block query that fails says so once.** -/
theorem reports_block (c : Covariance α) (problem : Problem α) (coordinates : Coordinates)
    (a b : Atom) : (c.block problem coordinates a b).Reports Option.isSome := by
  unfold block whenReady
  split
  · cases c.estimate with
    | absent => exact reports_of_ok rfl rfl
    | failed plan => exact reports_of_ok rfl rfl
    | ready plan values =>
      intro found hfound
      dsimp only at hfound ⊢
      have hlog := log_blockIn plan values problem coordinates a b
      cases found with
      | none =>
        rw [if_pos (isMissing_iff.mpr hfound)] at hlog
        rw [errorCount, hlog]
        rfl
      | some B =>
        have hthere : (blockIn plan values problem coordinates a b).isMissing = false := by
          simp [isMissing, hfound]
        rw [hthere] at hlog
        rw [errorCount, hlog]
        rfl
  · exact reports_of_error rfl

/-! ## Joint matrices -/

open Request

/-- The pairs of handles, the first one not behind the second, that a block query finds nothing
for. A handle that is named at several places makes pairs at each of them. -/
def missing (c : Covariance α) (problem : Problem α) (coordinates : Coordinates)
    (handles : List Atom) : List (Atom × Atom) :=
  (allPairs handles).filter fun pair => (c.block problem coordinates pair.1 pair.2).isMissing

theorem fst_blockOfPair (plan : Plan) (values : Array α) (problem : Problem α)
    (coordinates : Coordinates) (handles : Array Atom) (sizes : Array Int) (k : Nat) :
    (blockOfPair plan values problem coordinates handles sizes k).1 =
      (blockIn plan values problem coordinates
        (handles.getD (Triangle.pair handles.size k).1 .null)
        (handles.getD (Triangle.pair handles.size k).2 .null)).log := by
  unfold blockOfPair
  generalize Triangle.pair handles.size k = pair
  obtain ⟨i, j⟩ := pair
  dsimp only
  split
  · split <;> rfl
  · rfl

/-- The pairs of handles, by their numbers. -/
theorem allPairs_eq_map (handles : List Atom) :
    allPairs handles = (List.range (Triangle.count handles.length)).map fun k =>
      (handles.toArray.getD (Triangle.pair handles.length k).1 .null,
        handles.toArray.getD (Triangle.pair handles.length k).2 .null) := by
  have hhandles : handles =
      (List.range handles.length).map fun i => handles.toArray.getD i .null := by
    apply List.ext_getElem
    · simp
    · intro i _ hi
      have hi : i < handles.length := by simpa using hi
      simp [Array.getD_eq_getD_getElem?, hi]
  conv_lhs => rw [hhandles]
  rw [map_allPairs, ← Triangle.map_pair_range, List.map_map]
  rfl

theorem flatMap_ite {β γ : Type} (p : β → Bool) (f : β → γ) (xs : List β) :
    (xs.flatMap fun x => if p x then [f x] else []) = (xs.filter p).map f := by
  induction xs with
  | nil => rfl
  | cons x xs ih =>
    rw [List.flatMap_cons, ih, List.filter_cons]
    cases p x <;> rfl

variable {schedule : Schedule} {threads : Int} {plan : Plan} {values : Array α}
  {problem : Problem α} {coordinates : Coordinates} {handles : List Atom}
  {found : Option (Dense α)}

/-- The lines of a joint matrix are those of its blocks, in some order. -/
theorem log_matrixIn
    (h : (matrixIn schedule threads plan values problem coordinates handles).answer =
      .ok found) :
    (matrixIn schedule threads plan values problem coordinates handles).log.Perm
      ((allPairs handles).flatMap fun pair =>
        (blockIn plan values problem coordinates pair.1 pair.2).log) := by
  unfold matrixIn at h ⊢
  cases hblocks : handles.mapM problem.block with
  | error e =>
    simp only [hblocks, reply] at h
    cases h
  | ok blocks =>
    simp only [hblocks] at h ⊢
    generalize htask : blockOfPair plan values problem coordinates handles.toArray
      (blocks.map coordinates.size).toArray = task at h ⊢
    split at h
    · cases h
    · rename_i shared hcollect
      have hnone := congrArg Prod.snd hcollect
      rw [Parallel.snd_collect, List.findSome?_eq_none_iff] at hnone
      have hresults : ∀ k, k < Triangle.count handles.length → ∃ b, (task k).2 = .ok b :=
        fun k hk => failure?_eq_none_iff.mp (hnone k (List.mem_range.mpr hk))
      have hperm := Parallel.notes_collect hresults schedule threads
        (Canvas.put (.ofSizes ((blocks.map coordinates.size).map Int.toNat)))
        (Canvas.blank (.ofSizes ((blocks.map coordinates.size).map Int.toNat)))
      rw [hcollect] at hperm
      rw [allPairs_eq_map, List.flatMap_map]
      subst htask
      simpa only [reply, fst_blockOfPair, List.size_toArray] using hperm

theorem placed_eq_none_iff {x y : Atom × Int} :
    placed plan values problem coordinates (x, y) = .ok none ↔
      (blockIn plan values problem coordinates x.1 y.1).isMissing = true := by
  rw [isMissing_iff]
  unfold placed
  split
  · rename_i B hanswer
    rw [hanswer]
    split <;> simp
  · rfl

/-- A joint matrix is missing where one of its blocks is. -/
theorem matrixIn_eq_none_iff
    (h : (matrixIn schedule threads plan values problem coordinates handles).answer =
      .ok found) :
    found = none ↔ ∃ pair ∈ allPairs handles,
      (blockIn plan values problem coordinates pair.1 pair.2).isMissing = true := by
  rw [answer_matrixIn] at h
  cases hblocks : handles.mapM problem.block with
  | error e =>
    rw [hblocks] at h
    cases h
  | ok blocks =>
    simp only [hblocks] at h
    obtain ⟨Bs, hplaced, rfl⟩ := map_eq_ok_iff.mp h
    have hlength : (blocks.map coordinates.size).length = handles.length := by
      rw [List.length_map, length_of_mapM_eq_ok hblocks]
    have hpairs : allPairs handles =
        (allPairs (handles.zip (blocks.map coordinates.size))).map fun pair =>
          (pair.1.1, pair.2.1) := by
      have hfirst : (handles.zip (blocks.map coordinates.size)).map Prod.fst = handles :=
        List.map_fst_zip (Nat.le_of_eq hlength.symm)
      conv_lhs => rw [← hfirst]
      exact map_allPairs Prod.fst _
    rw [Option.map_eq_none_iff, mapM_id_eq_none_iff, hpairs]
    constructor
    · intro hnone
      obtain ⟨k, hk⟩ := List.mem_iff_getElem?.mp hnone
      obtain ⟨⟨x, y⟩, hpair, hmissing⟩ := exists_getElem?_of_mapM_eq_ok hplaced hk
      exact ⟨(x.1, y.1), List.mem_map.mpr ⟨(x, y), List.mem_of_getElem? hpair, rfl⟩,
        placed_eq_none_iff.mp hmissing⟩
    · rintro ⟨_, hmem, hmissing⟩
      obtain ⟨⟨x, y⟩, hpair, rfl⟩ := List.mem_map.mp hmem
      obtain ⟨B, hB, hplacedB⟩ := exists_mem_of_mapM_eq_ok hplaced hpair
      rw [placed_eq_none_iff.mpr hmissing] at hplacedB
      cases hplacedB
      exact hB

/-- **A joint matrix that fails says why, block by block.** -/
theorem log_matrix {engine : Engine α} {c : Covariance α}
    (h : (c.matrix engine problem coordinates handles).answer = .ok found) :
    let lines := (c.matrix engine problem coordinates handles).log
    (c.estimate.matrix? = none → found = none ∧ lines = [.unavailable]) ∧
      (c.estimate.matrix?.isSome = true →
        lines.Perm ((c.missing problem coordinates handles).map fun pair =>
          .notRequested pair.1 pair.2) ∧
        (found = none ↔ c.missing problem coordinates handles ≠ [])) := by
  dsimp only
  cases hcomputed : c.computed with
  | false =>
    rw [matrix, whenReady_of_not_computed hcomputed] at h
    cases h
  | true =>
    refine ⟨fun hnone => ?_, fun hsome => ?_⟩
    · rw [matrix, whenReady_of_matrix_eq_none hcomputed hnone] at h ⊢
      cases h
      exact ⟨rfl, rfl⟩
    · obtain ⟨plan, values, hestimate⟩ : ∃ plan values, c.estimate = .ready plan values := by
        cases hestimate : c.estimate with
        | absent => simp [hestimate, Estimate.matrix?] at hsome
        | failed plan => simp [hestimate, Estimate.matrix?] at hsome
        | ready plan values => exact ⟨plan, values, rfl⟩
      have hready : ∀ {β : Type} (f : Plan → Array α → Reply (Option β)),
          c.whenReady f = f plan values := by
        intro β f
        simp only [whenReady, hcomputed, if_true, hestimate]
      have hmissing : c.missing problem coordinates handles = (allPairs handles).filter fun pair =>
          (blockIn plan values problem coordinates pair.1 pair.2).isMissing := by
        unfold missing block
        simp only [hready]
      rw [matrix, hready] at h ⊢
      constructor
      · rw [hmissing, ← flatMap_ite]
        simpa only [log_blockIn] using log_matrixIn h
      · rw [matrixIn_eq_none_iff h, hmissing, ne_eq, List.filter_eq_nil_iff]
        simp only [not_forall, not_not, exists_prop]

/-- A joint matrix has one error line for each block that is missing, or one for all of them where
nothing was computed, and it is missing where there is an error line. -/
theorem errorCount_matrix {engine : Engine α} {c : Covariance α}
    (h : (c.matrix engine problem coordinates handles).answer = .ok found) :
    ((c.matrix engine problem coordinates handles).errorCount =
      if c.estimate.matrix?.isSome then (c.missing problem coordinates handles).length else 1) ∧
    (found = none ↔ 0 < (c.matrix engine problem coordinates handles).errorCount) := by
  obtain ⟨hfailed, hthere⟩ := log_matrix h
  unfold errorCount
  cases hvalues : c.estimate.matrix? with
  | none =>
    obtain ⟨rfl, hlines⟩ := hfailed hvalues
    rw [hlines]
    exact ⟨rfl, by simp [Line.isError, Line.severity]⟩
  | some M =>
    obtain ⟨hlines, hnone⟩ := hthere (by rw [hvalues]; rfl)
    have hcount : (c.matrix engine problem coordinates handles).log.countP Line.isError =
        (c.missing problem coordinates handles).length := by
      rw [hlines.countP_eq, List.countP_map]
      exact List.countP_eq_length.mpr fun _ _ => rfl
    rw [hnone, hcount, List.length_pos_iff]
    exact ⟨rfl, Iff.rfl⟩

end Queries

end Covariance

/-! ## Updating -/

namespace BlockJacobi

open Outcome

variable {α : Type} [Zero α] [One α] [Add α] [Sub α] [Neg α] [Mul α] [Div α] [BEq α] [LT α]
  [DecidableLT α]

/-- **An update that fails says so once.** -/
theorem reports_update (b : BlockJacobi α) (A : Compressed α) (damping : Option (Array α)) :
    (b.update A damping).Reports fun done => done := by
  unfold update
  cases A.check with
  | error e => exact reports_of_error rfl
  | ok _ =>
    dsimp only
    split
    · cases invertFrom A damping 0 b.spans with
      | error e => exact reports_of_error rfl
      | ok inverted =>
        cases inverted with
        | error index => exact reports_of_ok rfl rfl
        | ok inverses => exact reports_of_ok rfl rfl
    · exact reports_of_error rfl

end BlockJacobi

/-! ## After any calls -/

namespace Covariance

open Outcome Request

variable {ι α : Type} [Zero α] [One α] [Add α] [Sub α] [Neg α] [Mul α] [Div α] [NatCast α]
  [BEq α] [LT α] [DecidableLT α] [LE α] [DecidableLE α] [Elementary α]

/-- Was the last of some calls answered with `true`? -/
def Succeeded (engine : Engine α) (options : Options α) (calls : List (Call ι α)) : Prop :=
  ∃ earlier last, calls = earlier ++ [last] ∧
    (compute engine (after engine options earlier) last.problem last.request).answer = .ok true

theorem isSome_matrix_iff_succeeded {engine : Engine α} {options : Options α}
    (calls : List (Call ι α)) :
    (after engine options calls).estimate.matrix?.isSome = true ↔
      Succeeded engine options calls := by
  unfold Succeeded
  cases calls using List.reverseRecOn with
  | nil => simp [after, ofOptions, Estimate.matrix?]
  | append_singleton calls call =>
    rw [isSome_matrix_after]
    constructor
    · exact fun h => ⟨calls, call, rfl, h⟩
    · rintro ⟨earlier, last, heq, h⟩
      obtain ⟨hearlier, hlast⟩ := List.append_inj' heq rfl
      cases hlast
      rw [hearlier]
      exact h

/-- **Failures are logged, and successes are not.** After any calls, a further computation and a
block query each leave one error line if they come back with nothing, and none if they come back
with something; so does the update of a preconditioner. A joint matrix says once that the last
computation failed, if it did; otherwise its lines are one for each pair of places whose block query
finds nothing, and it is missing where there is any. -/
theorem reports_after (engine : Engine α) (options : Options α) (calls : List (Call ι α)) :
    let c := after engine options calls
    ∀ engine' : Engine α,
      (∀ problem request, (compute engine' c problem request).Reports fun done => done) ∧
      (∀ problem coordinates a b, (c.block problem coordinates a b).Reports Option.isSome) ∧
      (∀ problem coordinates handles found,
        (c.matrix engine' problem coordinates handles).answer = .ok found →
        let joined := c.matrix engine' problem coordinates handles
        let missing := c.missing problem coordinates handles
        (¬ Succeeded engine options calls → joined.errorCount = 1) ∧
        (Succeeded engine options calls → joined.errorCount = missing.length ∧
          joined.log.Perm (missing.map fun pair => .notRequested pair.1 pair.2)) ∧
        (found = none ↔ 0 < joined.errorCount)) ∧
      ∀ (b : BlockJacobi α) A damping, (b.update A damping).Reports fun done => done := by
  intro c engine'
  refine ⟨fun problem request => reports_compute engine' c problem request,
    fun problem coordinates a b => reports_block c problem coordinates a b, ?_,
    fun b A damping => b.reports_update A damping⟩
  intro problem coordinates handles found h joined missing
  obtain ⟨hcount, hnone⟩ := errorCount_matrix h
  rw [← isSome_matrix_iff_succeeded]
  exact ⟨fun hfailed => hcount.trans (if_neg hfailed),
    fun hthere => ⟨hcount.trans (if_pos hthere), ((log_matrix h).2 hthere).1⟩, hnone⟩

/-- What a computation of the pair of both blocks leaves. -/
def shearedResult : Covariance ℚ :=
  ⟨(plain .sparseQr).options, true, .ready (Plan.ofPairs shearedBounds [(1, 0)]) #[-1, -1]⟩

theorem after_sheared : after Engine.exact (plain .sparseQr).options
    [(⟨(), sheared, shearedRequest⟩ : Call Unit ℚ)] = shearedResult := by
  have hvalues : (estimateValues Engine.exact (plain .sparseQr).options shearedJacobian
      (Plan.ofPairs shearedBounds [(1, 0)]).pattern).answer = .ok (some #[-1, -1]) := by cbv
  have hcomputed := (prepared_sheared.compute_eq (c := plain .sparseQr)).2
  rw [hvalues] at hcomputed
  exact hcomputed

/-- The pair of both blocks is computed, and neither of them with itself, so that two of the three
blocks of their joint matrix are missing. -/
theorem reports_after_sheared :
    let calls : List (Call Unit ℚ) := [⟨(), sheared, shearedRequest⟩]
    let c := after Engine.exact (plain .sparseQr).options calls
    let joined := c.matrix Engine.exact sheared .tangent [.integer 0, .integer 1]
    joined.answer = .ok none ∧ joined.errorCount = 2 := by
  intro calls c joined
  have hanswer : (shearedResult.matrix Engine.exact sheared .tangent
      [.integer 0, .integer 1]).answer = .ok none := by cbv
  have hmissing : (shearedResult.missing sheared .tangent
      [.integer 0, .integer 1]).length = 2 := by cbv
  rw [← after_sheared] at hanswer hmissing
  have hlast : Succeeded Engine.exact (plain .sparseQr).options calls :=
    ⟨[], ⟨(), sheared, shearedRequest⟩, rfl, answer_sheared⟩
  obtain ⟨-, -, hmatrix, -⟩ :=
    reports_after Engine.exact (plain .sparseQr).options calls Engine.exact
  obtain ⟨-, hthere, -⟩ := hmatrix sheared .tangent [.integer 0, .integer 1] none hanswer
  exact ⟨hanswer, (hthere hlast).1.trans hmissing⟩

end Covariance

end LeastSquares
