/-
LeastSquares.Proofs.History — what a covariance knows after any calls.

A covariance is computed again and again, of other problems and for other requests, and asked in
between. A call forgets the result of the call before it, and then gets to one of several places: it
is refused while it is planned, it breaks off or fails with the plan made, or it is answered with
`true`. `state_compute` says what one call leaves; from there every statement about histories goes
by induction over the calls.

* `computed_after`: whether any call was planned is all that is ever remembered of the earlier ones;
  `after_concat_of_planned`: where the last call was planned, not even that makes a difference.
* `Fields` is the same covariance with a field for each thing that it remembers, written one by one
  on the way through a call. `Fields.after_eq` says that these fields always belong together, so
  that a query which insists on finding them finds them.
-/
import LeastSquares.Proofs.Complaint
import LeastSquares.Proofs.Estimation
import LeastSquares.Proofs.Rational

namespace LeastSquares

/-- A call for a computation: the name of a problem, what the problem is at that time, and the
request. -/
structure Call (ι α : Type) where
  name : ι
  problem : Problem α
  request : List Item

namespace Call

variable {ι α : Type}

/-- Does the call get past planning? -/
def Planned (call : Call ι α) : Prop :=
  ∃ plan, Covariance.planOf call.problem call.request = .ok plan

theorem not_planned_iff {call : Call ι α} :
    ¬ call.Planned ↔ ∃ e, Covariance.planOf call.problem call.request = .error e := by
  unfold Planned
  cases Covariance.planOf call.problem call.request with
  | error e => simp
  | ok plan => simp

end Call

namespace Estimate

variable {α : Type}

@[simp] theorem plan?_ofFilled (plan : Plan) (filled : Except Fault (Option (Array α))) :
    (ofFilled plan filled).plan? = some plan := by
  cases filled with
  | error e => rfl
  | ok found => cases found <;> rfl

/-- A plan has values where something is answered to be there. -/
theorem isSome_matrix?_ofFilled {plan : Plan} {filled : Except Fault (Option (Array α))} :
    (ofFilled plan filled).matrix?.isSome = true ↔ filled.map Option.isSome = .ok true := by
  cases filled with
  | error e => simp [ofFilled, matrix?, Except.map]
  | ok found => cases found <;> simp [ofFilled, matrix?, Except.map]

end Estimate

namespace Covariance

/-! ## One call -/

section Computing

variable {ι α : Type} [Zero α] [One α] [Add α] [Sub α] [Neg α] [Mul α] [Div α] [NatCast α]
  [BEq α] [LT α] [DecidableLT α] [LE α] [DecidableLE α] [Elementary α]

/-- A refused call answers why, and leaves the covariance without an estimate. -/
theorem compute_of_refused {problem : Problem α} {request : List Item} {e : Fault}
    (h : planOf problem request = .error e) (engine : Engine α) (c : Covariance α) :
    (compute engine c problem request).answer = .error e ∧
      (compute engine c problem request).state = c.forget := by
  unfold planOf at h
  unfold compute
  cases hpairs : Request.pairs request with
  | error e' =>
    simp only [hpairs] at h
    cases h
    exact ⟨rfl, rfl⟩
  | ok pairs =>
    simp only [hpairs, itemsOf] at h
    simp only [h, and_self]

/-- **One call.** What a call leaves: nothing of the result before it, a plan and what filled it if
it was planned, and the options. -/
theorem state_compute (engine : Engine α) (c : Covariance α) (call : Call ι α) :
    (compute engine c call.problem call.request).state =
      match planOf call.problem call.request with
      | .error _ => { c with estimate := .absent }
      | .ok plan =>
        { c with
          computed := true
          estimate := Estimate.ofFilled plan
            (fillPlan engine c.options call.problem plan).answer } := by
  cases hplan : planOf call.problem call.request with
  | error e => exact (compute_of_refused hplan engine c).2
  | ok plan => exact (compute_eq hplan engine c).2

/-- The answer of a call depends on the options, the problem and the request. -/
theorem answer_compute (engine : Engine α) (c : Covariance α) (call : Call ι α) :
    (compute engine c call.problem call.request).answer =
      match planOf call.problem call.request with
      | .error e => .error e
      | .ok plan => (fillPlan engine c.options call.problem plan).answer.map Option.isSome := by
  cases hplan : planOf call.problem call.request with
  | error e => exact (compute_of_refused hplan engine c).1
  | ok plan => exact (compute_eq hplan engine c).1

/-- Values that a computation leaves are those of a planned request, and it has succeeded. -/
theorem planned_of_ready {engine : Engine α} {c : Covariance α} {p : Problem α}
    {request : List Item} {plan : Plan} {values : Array α}
    (h : (compute engine c p request).state.estimate = .ready plan values) :
    planOf p request = .ok plan ∧ (compute engine c p request).answer = .ok true := by
  cases hplan : planOf p request with
  | error e =>
    rw [(compute_of_refused hplan engine c).2] at h
    cases h
  | ok plan' =>
    obtain ⟨hanswer, hstate⟩ := compute_eq hplan engine c
    rw [hstate] at h
    rw [hanswer]
    cases hfilled : (fillPlan engine c.options p plan').answer with
    | error e =>
      rw [hfilled] at h
      cases h
    | ok found =>
      rw [hfilled] at h
      cases found with
      | none => cases h
      | some values =>
        cases h
        exact ⟨rfl, rfl⟩

/-! ## All calls -/

/-- The covariance after some calls. -/
def after (engine : Engine α) (options : Options α) (calls : List (Call ι α)) : Covariance α :=
  calls.foldl (fun c call => (compute engine c call.problem call.request).state)
    (ofOptions options)

variable {engine : Engine α} {options : Options α}

theorem after_concat (calls : List (Call ι α)) (call : Call ι α) :
    after engine options (calls ++ [call]) =
      (compute engine (after engine options calls) call.problem call.request).state := by
  simp only [after, List.foldl_append, List.foldl_cons, List.foldl_nil]

/-- No call changes the options. -/
theorem options_after (calls : List (Call ι α)) : (after engine options calls).options = options := by
  -- the calls before the last one come first, so the induction takes calls off the end
  induction calls using List.reverseRecOn with
  | nil => rfl
  | append_singleton calls call ih =>
    rw [after_concat, state_compute]
    cases planOf call.problem call.request with
    | error e => exact ih
    | ok plan => exact ih

/-- What is remembered of all calls is whether one of them was planned. -/
theorem computed_after (calls : List (Call ι α)) :
    (after engine options calls).computed = true ↔ ∃ call ∈ calls, call.Planned := by
  induction calls using List.reverseRecOn with
  | nil => simp [after, ofOptions]
  | append_singleton calls call ih =>
    simp only [List.mem_append, List.mem_singleton, or_and_right, exists_or, exists_eq_left]
    rw [after_concat, state_compute, ← ih]
    cases hplan : planOf call.problem call.request with
    | error e =>
      have hnot : ¬ call.Planned := Call.not_planned_iff.mpr ⟨e, hplan⟩
      simp only [hnot, or_false]
    | ok plan =>
      have hplanned : call.Planned := ⟨plan, hplan⟩
      simp only [hplanned, or_true]

/-- The answer of the last call is that of a covariance of which nothing is known yet. -/
theorem answer_last (engine : Engine α) (options : Options α) (calls : List (Call ι α))
    (call : Call ι α) :
    (compute engine (after engine options calls) call.problem call.request).answer =
      (compute engine (ofOptions options) call.problem call.request).answer := by
  rw [answer_compute, answer_compute, options_after]
  rfl

/-- **No stale results.** Where the last call was planned, the covariance is as if it had been the
only one. -/
theorem after_concat_of_planned (calls : List (Call ι α)) {call : Call ι α} (h : call.Planned) :
    after engine options (calls ++ [call]) =
      (compute engine (ofOptions options) call.problem call.request).state := by
  obtain ⟨plan, hplan⟩ := h
  rw [after_concat, state_compute, state_compute, hplan]
  simp only [options_after]
  rfl

/-- There are values exactly where the last call was answered with `true`. -/
theorem isSome_matrix_after (calls : List (Call ι α)) (call : Call ι α) :
    (after engine options (calls ++ [call])).estimate.matrix?.isSome = true ↔
      (compute engine (after engine options calls) call.problem call.request).answer =
        .ok true := by
  rw [after_concat, state_compute, answer_compute]
  cases planOf call.problem call.request with
  | error e => simp [Estimate.matrix?]
  | ok plan => exact Estimate.isSome_matrix?_ofFilled

/-- There are columns exactly where the last call was planned. -/
theorem bounds_after (calls : List (Call ι α)) :
    (after engine options calls).estimate.bounds? = none ↔
      calls = [] ∨ ∃ earlier last, calls = earlier ++ [last] ∧ ¬ last.Planned := by
  induction calls using List.reverseRecOn with
  | nil => simp [after, ofOptions, Estimate.bounds?, Estimate.plan?]
  | append_singleton calls call _ =>
    have hlast : (∃ earlier last, calls ++ [call] = earlier ++ [last] ∧ ¬ last.Planned) ↔
        ¬ call.Planned := by
      constructor
      · rintro ⟨earlier, last, heq, hlast⟩
        obtain ⟨-, heq⟩ := List.append_inj' heq rfl
        cases heq
        exact hlast
      · exact fun h => ⟨calls, call, rfl, h⟩
    simp only [List.append_eq_nil_iff, List.cons_ne_nil, and_false, false_or]
    rw [hlast, after_concat, state_compute, Estimate.bounds?, Option.map_eq_none_iff]
    cases hplan : planOf call.problem call.request with
    | error e =>
      have hnot : ¬ call.Planned := Call.not_planned_iff.mpr ⟨e, hplan⟩
      simp only [hnot, not_false_eq_true, Estimate.plan?]
    | ok plan =>
      have hplanned : call.Planned := ⟨plan, hplan⟩
      simp [hplanned]

end Computing

end Covariance

/-! ## One field for each thing -/

/-- A covariance with a field for each thing that it remembers. -/
structure Fields (ι α : Type) where
  /-- The problem of the last call that was planned. -/
  problem : Option ι := none
  plan : Option Plan := none
  matrix : Option (Compressed α) := none
  /-- Was any call planned? -/
  computed : Bool := false
  /-- Was the last call answered with `true`? -/
  valid : Bool := false

namespace Fields

open Covariance

section Computing

variable {ι α : Type} [Zero α] [One α] [Add α] [Sub α] [Neg α] [Mul α] [Div α] [NatCast α]
  [BEq α] [LT α] [DecidableLT α] [LE α] [DecidableLE α] [Elementary α]

/-- Compute, and write the fields on the way. The call can be left with a fault or an answer at
every step, with the fields as they are then. -/
def compute (engine : Engine α) (options : Options α) (f : Fields ι α) (call : Call ι α) :
    Except Fault Bool × Fields ι α :=
  let f := { f with plan := none, matrix := none, valid := false }
  match planOf call.problem call.request with
  | .error e => (.error e, f)
  | .ok plan =>
    let f := { f with problem := some call.name, plan := some plan, computed := true }
    if plan.pattern.nonzeros = 0 then
      (.ok true, { f with matrix := some ⟨plan.pattern, #[]⟩, valid := true })
    else
      match (call.problem.jacobian engine.schedule plan.bounds options.applyLoss
          options.threads).answer with
      | .error e => (.error e, f)
      | .ok J =>
        if J.pattern.numRows = 0 ∨ J.pattern.numCols = 0 then (.ok false, f)
        else
          match (values engine options J plan.pattern).answer with
          | .error e => (.error e, f)
          | .ok none => (.ok false, f)
          | .ok (some raw) =>
            match plan.pattern.transposePermutation with
            | .error e => (.error e, f)
            | .ok transposed =>
              (.ok true,
                { f with matrix := some ⟨plan.pattern, average raw transposed⟩, valid := true })

/-- The fields after some calls. -/
def after (engine : Engine α) (options : Options α) (calls : List (Call ι α)) : Fields ι α :=
  calls.foldl (fun f call => (f.compute engine options call).2) {}

/-- The fields that belong to a covariance, with the name of a problem. -/
def ofCovariance (name : Option ι) (c : Covariance α) : Fields ι α where
  problem := name
  plan := c.estimate.plan?
  matrix := c.estimate.matrix?
  computed := c.computed
  valid := c.estimate.matrix?.isSome

/-- **Every exit.** Wherever a call is left, its answer and the fields are those of the computation
that writes them all at its end. -/
theorem compute_ofCovariance (engine : Engine α) (name : Option ι) (c : Covariance α)
    (call : Call ι α) :
    (ofCovariance name c).compute engine c.options call =
      ((c.compute engine call.problem call.request).answer,
        ofCovariance (if (planOf call.problem call.request).toOption.isSome then some call.name
          else name) (c.compute engine call.problem call.request).state) := by
  rw [answer_compute, state_compute]
  unfold compute
  -- one case for each place where the call can be left
  cases planOf call.problem call.request with
  | error e => rfl
  | ok plan =>
    simp only [fillPlan]
    by_cases hempty : plan.pattern.nonzeros = 0
    · simp only [if_pos hempty]
      rfl
    simp only [if_neg hempty]
    cases (call.problem.jacobian engine.schedule plan.bounds c.options.applyLoss
        c.options.threads).answer with
    | error e => rfl
    | ok J =>
      simp only [Outcome.answer_after, estimateValues]
      by_cases hshape : J.pattern.numRows = 0 ∨ J.pattern.numCols = 0
      · simp only [if_pos hshape]
        rfl
      simp only [if_neg hshape]
      cases hvalues : (values engine c.options J plan.pattern).answer with
      | error e =>
        simp only [hvalues]
        rfl
      | ok found =>
        cases found with
        | none =>
          simp only [hvalues]
          rfl
        | some raw =>
          simp only
          cases plan.pattern.transposePermutation with
          | error e => rfl
          | ok transposed => rfl

/-- **The fields belong together.** After any calls the fields are those of the covariance, and
where the last call was planned they name its problem. -/
theorem after_eq (engine : Engine α) (options : Options α) (calls : List (Call ι α)) :
    ∃ name, after engine options calls = ofCovariance name (Covariance.after engine options calls) ∧
      ∀ earlier last, calls = earlier ++ [last] → last.Planned → name = some last.name := by
  induction calls using List.reverseRecOn with
  | nil => exact ⟨none, rfl, fun earlier last h => by simp at h⟩
  | append_singleton calls call ih =>
    obtain ⟨name, hfields, -⟩ := ih
    have hconcat : after engine options (calls ++ [call]) =
        ((after engine options calls).compute engine options call).2 := by
      simp only [after, List.foldl_append, List.foldl_cons, List.foldl_nil]
    have hstep := compute_ofCovariance engine name (Covariance.after engine options calls) call
    rw [options_after] at hstep
    refine ⟨_, by rw [hconcat, hfields, hstep, after_concat], ?_⟩
    intro earlier last heq hplanned
    obtain ⟨-, heq⟩ := List.append_inj' heq rfl
    cases heq
    obtain ⟨plan, hplan⟩ := hplanned
    rw [hplan]
    rfl

end Computing

section Asking

variable {ι α β : Type}

/-- Use the fields, if the last call was answered with `true`. They are insisted on: there is no
reply at all where one of them is missing. -/
def query (f : Fields ι α) (g : ι → Plan → Compressed α → Reply (Option β)) :
    Option (Reply (Option β)) :=
  if f.computed then
    if f.valid then
      match f.problem, f.plan, f.matrix with
      | some name, some plan, some matrix => some (g name plan matrix)
      | _, _, _ => none
    else some (reply (.ok none) [.unavailable])
  else some (reply (.error .notComputed))

/-- The fields of a covariance are all there where they are used. -/
theorem query_ofCovariance {name : Option ι} {c : Covariance α}
    {g : ι → Plan → Compressed α → Reply (Option β)} {g' : Plan → Array α → Reply (Option β)}
    (h : c.estimate.matrix?.isSome = true →
      ∃ n, name = some n ∧ ∀ plan values, g n plan ⟨plan.pattern, values⟩ = g' plan values) :
    (ofCovariance name c).query g = some (c.whenReady g') := by
  unfold query whenReady ofCovariance
  cases hestimate : c.estimate with
  | absent => cases c.computed <;> rfl
  | failed plan => cases c.computed <;> rfl
  | ready plan values =>
    obtain ⟨n, rfl, hg⟩ := h (by rw [hestimate]; rfl)
    cases c.computed with
    | false => rfl
    | true => exact congrArg some (hg plan values)

variable [Zero α] [One α] [Add α] [Mul α] [Div α] [NatCast α]

/-- The covariance of two blocks of the problem of the last call, which is found by its name. -/
def block? (f : Fields ι α) (problems : ι → Problem α) (coordinates : Coordinates) (a b : Atom) :
    Option (Reply (Option (Dense α))) :=
  f.query fun name plan matrix => blockIn plan matrix.values (problems name) coordinates a b

/-- The joint covariance of some blocks of the problem of the last call. -/
def matrix? (f : Fields ι α) (engine : Engine α) (options : Options α) (problems : ι → Problem α)
    (coordinates : Coordinates) (handles : List Atom) : Option (Reply (Option (Dense α))) :=
  f.query fun name plan matrix => matrixIn engine.schedule options.threads plan matrix.values
    (problems name) coordinates handles

end Asking

end Fields

namespace Covariance

variable {ι α : Type} [Zero α] [One α] [Add α] [Sub α] [Neg α] [Mul α] [Div α] [NatCast α]
  [BEq α] [LT α] [DecidableLT α] [LE α] [DecidableLE α] [Elementary α]

/-- Only a call that was planned is answered with `true`. -/
theorem planned_of_answer {engine : Engine α} {c : Covariance α} {call : Call ι α}
    (h : (compute engine c call.problem call.request).answer = .ok true) : call.Planned := by
  obtain ⟨plan, -, hplan, -⟩ := exists_of_compute h
  exact ⟨plan, hplan⟩

/-- The fields answer every query as the covariance does, about the problem of the last call. -/
theorem query_after {engine : Engine α} {options : Options α} {calls : List (Call ι α)}
    {problems : ι → Problem α} {problem : Problem α}
    (h : ∀ earlier last, calls = earlier ++ [last] → problems last.name = problem)
    {β : Type} (g : Problem α → Plan → Array α → Reply (Option β)) :
    (Fields.after engine options calls).query
        (fun name plan matrix => g (problems name) plan matrix.values) =
      some ((after engine options calls).whenReady (g problem)) := by
  obtain ⟨name, hfields, hname⟩ := Fields.after_eq engine options calls
  rw [hfields]
  refine Fields.query_ofCovariance fun hready => ?_
  rcases List.eq_nil_or_concat' calls with rfl | ⟨earlier, last, rfl⟩
  · cases hready
  · rw [isSome_matrix_after] at hready
    refine ⟨last.name, hname earlier last rfl (planned_of_answer hready), fun plan values => ?_⟩
    rw [h earlier last rfl]

/-- **A sound history.** Take a covariance after any calls, each for a problem as it is at that
time.
* Where no call was planned, every query complains that nothing was computed; after a planned call
  none does, unless a manifold that a caller made answers so itself.
* The last call is answered as if it were the first one. Where that answer is not `true` and some
  call was planned, there is no matrix and all queries reply with nothing; where it is `true`, the
  covariance is the one that the last call alone would have made.
* There are no columns exactly where no call was made or the last one was not planned.
* The fields that are written on the way through the calls are those of the covariance. A query that
  insists on finding them finds them, and replies from the problem that the last call was for, as it
  is when the query is made. -/
theorem sound_history (engine : Engine α) (options : Options α) (calls : List (Call ι α)) :
    ((∀ call ∈ calls, ¬ call.Planned) → ∀ problem,
      (after engine options calls).EveryQuery engine problem fun _ answered =>
        answered = reply (.error .notComputed)) ∧
    ((∃ call ∈ calls, call.Planned) → ∀ problem,
      (after engine options calls).EveryQuery engine problem fun coordinates answered =>
        answered.answer = .error .notComputed → coordinates = .ambient ∧ problem.Complains) ∧
    (∀ earlier last, calls = earlier ++ [last] →
      (compute engine (after engine options earlier) last.problem last.request).answer =
        (compute engine (ofOptions options) last.problem last.request).answer ∧
      ((Fields.after engine options earlier).compute engine options last).1 =
        (compute engine (ofOptions options) last.problem last.request).answer ∧
      ((∃ call ∈ calls, call.Planned) →
        (compute engine (ofOptions options) last.problem last.request).answer ≠ .ok true →
          (after engine options calls).estimate.matrix? = none ∧ ∀ problem,
            (after engine options calls).EveryQuery engine problem fun _ answered =>
              answered = reply (.ok none) [.unavailable]) ∧
      ((compute engine (ofOptions options) last.problem last.request).answer = .ok true →
        after engine options calls =
          (compute engine (ofOptions options) last.problem last.request).state)) ∧
    ((after engine options calls).estimate.bounds? = none ↔
      calls = [] ∨ ∃ earlier last, calls = earlier ++ [last] ∧ ¬ last.Planned) ∧
    (∃ name, Fields.after engine options calls =
      Fields.ofCovariance name (after engine options calls)) ∧
    ∀ (problems : ι → Problem α) (problem : Problem α),
      (∀ earlier last, calls = earlier ++ [last] → problems last.name = problem) →
      ∀ coordinates,
        (∀ a b, (Fields.after engine options calls).block? problems coordinates a b =
          some ((after engine options calls).block problem coordinates a b)) ∧
        ∀ handles, (Fields.after engine options calls).matrix? engine options problems coordinates
          handles = some ((after engine options calls).matrix engine problem coordinates handles) := by
  refine ⟨fun hnone problem => ?_, fun hsome problem => ?_, ?_, bounds_after calls, ?_, ?_⟩
  · have hcomputed : (after engine options calls).computed = false := by
      rw [← Bool.not_eq_true, computed_after]
      rintro ⟨call, hcall, hplanned⟩
      exact hnone call hcall hplanned
    exact everyQuery_of_not_computed hcomputed problem
  · exact everyQuery_of_computed ((computed_after calls).mpr hsome) problem
  · rintro earlier last rfl
    have hanswer := answer_last engine options earlier last
    refine ⟨hanswer, ?_, fun hsome hfailed => ?_, fun htrue => ?_⟩
    · obtain ⟨name, hfields, -⟩ := Fields.after_eq engine options earlier
      have hstep := Fields.compute_ofCovariance engine name (after engine options earlier) last
      rw [options_after] at hstep
      rw [hfields, hstep, hanswer]
    · have hmatrix : (after engine options (earlier ++ [last])).estimate.matrix? = none := by
        rw [← Option.not_isSome_iff_eq_none, isSome_matrix_after, hanswer]
        exact hfailed
      exact ⟨hmatrix, everyQuery_of_matrix_eq_none ((computed_after _).mpr hsome) hmatrix⟩
    · exact after_concat_of_planned earlier (planned_of_answer htrue)
  · exact (Fields.after_eq engine options calls).imp fun name h => h.1
  · intro problems problem h coordinates
    refine ⟨fun a b => ?_, fun handles => ?_⟩
    · exact query_after h fun problem plan values => blockIn plan values problem coordinates a b
    · have hoptions : (after engine options calls).options = options := options_after calls
      unfold Fields.matrix? matrix
      rw [hoptions]
      exact query_after h fun problem plan values =>
        matrixIn engine.schedule options.threads plan values problem coordinates handles

/-! ## A refused call between two equal ones -/

/-- A call for a block of two parameters with two residuals. -/
def squareCall : Call Unit ℚ := ⟨(), oneBlock 2 #[2, 0, 0, 1], itself⟩

/-- A call for a block of the empty problem. -/
def lostCall : Call Unit ℚ := ⟨(), .empty, itself⟩

theorem not_planned_lostCall : ¬ lostCall.Planned :=
  Call.not_planned_iff.mpr ⟨.unknownBlock (.integer 0), by cbv⟩

/-- The refused call leaves neither columns nor a matrix, and queries reply with nothing; after the
third call the covariance is as after the first. -/
theorem sound_history_square :
    (after Engine.exact (plain .sparseQr).options [squareCall, lostCall]).estimate.bounds? = none ∧
      ((after Engine.exact (plain .sparseQr).options [squareCall, lostCall]).block .empty .tangent
        (.integer 0) (.integer 0)).answer = .ok none ∧
      after Engine.exact (plain .sparseQr).options [squareCall, lostCall, squareCall] =
        after Engine.exact (plain .sparseQr).options [squareCall] := by
  have hplanned : squareCall.Planned := ⟨oneBlockPlan, planOf_oneBlock 2 _⟩
  obtain ⟨-, -, hlost, hbounds, -, -⟩ :=
    sound_history Engine.exact (plain .sparseQr).options [squareCall, lostCall]
  obtain ⟨-, -, hfailed, -⟩ := hlost [squareCall] lostCall rfl
  obtain ⟨-, -, hlast, -⟩ :=
    sound_history Engine.exact (plain .sparseQr).options [squareCall, lostCall, squareCall]
  refine ⟨hbounds.mpr (Or.inr ⟨[squareCall], lostCall, rfl, not_planned_lostCall⟩), ?_, ?_⟩
  · have hnone := ((hfailed ⟨squareCall, List.mem_cons_self, hplanned⟩ fun htrue =>
      not_planned_lostCall (planned_of_answer htrue)).2 .empty .tangent).1 (.integer 0) (.integer 0)
    rw [hnone]
    rfl
  · exact (hlast [squareCall, lostCall] squareCall rfl).2.2.2 (answer_square .sparseQr)

end Covariance

end LeastSquares
