/-
LeastSquares.Proofs.Independence — a block does not depend on what else was requested.

Two requests on one problem have different patterns: rows of different lengths, other rows to solve
for, cut into other chunks, and blocks at other positions. What they have in common is the Jacobian,
which is evaluated over the columns of the problem and not over those of a request. So everything
that an algorithm finds is found by a function of row and column that is there before any pattern is
(`entries`), and a pattern only tells where this function is read (`answer_values`). A solver that
treats each right side on its own is what makes this true of factorisations; a solver that does not
would find other numbers for other requests.
-/
import LeastSquares.Proofs.Inversion
import LeastSquares.Proofs.Symmetry
import LeastSquares.Proofs.Threads

namespace LeastSquares.Covariance

/-! ## What the algorithms find -/

section Finding

variable {α : Type} [Zero α] [One α] [Add α] [Neg α] [Mul α] [Div α] [NatCast α] [BEq α] [LT α]
  [DecidableLT α] [LE α] [DecidableLE α] [Elementary α] {engine : Engine α} {options : Options α}
  {J : Compressed α} {p : Pattern}

/-- The entries that the chosen algorithm finds for a Jacobian, wherever they are read. -/
def entries (engine : Engine α) (options : Options α) (J : Compressed α) :
    Except Fault (Option (Nat → Nat → α)) :=
  match options.algorithm with
  | .denseSvd =>
    match engine.singular J.dense with
    | none => .error .noConvergence
    | some s =>
      .ok ((Truncation.weights options s.values).map fun weights =>
        Truncation.inverse weights.toArray s.right)
  | .sparseQr =>
    match factorNormal engine options.library J with
    | .error _ => .ok none
    | .ok f =>
      if Selective.wellConditioned options.minReciprocalCondition f.pivots then
        .ok (some (Selective.solved f.solve J.pattern.numCols))
      else .ok none

/-- The values along a pattern are the entries at its positions. -/
theorem answer_values (columnwise : engine.Columnwise) (r : p.Regular)
    (hp : p.numRows = J.pattern.numCols) :
    (values engine options J p).answer =
      (entries engine options J).map (Option.map (Truncation.gather · p)) := by
  unfold values entries
  cases options.algorithm with
  | denseSvd =>
    simp only [valuesBySvd]
    cases engine.singular J.dense with
    | none => rfl
    | some s =>
      dsimp only
      cases Truncation.weights options s.values <;> rfl
  | sparseQr =>
    simp only [valuesByFactor]
    cases hfactor : factorNormal engine options.library J with
    | error line => rfl
    | ok f =>
      dsimp only
      rw [← hp, Selective.invert_of_columnwise (columnwise _ J f hfactor) r]
      split <;> rfl

/-- The entries of an estimate: those that were found, each averaged with its transposed entry. -/
def estimateEntries (engine : Engine α) (options : Options α) (J : Compressed α) :
    Except Fault (Option (Nat → Nat → α)) :=
  if J.pattern.numRows = 0 ∨ J.pattern.numCols = 0 then .ok none
  else (entries engine options J).map (Option.map fun f i j => half * (f i j + f j i))

/-- An estimate along a pattern holds its entries at the positions of the pattern. -/
theorem answer_estimateValues_eq (columnwise : engine.Columnwise) (r : p.Regular)
    (hp : p.numRows = J.pattern.numCols) :
    (estimateValues engine options J p).answer =
      (estimateEntries engine options J).map (Option.map (Truncation.gather · p)) := by
  rw [estimateValues_eq r, answer_values columnwise r hp, estimateEntries]
  split
  · rfl
  · cases entries engine options J with
    | error e => rfl
    | ok found =>
      cases found with
      | none => rfl
      | some f => simp only [Except.map, Option.map_some, average_gather f r]

end Finding

/-! ## Requests -/

section Requests

variable {α : Type} {problem : Problem α} {request : List Item} {plan : Plan}

/-- Does a request ask for a pair of blocks with columns? -/
def AsksForEntries (problem : Problem α) (request : List Item) : Prop :=
  ∃ i j, Requested request i j ∧ 0 < (ColumnBounds.make problem true).widthAt i ∧
    0 < (ColumnBounds.make problem true).widthAt j

theorem AsksForEntries.nonzeros_ne_zero (h : AsksForEntries problem request)
    (hplan : planOf problem request = .ok plan) : plan.pattern.nonzeros ≠ 0 := by
  obtain ⟨i, j, hrequested, hi, hj⟩ := h
  rw [← bounds_of_planOf hplan] at hi hj
  exact nonzeros_ne_zero_of_requested hplan hrequested hi hj

theorem requested_comm {i j : Nat} : Requested request i j ↔ Requested request j i :=
  exists_congr fun _ => and_congr_right fun _ => or_comm

variable [Zero α] [One α] [Add α] [Mul α] [Div α] [NatCast α]

/-- Two plans of one problem that both cover a pair, or neither, answer the same about it. -/
theorem answerAt_congr (f : Nat → Nat → α) {request' : List Item} {plan' : Plan}
    (h : planOf problem request = .ok plan) (h' : planOf problem request' = .ok plan')
    (q : Problem α) (coordinates : Coordinates) {i j : Nat}
    (hsame : Requested request i j ↔ Requested request' i j) :
    answerAt f plan' q coordinates i j = answerAt f plan q coordinates i j := by
  have hbounds : plan'.bounds = plan.bounds :=
    (bounds_of_planOf h').trans (bounds_of_planOf h).symm
  unfold answerAt
  rw [hbounds]
  split
  · rfl
  · rename_i hwidths
    have hi : 0 < plan.bounds.widthAt i := by omega
    have hj : 0 < plan.bounds.widthAt j := by omega
    have hcovers : plan'.Covers i j ↔ plan.Covers i j := by
      rw [covers_iff_requested h hi hj, hsame]
      rw [← hbounds] at hi hj
      exact covers_iff_requested h' hi hj
    simp only [hcovers]

end Requests

/-! ## Computations -/

section Computing

variable {α : Type} [Zero α] [One α] [Add α] [Sub α] [Neg α] [Mul α] [Div α] [NatCast α] [BEq α]
  [LT α] [DecidableLT α] [LE α] [DecidableLE α] [Elementary α] {engine : Engine α}
  {options : Options α} {c c' : Covariance α} {problem : Problem α} {request request' : List Item}
  {plan plan' : Plan}

/-- The entries that are found on a problem. No request takes part in it. -/
def found (engine : Engine α) (options : Options α) (problem : Problem α) :
    Except Fault (Option (Nat → Nat → α)) :=
  (problem.jacobian engine.schedule (ColumnBounds.make problem true) options.applyLoss
    options.threads).answer.bind (estimateEntries engine options)

/-- A request that asks for entries is filled with those that are found on its problem. -/
theorem answer_fillPlan_eq_found (columnwise : engine.Columnwise)
    (hplan : planOf problem request = .ok plan) (hasks : AsksForEntries problem request) :
    (fillPlan engine options problem plan).answer =
      (found engine options problem).map (Option.map (Truncation.gather · plan.pattern)) := by
  rw [answer_fillPlan_eq_bind engine options problem (hasks.nonzeros_ne_zero hplan), found,
    ← bounds_of_planOf hplan]
  cases hJ : (problem.jacobian engine.schedule plan.bounds options.applyLoss
      options.threads).answer with
  | error e => rfl
  | ok J =>
    obtain ⟨r, hp, -, -⟩ := shapes_of_jacobian hplan hJ
    exact answer_estimateValues_eq columnwise r hp

/-- What is answered about two positions after a computation that found something, or did not. -/
def answerFrom (found : Except Fault (Option (Nat → Nat → α))) (plan : Plan) (q : Problem α)
    (coordinates : Coordinates) (i j : Nat) : Except Fault (Option (Dense α)) :=
  match found with
  | .ok (some f) => answerAt f plan q coordinates i j
  | _ => .ok none

/-- A computation and all that is answered after it are decided by what is found on the problem. -/
theorem compute_eq_found (columnwise : engine.Columnwise) (c : Covariance α)
    (hplan : planOf problem request = .ok plan) (hasks : AsksForEntries problem request) :
    (compute engine c problem request).answer =
        (found engine c.options problem).map Option.isSome ∧
      ∀ (q : Problem α) coordinates a b i j, q.position a = .ok i → q.position b = .ok j →
        i < problem.blocks.size → j < problem.blocks.size →
        ((compute engine c problem request).state.block q coordinates a b).answer =
          answerFrom (found engine c.options problem) plan q coordinates i j := by
  obtain ⟨hanswer, hstate⟩ := compute_eq hplan engine c
  rw [answer_fillPlan_eq_found columnwise hplan hasks] at hanswer hstate
  rw [hanswer, hstate]
  have hsize : plan.bounds.ranges.size = problem.blocks.size := by
    rw [bounds_of_planOf hplan, ColumnBounds.size_ranges_make]
  cases found engine c.options problem with
  | error e => exact ⟨rfl, fun q coordinates a b i j ha hb hi hj => rfl⟩
  | ok found =>
    cases found with
    | none => exact ⟨rfl, fun q coordinates a b i j ha hb hi hj => rfl⟩
    | some f =>
      refine ⟨rfl, fun q coordinates a b i j ha hb hi hj => ?_⟩
      rw [← hsize] at hi hj
      exact answer_block_holding f hplan c coordinates ha hb hi hj

/-- **Other requests, the same block.** Take two requests on one problem that are both planned and
both ask for some entry. With the same options, one computation succeeds exactly if the other one
does, and they fail in the same way. After both of them, every query about two blocks that both
requests name together, in whatever order, is answered the same, in either order of the two and in
either coordinates; so is one about two blocks that neither request names together. A pair with
columns that both name has a block then. Of the engine it is assumed that its solver treats each
right side on its own. -/
theorem block_independent (columnwise : engine.Columnwise) (hoptions : c'.options = c.options)
    (hplan : planOf problem request = .ok plan) (hplan' : planOf problem request' = .ok plan')
    (hasks : AsksForEntries problem request) (hasks' : AsksForEntries problem request') :
    let one := compute engine c problem request
    let other := compute engine c' problem request'
    other.answer = one.answer ∧
      ∀ i j, i < problem.blocks.size → j < problem.blocks.size →
        (Requested request i j ↔ Requested request' i j) →
        (∀ (later : Problem α) coordinates a b, later.position a = .ok i →
          later.position b = .ok j →
          (other.state.block later coordinates a b).answer =
            (one.state.block later coordinates a b).answer ∧
          (other.state.block later coordinates b a).answer =
            (one.state.block later coordinates b a).answer) ∧
        ∀ a b, problem.position a = .ok i → problem.position b = .ok j → one.answer = .ok true →
          Requested request i j → 0 < (ColumnBounds.make problem true).widthAt i →
          0 < (ColumnBounds.make problem true).widthAt j →
          ∃ B, (one.state.block problem .tangent a b).answer = .ok (some B) ∧
            (other.state.block problem .tangent a b).answer = .ok (some B) := by
  intro one other
  obtain ⟨hanswer, hblock⟩ := compute_eq_found columnwise c hplan hasks
  obtain ⟨hanswer', hblock'⟩ := compute_eq_found columnwise c' hplan' hasks'
  rw [hoptions] at hanswer' hblock'
  -- both computations answer from the same entries, each where its plan covers the pair
  have hagree : ∀ (later : Problem α) coordinates a b i j, later.position a = .ok i →
      later.position b = .ok j → i < problem.blocks.size → j < problem.blocks.size →
      (Requested request i j ↔ Requested request' i j) →
      (other.state.block later coordinates a b).answer =
        (one.state.block later coordinates a b).answer := by
    intro later coordinates a b i j ha hb hi hj hsame
    rw [hblock later coordinates a b i j ha hb hi hj, hblock' later coordinates a b i j ha hb hi hj]
    unfold answerFrom
    split
    · exact answerAt_congr _ hplan hplan' later coordinates hsame
    · rfl
  refine ⟨hanswer'.trans hanswer.symm, fun i j hi hj hsame => ⟨?_, ?_⟩⟩
  · intro later coordinates a b ha hb
    have hsame' : Requested request j i ↔ Requested request' j i :=
      requested_comm.trans (hsame.trans requested_comm)
    exact ⟨hagree later coordinates a b i j ha hb hi hj hsame,
      hagree later coordinates b a j i hb ha hj hi hsame'⟩
  · intro a b ha hb htrue hrequested hwidth hwidth'
    obtain ⟨f, hf⟩ := eq_some_of_map_isSome (hanswer.symm.trans htrue)
    rw [hagree problem .tangent a b i j ha hb hi hj hsame,
      hblock problem .tangent a b i j ha hb hi hj, hf]
    rw [← bounds_of_planOf hplan] at hwidth hwidth'
    have hblock : answerFrom (.ok (some f)) plan problem .tangent i j =
        .ok (some (blockOf f plan.bounds i j)) :=
      answerAt_of_requested f hplan problem hrequested hwidth hwidth'
    exact ⟨_, hblock, hblock⟩

end Computing

/-- Two blocks, once by themselves and in exchange, and once together with each of them alone. -/
theorem block_independent_sheared :
    (compute Engine.exact (plain .sparseQr) sheared
        [.atom (.integer 0), .atom (.integer 1)]).answer = .ok true ∧
      ∃ B,
        ((compute Engine.exact (plain .sparseQr) sheared shearedRequest).state.block sheared
          .tangent (.integer 0) (.integer 1)).answer = .ok (some B) ∧
        ((compute Engine.exact (plain .sparseQr) sheared
          [.atom (.integer 0), .atom (.integer 1)]).state.block sheared
          .tangent (.integer 0) (.integer 1)).answer = .ok (some B) := by
  have hpairs : Request.pairs shearedRequest = .ok [(1, 0)] := by cbv
  have hpairs' : Request.pairs [.atom (.integer 0), .atom (.integer 1)] =
      .ok [(0, 0), (0, 1), (1, 1)] := by cbv
  have hwidth : ∀ k, k < 2 → 0 < (ColumnBounds.make sheared true).widthAt k := by
    rw [bounds_sheared]
    decide
  have hplan : planOf sheared [.atom (.integer 0), .atom (.integer 1)] =
      .ok (Plan.ofPairs shearedBounds [(0, 0), (0, 1), (1, 1)]) :=
    planOf_eq hpairs' (by cbv) bounds_sheared check_sheared
  have hasks : AsksForEntries sheared shearedRequest :=
    ⟨1, 0, ⟨_, hpairs, Or.inl List.mem_cons_self⟩, hwidth 1 (by decide), hwidth 0 (by decide)⟩
  have hasks' : AsksForEntries sheared [.atom (.integer 0), .atom (.integer 1)] :=
    ⟨0, 0, ⟨_, hpairs', Or.inl List.mem_cons_self⟩, hwidth 0 (by decide), hwidth 0 (by decide)⟩
  have hrequested : Requested shearedRequest 0 1 := ⟨_, hpairs, Or.inr List.mem_cons_self⟩
  have hrequested' : Requested [.atom (.integer 0), .atom (.integer 1)] 0 1 :=
    ⟨_, hpairs', Or.inl (by decide)⟩
  have hoptions : (plain .sparseQr).options = (plain .sparseQr).options := rfl
  obtain ⟨hanswer, hblocks⟩ := block_independent Engine.columnwise_exact hoptions
    prepared_sheared.planned hplan hasks hasks'
  obtain ⟨-, hblock⟩ := hblocks 0 1 (by decide) (by decide) (iff_of_true hrequested hrequested')
  exact ⟨hanswer.trans answer_sheared, hblock (.integer 0) (.integer 1) (by cbv) (by cbv)
    answer_sheared hrequested (hwidth 0 (by decide)) (hwidth 1 (by decide))⟩

end LeastSquares.Covariance
