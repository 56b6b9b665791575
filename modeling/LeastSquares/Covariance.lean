/-
LeastSquares.Covariance — estimates of blocks of the inverse of `J'J`.

A covariance remembers its last computation: there is none, or it was planned and failed, or
it is there with a value for each planned position. `compute` forgets the last one before it
starts, so that a computation that is refused, or that breaks off, leaves nothing behind that
could be taken for its result.
-/
import LeastSquares.Covariance.Truncation
import LeastSquares.Covariance.Selective
import LeastSquares.Problem.Jacobian
import LeastSquares.Plan

namespace LeastSquares

/-- What the last computation left. -/
inductive Estimate (α : Type) where
  /-- No plan: nothing was computed, or the last request was refused. -/
  | absent
  /-- A plan without values: the last computation failed or broke off. -/
  | failed (plan : Plan)
  /-- A plan and its values. -/
  | ready (plan : Plan) (values : Array α)

namespace Estimate

variable {α : Type}

/-- The plan of the last computation. -/
def plan? : Estimate α → Option Plan
  | .absent => none
  | .failed plan => some plan
  | .ready plan _ => some plan

/-- The stored covariance over the free columns. -/
def matrix? : Estimate α → Option (Compressed α)
  | .ready plan values => some ⟨plan.pattern, values⟩
  | _ => none

/-- The columns of the last computation. -/
def bounds? (e : Estimate α) : Option ColumnBounds := e.plan?.map Plan.bounds

end Estimate

/-- The estimate of a covariance and how it is computed. -/
structure Covariance (α : Type) where
  options : Options α
  /-- Was any request accepted so far? -/
  computed : Bool := false
  estimate : Estimate α := .absent

namespace Covariance

variable {α : Type} [Zero α] [One α] [Add α] [Sub α] [Neg α] [Mul α] [Div α] [NatCast α]
  [BEq α] [LT α] [DecidableLT α] [LE α] [DecidableLE α] [Elementary α]

/-- A covariance of which nothing is known yet. -/
def ofOptions (options : Options α) : Covariance α := { options := options }

/-- The planned values by singular values of the Jacobian, if no direction that must be kept
is null. -/
def valuesBySvd (engine : Engine α) (options : Options α) (J : Dense α) (p : Pattern) :
    Reply (Option (Array α)) :=
  match engine.singular J with
  | none => { answer := .error .noConvergence, state := () }
  | some s =>
    match Truncation.weights options s.values with
    | none =>
      let line := Line.nearRankDeficient
        (engine.scientific (Truncation.firstNullRatio options s.values))
        (engine.scientific (Elementary.sqrt options.minReciprocalCondition))
      { answer := .ok none, state := (), log := [line] }
    | some weights =>
      { answer := .ok (some (Truncation.gather (Truncation.inverse weights.toArray s.right) p))
        state := ()
        log := [.kept (Truncation.rank weights) s.values.length] }

/-- The factorisation of the normal equations `J'J` by a library, or the line that says why there
is none. -/
def factorNormal (engine : Engine α) (library : Library) (J : Compressed α) :
    Except Line (Factorization α) :=
  match library with
  | .elimination =>
    match engine.factor J.normal with
    | none => .error (.notFactored library.name "Factor is exactly singular")
    | some f => .ok f
  | .cholesky =>
    match engine.cholesky with
    | none => .error .libraryMissing
    | some installed =>
      -- the rows of `J` are the columns of its transpose, and `J'J` is the transpose times `J`
      match installed.factor J with
      | .error reason => .error (.notFactored library.name reason)
      | .ok c => .ok (installed.factorization c)

/-- The planned values by a factorisation of the normal equations, if its pivots are far enough
from zero. -/
def valuesByFactor (engine : Engine α) (options : Options α) (J : Compressed α)
    (p : Pattern) : Reply (Option (Array α)) :=
  match factorNormal engine options.library J with
  | .error line => { answer := .ok none, state := (), log := [line] }
  | .ok f =>
    if Selective.wellConditioned options.minReciprocalCondition f.pivots then
      { answer := .ok (some (Selective.invert engine.schedule options.threads f.solve p))
        state := () }
    else
      let line := Line.smallPivot options.library.name
        (engine.scientific (Selective.pivotRatio f.pivots))
        (engine.scientific options.minReciprocalCondition)
      { answer := .ok none, state := (), log := [line] }

/-- The planned values by the chosen algorithm. -/
def values (engine : Engine α) (options : Options α) (J : Compressed α) (p : Pattern) :
    Reply (Option (Array α)) :=
  match options.algorithm with
  | .denseSvd => valuesBySvd engine options J.dense p
  | .sparseQr => valuesByFactor engine options J p

/-- Each value averaged with the value at the position of its transposed entry. -/
def average (values : Array α) (transposed : List Nat) : Array α :=
  (transposed.mapIdx fun k m => half * (values.getD k 0 + values.getD m 0)).toArray

/-- The values of a plan for a Jacobian, averaged so that those of transposed entries are equal. -/
def estimateValues (engine : Engine α) (options : Options α) (J : Compressed α)
    (p : Pattern) : Reply (Option (Array α)) :=
  if J.pattern.numRows = 0 ∨ J.pattern.numCols = 0 then
    { answer := .ok none
      state := ()
      log := [.emptyJacobian J.pattern.numRows J.pattern.numCols] }
  else
    let found := values engine options J p
    match found.answer with
    | .ok (some raw) =>
      { found with
        answer := p.transposePermutation.map fun transposed => some (average raw transposed) }
    | _ => found

/-- What computing a plan's values amounts to: the values, nothing, or a fault. -/
def fillPlan (engine : Engine α) (options : Options α) (problem : Problem α) (plan : Plan) :
    Reply (Option (Array α)) :=
  if plan.pattern.nonzeros = 0 then
    { answer := .ok (some #[]), state := (), log := [.nothingFree] }
  else
    let jacobian :=
      problem.jacobian engine.schedule plan.bounds options.applyLoss options.threads
    match jacobian.answer with
    | .error e => { answer := .error e, state := (), log := jacobian.log }
    | .ok J => (estimateValues engine options J plan.pattern).after jacobian.log

/-- Forget the last computation. -/
def forget (c : Covariance α) : Covariance α := { c with estimate := .absent }

/-- Compute the requested blocks; the answer says whether they are there. -/
def compute (engine : Engine α) (c : Covariance α) (problem : Problem α) (request : List Item) :
    Outcome (Covariance α) Bool :=
  match Request.pairs request with
  | .error e => { answer := .error e, state := c.forget }
  | .ok pairs =>
    let planned := Plan.make problem
      (pairs.map fun pair => .list [.integer pair.1, .integer pair.2])
    match planned.answer with
    | .error e => { answer := .error e, state := c.forget, log := planned.log }
    | .ok plan =>
      let filled := fillPlan engine c.options problem plan
      let outcome (answer : Except Fault Bool) (estimate : Estimate α) :
          Outcome (Covariance α) Bool :=
        { answer := answer
          state := { c with computed := true, estimate := estimate }
          log := planned.log ++ filled.log }
      match filled.answer with
      | .error e => outcome (.error e) (.failed plan)
      | .ok none => outcome (.ok false) (.failed plan)
      | .ok (some values) => outcome (.ok true) (.ready plan values)

end Covariance

end LeastSquares
