/-
LeastSquares.Session — a problem being edited, and what is computed of it.

A session holds one current problem, at most one covariance and at most one plan. The
covariance goes on looking at the problem that it was computed for: as long as that is the
current one it sees every change, and when another problem becomes current it keeps the one it
had.
-/
import LeastSquares.Covariance.Query
import LeastSquares.Preconditioner

namespace LeastSquares

/-- The current problem, and what was made beside it. -/
structure Session (α : Type) where
  problem : Problem α := .empty
  covariance : Option (Covariance α) := none
  /-- The problem that the covariance looks at, once it is not the current one any more. -/
  former : Option (Problem α) := none
  plan : Option Plan := none

namespace Session

variable {α β : Type}

/-- Operate on the current problem. -/
def onProblem (s : Session α) (f : Problem α → Outcome (Problem α) β) : Outcome (Session α) β :=
  (f s.problem).mapState fun p => { s with problem := p }

/-- Change the current problem, unless the change is refused. -/
def edit (s : Session α) (f : Problem α → Except Fault (Problem α)) :
    Outcome (Session α) Unit :=
  match f s.problem with
  | .ok p => { answer := .ok (), state := { s with problem := p } }
  | .error e => { answer := .error e, state := s }

/-- Make an empty problem current. -/
def renew (s : Session α) : Session α :=
  { s with problem := .empty, former := some (s.former.getD s.problem) }

/-- The problem that the covariance looks at. -/
def subject (s : Session α) : Problem α := s.former.getD s.problem

/-- Plan a request for the current problem; a refused one keeps the old plan. -/
def makePlan (s : Session α) (request : List Item) : Outcome (Session α) Plan :=
  let made := Plan.make s.problem request
  match made.answer with
  | .ok plan => { made with answer := .ok plan, state := { s with plan := some plan } }
  | .error e => { made with answer := .error e, state := s }

/-- The present plan. -/
def planned (s : Session α) : Except Fault Plan :=
  match s.plan with
  | some plan => .ok plan
  | none => .error .absent

/-- Start a covariance with given options; refused options keep the old one. -/
def configure (s : Session α) (options : Except Fault (Options α)) : Outcome (Session α) Unit :=
  match options with
  | .ok o =>
    { answer := .ok ()
      state := { s with covariance := some (.ofOptions o), former := none } }
  | .error e => { answer := .error e, state := s }

/-- The present covariance. -/
def estimated (s : Session α) : Except Fault (Covariance α) :=
  match s.covariance with
  | some c => .ok c
  | none => .error .absent

/-- The columns and the values of the last computation. -/
def stored (s : Session α) : Except Fault (Option (Compressed α) × Option ColumnBounds) :=
  s.estimated.map fun c => (c.estimate.matrix?, c.estimate.bounds?)

section Numerics

variable [Zero α] [One α] [Add α] [Sub α] [Neg α] [Mul α] [Div α] [NatCast α]
  [BEq α] [LT α] [DecidableLT α] [LE α] [DecidableLE α] [Elementary α]

/-- Compute the covariance of the current problem. -/
def compute (engine : Engine α) (s : Session α) (request : List Item) :
    Outcome (Session α) Bool :=
  match s.covariance with
  | none => { answer := .error .absent, state := s }
  | some c =>
    (c.compute engine s.problem request).mapState fun c =>
      { s with covariance := some c, former := none }

/-- A block of the covariance. -/
def block (s : Session α) (coordinates : Covariance.Coordinates) (a b : Atom) :
    Reply (Option (Dense α)) :=
  match s.covariance with
  | none => { answer := .error .absent, state := () }
  | some c => c.block s.subject coordinates a b

/-- A joint matrix of the covariance. -/
def matrix (engine : Engine α) (s : Session α) (coordinates : Covariance.Coordinates)
    (handles : List Atom) : Reply (Option (Dense α)) :=
  match s.covariance with
  | none => { answer := .error .absent, state := () }
  | some c => c.matrix engine s.subject coordinates handles

/-- The stored covariance, used as a preconditioner. -/
def applyStored (engine : Engine α) (s : Session α) (threads : Int) (x : Array α) :
    Except Fault (Array α) :=
  match s.covariance with
  | none => .error .absent
  | some c => Preconditioner.applyMatrix? engine.schedule threads c.estimate.matrix? x

end Numerics

end Session

end LeastSquares
