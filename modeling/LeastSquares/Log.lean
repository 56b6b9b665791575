/-
LeastSquares.Log — what an operation tells beside its answer.

An operation that can fail without a fault (a covariance that is not there, a block that was
not requested) says so in its log; so does one that reports its progress. The log is a value:
an `Outcome` holds the answer or the fault, the state that the operation leaves, and its lines
in order.
-/
import LeastSquares.Fault

namespace LeastSquares

/-- One log line. -/
inductive Line where
  | planned (pairs columns nonzeros : Nat)
  | evaluated (blocks rows columns nonzeros : Nat)
  | nothingFree
  | kept (rank directions : Nat)
  | emptyJacobian (rows columns : Nat)
  /-- A direction that must be kept has a singular value too small beside the largest. -/
  | nearRankDeficient (ratio limit : String)
  | libraryMissing
  /-- A library refuses to factor the normal equations. -/
  | notFactored (library reason : String)
  /-- The smallest pivot of a library is too small beside the largest. -/
  | smallPivot (library ratio limit : String)
  | unavailable
  | notRequested (a b : Atom)
  | singularBlock (block : Nat)

/-- How serious a line is. -/
inductive Severity where
  | info
  | error
  deriving DecidableEq, Repr

namespace Line

/-- Reports of progress are information; the others say why an answer is missing. -/
def severity : Line → Severity
  | .planned .. | .evaluated .. | .nothingFree | .kept .. => .info
  | _ => .error

/-- Is this the line of a failure? -/
def isError (l : Line) : Bool := l.severity = .error

/-- The wording of a line. -/
def text : Line → String
  | .planned pairs columns nonzeros =>
    "Planned covariance sparsity: " ++ toString pairs ++ " requested pairs, " ++
      toString columns ++ " free columns, " ++ toString nonzeros ++ " non-zeros"
  | .evaluated blocks rows columns nonzeros =>
    "Evaluated Jacobian with " ++ toString blocks ++ " residual blocks: " ++ toString rows ++
      " rows, " ++ toString columns ++ " columns, " ++ toString nonzeros ++ " non-zeros"
  | .nothingFree => "No free covariance blocks were requested"
  | .kept rank directions =>
    "dense_svd kept " ++ toString rank ++ " of " ++ toString directions ++ " singular directions"
  | .emptyJacobian rows columns =>
    "Covariance computation failed: Jacobian with shape (" ++ toString rows ++ ", " ++
      toString columns ++ ") is empty"
  | .nearRankDeficient ratio limit =>
    "Covariance computation failed with dense_svd: the Jacobian is near rank deficient " ++
      "(singular value ratio " ++ ratio ++ " < " ++ limit ++
      "). Set null_space_rank to compute a pseudo-inverse."
  | .libraryMissing =>
    "Covariance computation failed: sparse_qr with suite_sparse requires scikit-sparse, " ++
      "which is not installed"
  | .notFactored library reason =>
    "Covariance computation failed with sparse_qr/" ++ library ++
      ": the Jacobian is rank deficient (" ++ reason ++ ")"
  | .smallPivot library ratio limit =>
    "Covariance computation failed with sparse_qr/" ++ library ++
      ": the Jacobian is rank deficient (pivot ratio " ++ ratio ++ " < " ++ limit ++ ")"
  | .unavailable => "Covariance is unavailable: the last compute() failed"
  | .notRequested a b =>
    "Unable to find covariance block for parameter blocks (" ++ a.printed ++ ", " ++
      b.printed ++ "); it was not requested in compute()"
  | .singularBlock block =>
    "Block Jacobi preconditioner: block " ++ toString block ++ " is singular"

end Line

/-- What an operation leaves behind. -/
structure Outcome (σ β : Type) where
  answer : Except Fault β
  state : σ
  log : List Line := []

/-- The outcome of a query, which leaves no state. -/
abbrev Reply (β : Type) := Outcome Unit β

namespace Outcome

variable {σ τ β γ : Type}

/-- The same outcome seen from a larger state. -/
def mapState (f : σ → τ) (o : Outcome σ β) : Outcome τ β :=
  { answer := o.answer, state := f o.state, log := o.log }

@[simp] theorem answer_mapState (f : σ → τ) (o : Outcome σ β) :
    (o.mapState f).answer = o.answer := rfl

@[simp] theorem state_mapState (f : σ → τ) (o : Outcome σ β) :
    (o.mapState f).state = f o.state := rfl

@[simp] theorem log_mapState (f : σ → τ) (o : Outcome σ β) : (o.mapState f).log = o.log := rfl

/-- The same outcome with its answer read in another way. -/
def mapAnswer (f : β → γ) (o : Outcome σ β) : Outcome σ γ :=
  { answer := o.answer.map f, state := o.state, log := o.log }

/-- An outcome that follows earlier lines. -/
def after (lines : List Line) (o : Outcome σ β) : Outcome σ β :=
  { o with log := lines ++ o.log }

@[simp] theorem answer_after (lines : List Line) (o : Outcome σ β) :
    (o.after lines).answer = o.answer := rfl

@[simp] theorem log_after (lines : List Line) (o : Outcome σ β) :
    (o.after lines).log = lines ++ o.log := rfl

/-- How many lines tell of a failure. -/
def errorCount (o : Outcome σ β) : Nat := o.log.countP Line.isError

end Outcome

end LeastSquares
