/-
LeastSquares.Cost — residual functions and their Jacobians.

A cost is a residual function of several parameter vectors, with a function that gives one
Jacobian for each of them and perhaps a robust loss. Jacobians come as tensors; evaluating a
cost compares their number of entries with what the residual and the parameter vector ask for,
and reads them as matrices. Costs are made of nested expressions, differentiated in forward
mode where no Jacobians are given.
-/
import LeastSquares.Loss.Correction
import LeastSquares.Expr

namespace LeastSquares

/-- A residual function with its Jacobians. -/
structure Cost (α : Type) where
  residual : List (Array α) → Except Fault (Array α)
  jacobians : List (Array α) → Except Fault (List (Tensor α))
  loss : Option (Loss α)

namespace Cost

section Evaluation

variable {α : Type} [Zero α]

/-- Read one Jacobian for each parameter vector, as long as there are both. -/
def readJacobians (residuals : Nat) :
    List (Array α) → List (Tensor α) → Except Fault (List (Dense α))
  | x :: xs, J :: Js =>
    if J.data.size = residuals * x.size then
      match readJacobians residuals xs Js with
      | .ok rest => .ok (Dense.ofArray residuals x.size J.data :: rest)
      | .error e => .error e
    else .error (.jacobianShape J.shape residuals x.size)
  | _, _ => .ok []

/-- The residual and the Jacobians at given parameter vectors. -/
def evaluate (cost : Cost α) (values : List (Array α)) :
    Except Fault (Array α × List (Dense α)) :=
  match cost.residual values with
  | .error e => .error e
  | .ok residual =>
    match cost.jacobians values with
    | .error e => .error e
    | .ok tensors =>
      match readJacobians residual.size values tensors with
      | .error e => .error e
      | .ok jacobians => .ok (residual, jacobians)

end Evaluation

section Expressions

variable {α : Type} [Zero α] [One α] [Add α] [Sub α] [Neg α] [Mul α] [Div α] [NatCast α]
  [Elementary α]

/-- Cut a matrix of derivatives by all entries into one matrix for each argument. -/
def cutColumns (J : Dense α) : Nat → List (Array α) → List (Tensor α)
  | _, [] => []
  | start, x :: xs => .ofDense (J.columns start x.size) :: cutColumns J (start + x.size) xs

/-- The Jacobians of a nested expression by each of its arguments. -/
def differentiate (f : Nested (Expr α)) (args : List (Array α)) : List (Tensor α) :=
  cutColumns (f.derivative (.seed args) (Arguments.count args)) 0 args

/-- A cost of nested expressions; without Jacobians, the residual is differentiated. -/
def ofExpressions (residual : Nested (Expr α)) (jacobians : Option (List (Nested (Expr α))))
    (loss : Option (Loss α)) : Cost α where
  residual args := .ok (residual.eval args).data
  jacobians args :=
    match jacobians with
    | some Js => .ok (Js.map fun J => J.eval args)
    | none => .ok (differentiate residual args)
  loss := loss

/-- How many entries `b + A₀ x₀ + A₁ x₁ + …` has: the common size of all terms, where those of
one entry stretch. -/
def linearSize? (A : List (Dense α)) (b : Array α) : Option Nat :=
  A.foldlM (fun n Ak => Stretch.common? n Ak.rows) b.size

/-- Entry `i` of `b + A₀ x₀ + A₁ x₁ + …`. -/
def linearEntry (A : List (Dense α)) (b : Array α) (i : Nat) : Expr α :=
  A.zipIdx.foldl
    (fun acc (Ak, k) =>
      .binary .add acc (Expr.linearFrom k (.const 0) 0 (Ak.row (Stretch.index Ak.rows i))))
    (.const (b.getD (Stretch.index b.size i) 0))

/-- The function `b + A₀ x₀ + A₁ x₁ + …` of arguments of given sizes. Matrices and arguments
belong together as long as there are both; the width of a matrix is the size of its argument. -/
def linearFunction (A : List (Dense α)) (b : Array α) (sizes : List Nat) :
    Except Fault (Nested (Expr α)) :=
  let A := A.take sizes.length
  match linearSize? A b with
  | none => .error .shapes
  | some n =>
    if (A.zip sizes).all fun (Ak, size) => Ak.cols == size then
      .ok (.list ((List.range n).map fun i => .leaf (linearEntry A b i)))
    else .error .shapes

/-- The cost `b + A₀ x₀ + A₁ x₁ + …`; an argument without a matrix has no part in it. -/
def linear (A : List (Dense α)) (b : Array α) (jacobians : Option (List (Nested (Expr α))))
    (loss : Option (Loss α)) : Cost α where
  residual args :=
    (linearFunction A b (args.map Array.size)).map fun f => (f.eval args).data
  jacobians args :=
    match jacobians with
    | some Js => .ok (Js.map fun J => J.eval args)
    | none => (linearFunction A b (args.map Array.size)).map fun f => differentiate f args
  loss := loss

end Expressions

end Cost

end LeastSquares
