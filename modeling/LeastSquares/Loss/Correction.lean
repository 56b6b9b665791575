/-
LeastSquares.Loss.Correction — Jacobians that carry the curvature of a robust loss.

With `s` the squared norm of the residual `r`, the corrected Jacobian is
`sqrt slope * (J - alpha / s * r r' J)` where `alpha = 1 - sqrt (1 + 2 * s * curvature / slope)`.
Where the curvature is not positive, or the residual is zero, only the factor `sqrt slope`
is applied. A slope of zero is refused where it would be divided by.
-/
import LeastSquares.Loss
import LeastSquares.Dense

namespace LeastSquares.Loss

variable {α : Type} [Zero α] [One α] [Add α] [Sub α] [Mul α] [Div α] [NatCast α] [BEq α]
  [LE α] [DecidableLE α] [Elementary α]

/-- Column sums weighted by the residual: `r' J`. -/
def pull (r : Array α) (J : Dense α) (j : Nat) : α :=
  sumTo r.size fun i => r.getD i 0 * J.get i j

/-- `factor * (J - alpha * r r' J)`. -/
def bend (factor alpha : α) (r : Array α) (J : Dense α) : Dense α :=
  let pulled := Array.ofFn fun (j : Fin J.cols) => pull r J j
  Dense.ofFn J.rows J.cols fun i j =>
    factor * (J.get i j - alpha * (r.getD i 0 * pulled.getD j 0))

/-- The Jacobians of one residual block, corrected for its loss. -/
def correct (loss : Loss α) (residual : Array α) (jacobians : List (Dense α)) :
    Except Fault (List (Dense α)) :=
  let s := Dense.dot residual residual
  match loss.evaluate s with
  | .error e => .error e
  | .ok value =>
    let factor := Elementary.sqrt value.slope
    if s == 0 || value.curvature ≤ 0 then .ok (jacobians.map (Dense.scale factor))
    else if value.slope == 0 then .error .divisionByZero
    else
      let D := 1 + ((2 : Nat) : α) * s * value.curvature / value.slope
      let alpha := (1 - Elementary.sqrt D) / s
      if jacobians.all fun J => J.rows = residual.size then
        .ok (jacobians.map (bend factor alpha residual))
      else .error .shapes

end LeastSquares.Loss
