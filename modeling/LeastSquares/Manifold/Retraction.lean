/-
LeastSquares.Manifold.Retraction — a manifold given by a function of point and tangent vector.

The retraction and, if there is one, its inverse are nested expressions. The Jacobian is the
derivative of the retraction by the tangent vector at zero, where the point is a constant.
-/
import LeastSquares.Extent
import LeastSquares.Expr
import LeastSquares.Manifold

namespace LeastSquares.Manifold

variable {α : Type} [Zero α] [One α] [Add α] [Sub α] [Neg α] [Mul α] [Div α] [NatCast α]
  [Elementary α]

/-- The arguments of a retraction: a constant point, and the tangent vector zero, entry by
entry variable. -/
def tangentArguments (x : Array α) (tangentSize : Nat) : Arguments α :=
  #[Arguments.fixed x,
    Array.ofFn fun (i : Fin tangentSize) => Dual.seed tangentSize i.val 0]

/-- The derivative of a retraction by the tangent vector, if the sizes are those of arrays and
the retraction gives points of the declared size. -/
def retractionJacobian (ambientSize : Int) (tangentSize : Nat) (retract : Nested (Expr α))
    (x : Array α) : Except Fault (Dense α) :=
  if tangentSize = 0 then
    if ambientSize = x.size then .ok (Dense.zeros x.size 0)
    else (Extent.check [ambientSize, 0]).map fun _ => Dense.zeros ambientSize.toNat 0
  else
    match Extent.check [tangentSize, tangentSize] with
    | .error e => .error e
    | .ok () =>
      if retract.shape.map Int.ofNat = [ambientSize] then
        .ok (retract.derivative (tangentArguments x tangentSize) tangentSize)
      else .error .retractionShape

/-- A manifold made of a retraction `(x, delta)` and an inverse `(y, x)`. -/
def retraction (ambientSize : Int) (tangentSize : Nat) (retract : Nested (Expr α))
    (inverse : Option (Nested (Expr α))) : Manifold α where
  ambientSize := ambientSize
  tangentSize := tangentSize
  plus x delta := .ok (retract.eval [x, delta])
  minus y x :=
    match inverse with
    | none => .error .noMinus
    | some f => .ok (f.eval [y, x])
  plusJacobian := retractionJacobian ambientSize tangentSize retract
  tangent_nonneg := fun _ => Int.natCast_nonneg tangentSize

end LeastSquares.Manifold
