/-
LeastSquares.Manifold.Euclidean — the manifold that changes nothing.

Points and tangent vectors are added entry by entry.
-/
import LeastSquares.Manifold
import LeastSquares.Extent

namespace LeastSquares.Manifold

variable {α : Type} [Zero α] [One α] [Add α] [Sub α]

/-- Columns of numbers with their usual sum and difference. -/
def euclidean (size : Int) : Manifold α where
  ambientSize := size
  tangentSize := size
  plus x delta := (Stretch.zip? (· + ·) x delta).map Tensor.ofVector
  minus y x := (Stretch.zip? (· - ·) y x).map Tensor.ofVector
  plusJacobian x :=
    if size = x.size then .ok (Dense.identity x.size)
    else (Extent.check [size, size]).map fun _ => Dense.identity size.toNat
  tangent_nonneg := id

/-- At a point of its size the Jacobian is the identity. -/
theorem plusJacobian_euclidean (x : Array α) :
    (euclidean (x.size : Int)).plusJacobian x = .ok (Dense.identity x.size) := if_pos rfl

end LeastSquares.Manifold
