/-
LeastSquares.Manifold — local parameterisations of parameter blocks.

A manifold says how a block of `ambientSize` parameters is moved by a tangent vector of
`tangentSize` entries (`plus`), which tangent vector leads from one point to another (`minus`),
and how the parameters change with the tangent vector at zero (`plusJacobian`, a matrix of
`ambientSize` rows and `tangentSize` columns). The sizes are those that a caller declares. An
ambient size may be negative, which no block then has; otherwise there is a tangent space, perhaps
of no directions. The kinds of manifold are values of this type; the modules below this one make
them.
-/
import LeastSquares.Tensor

namespace LeastSquares

/-- A local parameterisation. -/
structure Manifold (α : Type) where
  ambientSize : Int
  tangentSize : Int
  plus : (x delta : Array α) → Except Fault (Tensor α)
  minus : (y x : Array α) → Except Fault (Tensor α)
  plusJacobian : (x : Array α) → Except Fault (Dense α)
  tangent_nonneg : 0 ≤ ambientSize → 0 ≤ tangentSize

end LeastSquares
