/-
LeastSquares.Group — matrix groups as manifolds.

A group is parameterised by plain numbers, which are used as they are and not normalised.
Points are moved from the right: `plus x d` is `x * exp d`, and `minus y x` is the logarithm
of `x⁻¹ * y`. A group is given here by these two maps and the derivative of the first at zero,
and its manifold takes them in flushing arithmetic. Vectors of another length than the group's
are refused, with one exception: where a group is not strict, the target `y` of a difference may
be of any length, and its last entry stands for those that are missing.
-/
import LeastSquares.Manifold
import LeastSquares.Scalar.Flushed

namespace LeastSquares

/-- A group by what its manifold needs of it. -/
structure Group (α : Type) where
  paramSize : Nat
  tangentSize : Nat
  /-- Is the target of a difference refused for its length? -/
  strict : Bool
  /-- `x * exp d`. -/
  move : (x d : Array α) → Array α
  /-- `log (x⁻¹ * y)`. -/
  between : (y x : Array α) → Array α
  /-- The derivative of `move x` at zero. -/
  jacobian : (x : Array α) → Dense α

variable {α : Type}

/-- The manifold of a group. -/
def Manifold.ofGroup (g : Group (Flushed α)) : Manifold α where
  ambientSize := g.paramSize
  tangentSize := g.tangentSize
  plus x d :=
    if x.size = g.paramSize ∧ d.size = g.tangentSize then
      .ok (.ofVector (Flushed.toArray (g.move (Flushed.ofArray x) (Flushed.ofArray d))))
    else .error .groupLength
  minus y x :=
    if x.size = g.paramSize ∧ (y.size = g.paramSize ∨ g.strict = false ∧ y.size ≠ 0) then
      .ok (.ofVector (Flushed.toArray (g.between (Flushed.ofArray y) (Flushed.ofArray x))))
    else .error .groupLength
  plusJacobian x :=
    if x.size = g.paramSize then .ok ((g.jacobian (Flushed.ofArray x)).map Flushed.number)
    else .error .groupLength
  tangent_nonneg := fun _ => Int.natCast_nonneg g.tangentSize

namespace Group

/-- An entry of a parameter vector; behind its end, the last one. -/
def entry [Zero α] (x : Array α) (i : Nat) : α := x.getD (min i (x.size - 1)) 0

section Small

variable [Zero α] [One α] [Sub α] [Neg α] [Mul α] [Div α] [NatCast α] [LT α] [DecidableLT α]

/-- A number so small that a closed formula is replaced by the first terms of its series. -/
def epsilon : α := 1 / ((10000000000 : Nat) : α)

/-- Is the magnitude of a number negligible? -/
def isSmall (x : α) : Bool := magnitude x < epsilon

/-- A whole number. -/
def whole (n : Nat) : α := (n : α)

end Small

end Group

end LeastSquares
