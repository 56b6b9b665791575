/-
LeastSquares.Loss — robust losses.

A loss turns the squared norm `s` of a residual into a cost. It is given by its value, its
slope and its curvature at `s`. The trivial loss is least squares itself; the Huber loss
follows it up to `a ^ 2` and grows like the norm beyond; the Cauchy loss grows like a
logarithm. The quadratic loss stands for what a caller may bring along.
-/
import LeastSquares.Scalar
import LeastSquares.Fault

namespace LeastSquares

/-- The value of a loss at one point, with its first and second derivative. -/
structure LossValue (α : Type) where
  value : α
  slope : α
  curvature : α

/-- A robust loss as a function of the squared residual norm. -/
structure Loss (α : Type) where
  evaluate : α → Except Fault (LossValue α)

namespace Loss

variable {α : Type} [Zero α] [One α] [Add α] [Sub α] [Neg α] [Mul α] [Div α] [NatCast α]
  [BEq α] [LT α] [DecidableLT α] [Elementary α]

/-- The larger of a weight and the least weight there is. -/
def atLeastNormal (x : α) : α :=
  if x < Elementary.smallestNormal then Elementary.smallestNormal else x

/-- Least squares. -/
def trivial : Loss α := ⟨fun s => .ok ⟨s, 1, 0⟩⟩

/-- Quadratic in the norm up to `a`, linear beyond. -/
def huber (a : α) : Loss α where
  evaluate s :=
    let b := a * a
    if b < s then
      let r := Elementary.sqrt s
      let slope := atLeastNormal (a / r)
      .ok ⟨((2 : Nat) : α) * a * r - b, slope, -slope / (((2 : Nat) : α) * s)⟩
    else .ok ⟨s, 1, 0⟩

/-- `a ^ 2 * log (1 + s / a ^ 2)`. -/
def cauchy (a : α) : Loss α where
  evaluate s :=
    let b := a * a
    if b == 0 then .error .divisionByZero
    else
      let c := 1 / b
      let d := 1 + s * c
      if d == 0 then .error .divisionByZero
      else
        let slope := 1 / d
        .ok ⟨b * Elementary.log1p (s * c), slope, -c * slope * slope⟩

/-- `s + c * s ^ 2 / 2`. -/
def quadratic (c : α) : Loss α where
  evaluate s := .ok ⟨s + half * c * s * s, 1 + c * s, c⟩

end Loss

end LeastSquares
