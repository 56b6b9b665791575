/-
LeastSquares.Dual — numbers that carry their derivatives.

A dual number is a value with its tangent, the vector of its derivatives by all entries of the
arguments that are differentiated. A constant carries no tangent, and contributes no term to
any rule. Every other rule multiplies the whole tangent by the local derivative, entry by
entry, so an infinite local derivative turns a zero entry into a number that is none.
-/
import LeastSquares.Scalar

namespace LeastSquares

/-- A value and, unless it is constant, its derivatives. -/
structure Dual (α : Type) where
  value : α
  tangent : Option (Array α)

namespace Dual

variable {α : Type} [Zero α] [One α] [Add α] [Sub α] [Neg α] [Mul α] [Div α] [NatCast α]
  [Elementary α]

/-- A number without tangent. -/
def const (c : α) : Dual α := ⟨c, none⟩

/-- Entry `i` of the `n` entries that are differentiated. -/
def seed (n i : Nat) (x : α) : Dual α :=
  ⟨x, some (Array.ofFn fun (k : Fin n) => if k.val = i then 1 else 0)⟩

/-- The tangent multiplied by a local derivative. -/
def chain (a : Dual α) (slope : α) : Option (Array α) :=
  a.tangent.map fun t => t.map (· * slope)

/-- The sum of the tangents that are there. -/
def join : Option (Array α) → Option (Array α) → Option (Array α)
  | some s, some t => some (Array.zipWith (· + ·) s t)
  | some s, none => some s
  | none, t => t

/-- A function of one number with its derivative. -/
def lift (a : Dual α) (value slope : α) : Dual α := ⟨value, a.chain slope⟩

/-- A function of two numbers with its derivatives by either. -/
def lift₂ (a b : Dual α) (value byFirst bySecond : α) : Dual α :=
  ⟨value, join (a.chain byFirst) (b.chain bySecond)⟩

def add (a b : Dual α) : Dual α := lift₂ a b (a.value + b.value) 1 1

def sub (a b : Dual α) : Dual α := lift₂ a b (a.value - b.value) 1 (-1)

def mul (a b : Dual α) : Dual α := lift₂ a b (a.value * b.value) b.value a.value

def div (a b : Dual α) : Dual α :=
  lift₂ a b (a.value / b.value) (1 / b.value) (-a.value / (b.value * b.value))

/-- The angle of the point with ordinate `a` and abscissa `b`. -/
def atan2 (a b : Dual α) : Dual α :=
  let square := b.value * b.value + a.value * a.value
  lift₂ a b (Elementary.atan2 a.value b.value) (b.value / square) (-(a.value / square))

def neg (a : Dual α) : Dual α := lift a (-a.value) (-1)

def sin (a : Dual α) : Dual α := lift a (Elementary.sin a.value) (Elementary.cos a.value)

def cos (a : Dual α) : Dual α := lift a (Elementary.cos a.value) (-Elementary.sin a.value)

def exp (a : Dual α) : Dual α :=
  let e := Elementary.exp a.value
  lift a e e

def log (a : Dual α) : Dual α := lift a (Elementary.log a.value) (1 / a.value)

def sqrt (a : Dual α) : Dual α :=
  let root := Elementary.sqrt a.value
  lift a root (half / root)

def tanh (a : Dual α) : Dual α :=
  let t := Elementary.tanh a.value
  lift a t (1 - t * t)

/-- A whole power. The power zero is one everywhere, so its derivative is zero everywhere. -/
def pow (a : Dual α) (n : Int) : Dual α :=
  if n = 0 then ⟨1, a.tangent.map fun t => t.map fun _ => 0⟩
  else
    let factor : α := if n < 0 then -((n.natAbs : Nat) : α) else ((n.natAbs : Nat) : α)
    lift a (intPower a.value n) (factor * intPower a.value (n - 1))

end Dual

end LeastSquares
