/-
LeastSquares.Scalar.Flushed — arithmetic without numbers of reduced precision.

Functions that are written as data, and the matrix groups, are evaluated by units that know no
subnormal numbers: an operand that is one counts as zero, and so does a result. `Flushed α` is
`α` with this arithmetic. Taking a number in or out, and changing its sign, flush nothing. Where
`Elementary.flush` changes no number, the arithmetic is that of `α`.
-/
import LeastSquares.Scalar

namespace LeastSquares

/-- A number that is computed with by flushing arithmetic. -/
structure Flushed (α : Type) where
  number : α

namespace Flushed

variable {α : Type}

section Operations

variable [Elementary α]

/-- A function of one number, flushed. -/
def map₁ (f : α → α) (a : Flushed α) : Flushed α :=
  ⟨Elementary.flush (f (Elementary.flush a.number))⟩

/-- A function of two numbers, flushed. -/
def map₂ (f : α → α → α) (a b : Flushed α) : Flushed α :=
  ⟨Elementary.flush (f (Elementary.flush a.number) (Elementary.flush b.number))⟩

end Operations

instance instZeroFlushed [Zero α] : Zero (Flushed α) := ⟨⟨0⟩⟩

instance instOneFlushed [One α] : One (Flushed α) := ⟨⟨1⟩⟩

instance instNatCastFlushed [NatCast α] : NatCast (Flushed α) := ⟨fun n => ⟨(n : α)⟩⟩

instance instNegFlushed [Neg α] : Neg (Flushed α) := ⟨fun a => ⟨-a.number⟩⟩

instance instAddFlushed [Elementary α] [Add α] : Add (Flushed α) := ⟨map₂ (· + ·)⟩

instance instSubFlushed [Elementary α] [Sub α] : Sub (Flushed α) := ⟨map₂ (· - ·)⟩

instance instMulFlushed [Elementary α] [Mul α] : Mul (Flushed α) := ⟨map₂ (· * ·)⟩

instance instDivFlushed [Elementary α] [Div α] : Div (Flushed α) := ⟨map₂ (· / ·)⟩

instance instLTFlushed [Elementary α] [LT α] : LT (Flushed α) :=
  ⟨fun a b => Elementary.flush a.number < Elementary.flush b.number⟩

instance instDecidableLTFlushed [Elementary α] [LT α] [DecidableLT α] :
    DecidableLT (Flushed α) := fun a b =>
  inferInstanceAs (Decidable (Elementary.flush a.number < Elementary.flush b.number))

instance instElementaryFlushed [Elementary α] : Elementary (Flushed α) where
  sqrt := map₁ Elementary.sqrt
  sin := map₁ Elementary.sin
  cos := map₁ Elementary.cos
  exp := map₁ Elementary.exp
  log := map₁ Elementary.log
  log1p := map₁ Elementary.log1p
  tanh := map₁ Elementary.tanh
  atan2 := map₂ Elementary.atan2
  pi := ⟨Elementary.pi⟩
  smallestNormal := ⟨Elementary.smallestNormal⟩
  flush a := ⟨Elementary.flush a.number⟩

/-- Numbers, taken in. -/
def ofArray (x : Array α) : Array (Flushed α) := x.map Flushed.mk

/-- Numbers, taken out. -/
def toArray (x : Array (Flushed α)) : Array α := x.map Flushed.number

end Flushed

end LeastSquares
