/-
LeastSquares.Expr — functions of argument vectors, written as data.

An expression is built from constants and entries of the argument vectors. It is evaluated on
dual numbers: with all entries constant this gives its value, with some of them variable also
its derivatives by those. All of this is flushing arithmetic. A nested expression is a function
whose value is an array.
-/
import LeastSquares.Dual
import LeastSquares.Scalar.Flushed
import LeastSquares.Tensor

namespace LeastSquares

/-- Functions of one number. -/
inductive UnaryOp where
  | neg | sin | cos | exp | log | sqrt | tanh
  deriving DecidableEq, Repr

/-- Functions of two numbers. -/
inductive BinaryOp where
  | add | sub | mul | div | atan2
  deriving DecidableEq, Repr

/-- A real function of argument vectors. -/
inductive Expr (α : Type) where
  | const (c : α)
  /-- Entry `i` of argument vector `k`. -/
  | entry (k i : Nat)
  | unary (op : UnaryOp) (a : Expr α)
  | binary (op : BinaryOp) (a b : Expr α)
  | pow (a : Expr α) (n : Int)

section Evaluation

variable {α : Type} [Zero α] [One α] [Add α] [Sub α] [Neg α] [Mul α] [Div α] [NatCast α]
  [Elementary α]

/-- The dual number that a function of one number makes of another. -/
def UnaryOp.apply : UnaryOp → Dual α → Dual α
  | .neg => .neg
  | .sin => .sin
  | .cos => .cos
  | .exp => .exp
  | .log => .log
  | .sqrt => .sqrt
  | .tanh => .tanh

/-- The dual number that a function of two numbers makes of two others. -/
def BinaryOp.apply : BinaryOp → Dual α → Dual α → Dual α
  | .add => .add
  | .sub => .sub
  | .mul => .mul
  | .div => .div
  | .atan2 => .atan2

/-- The arguments of a function. -/
abbrev Arguments (α : Type) := Array (Array (Dual (Flushed α)))

/-- An argument that is not differentiated. -/
def Arguments.fixed (x : Array α) : Array (Dual (Flushed α)) := x.map fun v => Dual.const ⟨v⟩

/-- Arguments that are not differentiated. -/
def Arguments.constant (args : List (Array α)) : Arguments α := (args.map fixed).toArray

/-- Argument vectors from position `start` on, each entry a variable of its own among `n`. -/
def Arguments.seedFrom (n : Nat) : Nat → List (Array α) → List (Array (Dual (Flushed α)))
  | _, [] => []
  | start, x :: xs =>
    (Array.ofFn fun (i : Fin x.size) => Dual.seed n (start + i) ⟨x[i]⟩) ::
      seedFrom n (start + x.size) xs

/-- The number of entries of several argument vectors. -/
def Arguments.count (args : List (Array α)) : Nat := totalSize (args.map Array.size)

/-- Arguments that are all differentiated. -/
def Arguments.seed (args : List (Array α)) : Arguments α :=
  (seedFrom (count args) 0 args).toArray

namespace Expr

/-- The value of an expression, with its derivatives. -/
def eval (args : Arguments α) : Expr α → Dual (Flushed α)
  | .const c => .const ⟨c⟩
  | .entry k i => ((args.getD k #[])[i]?).getD (.const 0)
  | .unary op a => op.apply (a.eval args)
  | .binary op a b => op.apply (a.eval args) (b.eval args)
  | .pow a n => (a.eval args).pow n

/-- The sum of the products of constants with the entries of an argument, on top of `acc`. -/
def linearFrom (k : Nat) (acc : Expr α) (i : Nat) : List α → Expr α
  | [] => acc
  | c :: cs => linearFrom k (.binary .add acc (.binary .mul (.const c) (.entry k i))) (i + 1) cs

end Expr

/-- The array that a nested expression makes of its arguments. -/
def Nested.eval (f : Nested (Expr α)) (args : List (Array α)) : Tensor α :=
  let constant := Arguments.constant args
  f.toTensor fun e => (e.eval constant).value.number

/-- One row of derivatives for each entry of a nested expression. -/
def Nested.derivative (f : Nested (Expr α)) (args : Arguments α) (count : Nat) : Dense α :=
  let rows := f.leaves.map fun e => (e.eval args).tangent.getD #[]
  let table := rows.toArray
  Dense.ofFn rows.length count fun i j => ((table.getD i #[]).getD j 0).number

end Evaluation

end LeastSquares
