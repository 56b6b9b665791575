/-
LeastSquares.Tensor — arrays of any number of dimensions, and nested data.

A tensor is a shape and its entries in row-major order. Callers write tensors as nested lists;
all nested lists are rectangular, so the shape is read along the first members and the entries
are the leaves. The module also holds the one law by which shapes go together: a dimension of
size one stretches to any other.
-/
import LeastSquares.Dense

namespace LeastSquares

/-- Entries in row-major order under a shape. -/
structure Tensor (α : Type) where
  shape : List Nat
  data : Array α

/-- A leaf, or a list of nested data. -/
inductive Nested (β : Type) where
  | leaf (b : β)
  | list (members : List (Nested β))

namespace Nested

variable {β γ : Type}

/-- The size of every dimension, read along the first members. -/
def shape : Nested β → List Nat
  | .leaf _ => []
  | .list [] => [0]
  | .list (x :: xs) => (xs.length + 1) :: x.shape

mutual

/-- The leaves in order. -/
def leaves : Nested β → List β
  | .leaf b => [b]
  | .list members => leavesAll members

/-- The leaves of several nested data, in order. -/
def leavesAll : List (Nested β) → List β
  | [] => []
  | x :: xs => x.leaves ++ leavesAll xs

end

/-- Nested data as a tensor, with every leaf read by `f`. -/
def toTensor (f : β → γ) (x : Nested β) : Tensor γ :=
  { shape := x.shape, data := (x.leaves.map f).toArray }

end Nested

namespace Tensor

variable {α : Type}

/-- A column of numbers as a tensor of one dimension. -/
def ofVector (x : Array α) : Tensor α := ⟨[x.size], x⟩

/-- A matrix as a tensor of two dimensions. -/
def ofDense (A : Dense α) : Tensor α := ⟨[A.rows, A.cols], A.data⟩

end Tensor

namespace Stretch

/-- The common size of two dimensions, where a dimension of size one stretches. -/
def common? (a b : Nat) : Option Nat :=
  if a = b then some a else if a = 1 then some b else if b = 1 then some a else none

/-- Can an operand dimension be written into a target dimension of fixed size? -/
def fits (target operand : Nat) : Bool := operand == target || operand == 1

/-- Where an operand dimension of a size is read for a target position. -/
def index (operand i : Nat) : Nat := if operand = 1 then 0 else i

/-- A position inside the operand is read as it is. -/
theorem index_of_lt {operand i : Nat} (h : i < operand) : index operand i = i := by
  unfold index
  split <;> omega

/-- Combine two columns of numbers, stretching one of a single entry. -/
def zip? {α : Type} [Zero α] (f : α → α → α) (x y : Array α) : Except Fault (Array α) :=
  match common? x.size y.size with
  | some n =>
    .ok (Array.ofFn fun (i : Fin n) => f (x.getD (index x.size i) 0) (y.getD (index y.size i) 0))
  | none => .error .shapes

end Stretch

end LeastSquares
