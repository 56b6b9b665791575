/-
LeastSquares.Scalar — the arithmetic that the library computes with.

Every numerical definition of the library is generic in its scalar type `α`, and asks for
the operations it uses and no others. The same definition runs on `Float` and has exact
meaning over an ordered field. This module holds what the standard classes lack: the
elementary functions, the two tests for special values, and finite sums.
-/

namespace LeastSquares

/-- The functions and constants that field arithmetic does not give. -/
class Elementary (α : Type) where
  sqrt : α → α
  sin : α → α
  cos : α → α
  exp : α → α
  log : α → α
  /-- The logarithm of one more than the argument, exact near zero. -/
  log1p : α → α
  tanh : α → α
  /-- The angle of the point whose ordinate comes first. -/
  atan2 : α → α → α
  /-- Half a turn. -/
  pi : α
  /-- A positive number below which a robust weight never falls. -/
  smallestNormal : α
  /-- The number itself, or zero where it is too small to be held in full precision. -/
  flush : α → α

instance natCastFloat : NatCast Float := ⟨Float.ofNat⟩

/-- `log (1 + x)` with the rounding error of `1 + x` divided out again. -/
def floatLog1p (x : Float) : Float :=
  let u := 1.0 + x
  if u == 1.0 then x
  else if u - u == 0.0 then Float.log u * (x / (u - 1.0))
  else Float.log u

/-- A magnitude below the smallest normal one becomes a zero of the same sign. -/
def floatFlush (x : Float) : Float :=
  if Float.abs x < 2.2250738585072014e-308 then x * 0.0 else x

instance : Elementary Float where
  sqrt := Float.sqrt
  sin := Float.sin
  cos := Float.cos
  exp := Float.exp
  log := Float.log
  log1p := floatLog1p
  tanh := Float.tanh
  atan2 := Float.atan2
  pi := 3.141592653589793
  smallestNormal := 2.2250738585072014e-308
  flush := floatFlush

/-! ## Finite sums -/

section Sums

variable {α : Type} [Zero α] [Add α]

/-- The sum of `f 0`, …, `f (n - 1)`, added from the left. -/
def sumTo (n : Nat) (f : Nat → α) : α := Nat.fold n (fun i _ acc => acc + f i) 0

@[simp] theorem sumTo_zero (f : Nat → α) : sumTo 0 f = 0 := rfl

@[simp] theorem sumTo_succ (n : Nat) (f : Nat → α) : sumTo (n + 1) f = sumTo n f + f n := by
  simp [sumTo]

theorem sumTo_congr {n : Nat} {f g : Nat → α} (h : ∀ i, i < n → f i = g i) :
    sumTo n f = sumTo n g := by
  induction n with
  | zero => rfl
  | succ n ih =>
    rw [sumTo_succ, sumTo_succ, ih fun i hi => h i (by omega), h n (by omega)]

end Sums

/-- The sum of some sizes. -/
def totalSize : List Nat → Nat
  | [] => 0
  | n :: rest => n + totalSize rest

@[simp] theorem totalSize_nil : totalSize [] = 0 := rfl

@[simp] theorem totalSize_cons (n : Nat) (rest : List Nat) :
    totalSize (n :: rest) = n + totalSize rest := rfl

@[simp] theorem totalSize_append (xs ys : List Nat) :
    totalSize (xs ++ ys) = totalSize xs + totalSize ys := by
  induction xs with
  | nil => simp
  | cons n rest ih => simp [ih, Nat.add_assoc]

/-- The lengths of the members of a list of lists add up to the length of them all. -/
theorem totalSize_map_length {β : Type} (xss : List (List β)) :
    totalSize (xss.map List.length) = xss.flatten.length := by
  induction xss with
  | nil => rfl
  | cons xs rest ih => simp [ih]

/-- The sum of some sizes that may be negative. -/
def totalExtent : List Int → Int
  | [] => 0
  | n :: rest => n + totalExtent rest

@[simp] theorem totalExtent_nil : totalExtent [] = 0 := rfl

@[simp] theorem totalExtent_cons (n : Int) (rest : List Int) :
    totalExtent (n :: rest) = n + totalExtent rest := rfl

/-- Sizes that are natural numbers add up to a natural number. -/
theorem totalExtent_map_natCast (sizes : List Nat) :
    totalExtent (sizes.map fun (n : Nat) => (n : Int)) = (totalSize sizes : Nat) := by
  induction sizes with
  | nil => rfl
  | cons n rest ih => simp [ih]

/-! ## Tests, magnitudes and powers -/

section Numbers

variable {α : Type} [Zero α] [One α] [Sub α] [Neg α] [Mul α] [Div α] [NatCast α] [BEq α]
  [LT α] [DecidableLT α]

/-- A number that differs from itself is not a number. -/
def isNaN (x : α) : Bool := !(x == x)

/-- Only a finite number leaves nothing when it is taken from itself. -/
def isFinite (x : α) : Bool := x - x == 0

/-- The magnitude of a number. -/
def magnitude (x : α) : α := if x < 0 then -x else x

/-- One half. -/
def half : α := 1 / ((2 : Nat) : α)

/-- `n` copies of `x`, multiplied together by repeated squaring. -/
def natPower (x : α) (n : Nat) : α :=
  if n = 0 then 1
  else if n = 1 then x
  else
    let root := natPower x (n / 2)
    if n % 2 = 0 then root * root else root * root * x
termination_by n

/-- A whole power; a negative one is the reciprocal of the positive one. -/
def intPower (x : α) : Int → α
  | .ofNat n => natPower x n
  | .negSucc n => 1 / natPower x (n + 1)

end Numbers

end LeastSquares
