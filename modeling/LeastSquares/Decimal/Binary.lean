/-
LeastSquares.Decimal.Binary — a binary number taken apart.

A finite `Float` is `± mantissa * 2 ^ exponent` with whole parts; here it is read off the bits,
so that later rules (which decimal is nearest, what is left when the fraction is dropped) work
on whole numbers and are exact.
-/

namespace LeastSquares

/-- A floating-point number as what it stands for. -/
inductive Binary where
  /-- Not a number. -/
  | nan
  /-- An infinity and its sign. -/
  | infinite (negative : Bool)
  /-- The number `± mantissa * 2 ^ exponent`; `lowGap` says that the next smaller magnitude is
  only half as far away as the next larger one. -/
  | finite (negative : Bool) (mantissa : Nat) (exponent : Int) (lowGap : Bool)
  deriving DecidableEq, Hashable, Repr

namespace Binary

/-- Read the sign, the exponent and the fraction off the sixty-four bits. -/
def ofFloat (x : Float) : Binary :=
  let bits : Nat := x.toBits.toNat
  let negative := Nat.pow 2 63 ≤ bits
  let field : Nat := bits / Nat.pow 2 52 % Nat.pow 2 11
  let fraction : Nat := bits % Nat.pow 2 52
  if field = 2047 then
    if fraction = 0 then .infinite negative else .nan
  else if field = 0 then .finite negative fraction (-1074) false
  else
    .finite negative (Nat.pow 2 52 + fraction) ((field : Int) - 1075)
      (fraction = 0 && field != 1)

/-- A whole number. -/
def ofInt (i : Int) : Binary := .finite (i < 0) i.natAbs 0 false

/-- A signed magnitude in units of `2 ^ unit`, where `unit` is not above its exponent. -/
def inUnits (unit : Int) (negative : Bool) (mantissa : Nat) (exponent : Int) : Int :=
  let size : Int := mantissa * Nat.pow 2 (exponent - unit).toNat
  if negative then -size else size

/-- Is the first number not above the second? What is not a number is beside nothing. -/
def le : Binary → Binary → Bool
  | .nan, _ => false
  | _, .nan => false
  | .infinite negative, .infinite negative' => negative || !negative'
  | .infinite negative, .finite .. => negative
  | .finite .., .infinite negative => !negative
  | .finite s m e _, .finite s' m' e' _ =>
    let unit := min e e'
    inUnits unit s m e ≤ inUnits unit s' m' e'

/-- What is left of a magnitude `mantissa * 2 ^ exponent` when its fraction is dropped. -/
def wholePart (mantissa : Nat) : Int → Nat
  | .ofNat e => mantissa * Nat.pow 2 e
  | .negSucc e => mantissa / Nat.pow 2 (e + 1)

/-- The whole number next to a finite number in the direction of zero. -/
def truncate? : Binary → Option Int
  | .finite negative mantissa exponent _ =>
    let whole : Int := wholePart mantissa exponent
    some (if negative then -whole else whole)
  | _ => none

end Binary

end LeastSquares
