/-
LeastSquares.Decimal.Scientific — a number in scientific notation.

A finite number is written with one digit before the point, a fixed number of digits behind it and
an exponent of two digits or more. It is rounded to that many digits, a half to the even
neighbour; where rounding fills another digit, the exponent grows by one.
-/
import LeastSquares.Decimal.Shortest

namespace LeastSquares.Decimal

/-- A fraction rounded to a whole number, a half to the even neighbour. -/
def roundHalfEven (num den : Nat) : Nat :=
  let q := num / den
  let r := 2 * (num % den)
  if r < den then q else if den < r then q + 1 else if q % 2 = 0 then q else q + 1

/-- The nearest decimal of `places + 1` digits to the positive number `mantissa * 2 ^ exponent`. -/
def nearest (places mantissa : Nat) (exponent : Int) : Decimal :=
  let (up, down) := twoPower exponent
  let last := leadingExponent (mantissa * up) down - (places : Int)
  let (tens, parts) := tenPower last
  let digits := roundHalfEven (mantissa * up * parts) (down * tens)
  if digits = Nat.pow 10 (places + 1) then ⟨Nat.pow 10 places, last + 1⟩ else ⟨digits, last⟩

/-- A decimal of `places + 1` digits in scientific notation. -/
def scientificText (places : Nat) (d : Decimal) : String :=
  let digits := Nat.toDigits 10 d.digits
  String.ofList (digits.take 1 ++ ['.'] ++ digits.drop 1 ++ exponentText (d.exponent + places))

/-- The text of a number with `places` digits behind the point. -/
def scientific (places : Nat) (x : Float) : String :=
  match Binary.ofFloat x with
  | .nan => "nan"
  | .infinite negative => if negative then "-inf" else "inf"
  | .finite negative mantissa exponent _ =>
    let sign := if negative then "-" else ""
    if mantissa = 0 then sign ++ "0." ++ String.ofList (List.replicate places '0') ++ "e+00"
    else sign ++ scientificText places (nearest places mantissa exponent)

end LeastSquares.Decimal
