/-
LeastSquares.Decimal.Shortest — the shortest decimal that reads back as a number.

A finite number owns the interval of reals that round to it, ends included when its mantissa
is even. On the grid of one digit, then two, and so on, the two neighbours of the number are
tried in exact whole arithmetic; the first grid with a neighbour inside the interval gives the
digits, and of two such neighbours the nearer.
-/
import LeastSquares.Decimal.Binary

namespace LeastSquares

/-- A positive decimal `digits * 10 ^ exponent`. -/
structure Decimal where
  digits : Nat
  exponent : Int
  deriving DecidableEq, Repr

namespace Decimal

/-- How many decimal digits a whole number has; zero has none. -/
def width (n : Nat) : Nat := if n = 0 then 0 else (Nat.toDigits 10 n).length

/-- The exponent of the leading digit of the positive fraction `num / den`. -/
def leadingExponent (num den : Nat) : Int :=
  if den ≤ num then (width (num / den) : Int) - 1
  else -(width ((den + num - 1) / num - 1) : Int)

/-- A power of ten as a fraction. -/
def tenPower : Int → Nat × Nat
  | .ofNat e => (Nat.pow 10 e, 1)
  | .negSucc e => (1, Nat.pow 10 (e + 1))

/-- A power of two as a fraction. -/
def twoPower : Int → Nat × Nat
  | .ofNat e => (Nat.pow 2 e, 1)
  | .negSucc e => (1, Nat.pow 2 (e + 1))

/-- The interval that rounds to one number: its ends and the number itself in one unit
`1 / den`, and whether the ends belong to it. -/
structure Interval where
  low : Nat
  mid : Nat
  high : Nat
  den : Nat
  closed : Bool

namespace Interval

/-- The interval of `mantissa * 2 ^ exponent`, in quarters of its last place. -/
def ofBinary (mantissa : Nat) (exponent : Int) (lowGap : Bool) : Interval :=
  let (up, down) := twoPower exponent
  { low := (4 * mantissa - (if lowGap then 1 else 2)) * up
    mid := 4 * mantissa * up
    high := (4 * mantissa + 2) * up
    den := 4 * down
    closed := mantissa % 2 = 0 }

/-- Does the decimal lie in the interval? -/
def contains (i : Interval) (d : Decimal) : Bool :=
  let (up, down) := tenPower d.exponent
  let point := d.digits * up * i.den
  if i.closed then i.low * down ≤ point && point ≤ i.high * down
  else i.low * down < point && point < i.high * down

/-- The decimal of `count` digits that lies in the interval and is nearest to its number. -/
def pick? (i : Interval) (count : Nat) : Option Decimal :=
  let exponent := leadingExponent i.mid i.den - (count : Int) + 1
  let (up, down) := tenPower exponent
  let unit := up * i.den
  let below := i.mid * down / unit
  let rest := i.mid * down % unit
  let floor : Decimal := ⟨below, exponent⟩
  let ceiling : Decimal := ⟨below + 1, exponent⟩
  match i.contains floor, i.contains ceiling with
  | true, true =>
    if 2 * rest < unit then some floor
    else if unit < 2 * rest then some ceiling
    else if below % 2 = 0 then some floor else some ceiling
  | true, false => some floor
  | false, true => some ceiling
  | false, false => none

end Interval

/-- The shortest decimal of a positive number; seventeen digits always suffice. -/
def shortest (mantissa : Nat) (exponent : Int) (lowGap : Bool) : Decimal :=
  let interval := Interval.ofBinary mantissa exponent lowGap
  ((List.range 17).findSome? fun k => interval.pick? (k + 1)).getD ⟨0, 0⟩

/-- The same decimal without zeros at its end. -/
def strip (d : Decimal) : Nat → Decimal
  | 0 => d
  | fuel + 1 => if d.digits % 10 = 0 then strip ⟨d.digits / 10, d.exponent + 1⟩ fuel else d

/-- A signed exponent of two digits or more. -/
def exponentText (e : Int) : List Char :=
  let power := Nat.toDigits 10 e.natAbs
  ['e', if e < 0 then '-' else '+'] ++ List.replicate (2 - power.length) '0' ++ power

/-- Positional notation from `1e-4` up to `1e16`, with a digit on each side of the point;
beyond, one digit before the point, a signed exponent of two digits or more, and no point
behind a single digit. -/
def text (d : Decimal) : String :=
  let digits := Nat.toDigits 10 d.digits
  let lead := (digits.length : Int) - 1 + d.exponent
  if -4 ≤ lead && lead < 16 then
    if 0 ≤ d.exponent then
      String.ofList (digits ++ List.replicate d.exponent.toNat '0' ++ ['.', '0'])
    else if 0 ≤ lead then
      let whole := lead.toNat + 1
      String.ofList (digits.take whole ++ ['.'] ++ digits.drop whole)
    else
      String.ofList (['0', '.'] ++ List.replicate (-lead - 1).toNat '0' ++ digits)
  else
    let point := if digits.length = 1 then [] else ['.']
    String.ofList (digits.take 1 ++ point ++ digits.drop 1 ++ exponentText lead)

/-- The text of a number: the shortest decimal that reads back as it. -/
def ofFloat (x : Float) : String :=
  match Binary.ofFloat x with
  | .nan => "nan"
  | .infinite negative => if negative then "-inf" else "inf"
  | .finite negative mantissa exponent lowGap =>
    let sign := if negative then "-" else ""
    if mantissa = 0 then sign ++ "0.0"
    else sign ++ ((shortest mantissa exponent lowGap).strip 17).text

end Decimal

end LeastSquares
