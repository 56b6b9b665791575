/-
LeastSquares.Text.Numeral — the whole number that a text spells.

A numeral is a run of digits of any script, with single underscores between them, behind a sign
or none, and with blanks around it or none. One of more than `maxDigits` digits is refused.
-/
import LeastSquares.Text.Digit

namespace LeastSquares.Text

/-- Is a character left out around a numeral? -/
def isBlank (c : Char) : Bool :=
  c = ' ' || (9 ≤ c.toNat && c.toNat ≤ 13) || c.toNat = 0x85 || c.toNat = 0xA0 ||
    c.toNat = 0x1680 || (0x2000 ≤ c.toNat && c.toNat ≤ 0x200A) || c.toNat = 0x2028 ||
    c.toNat = 0x2029 || c.toNat = 0x202F || c.toNat = 0x205F || c.toNat = 0x3000

namespace Numeral

/-- How many digits a numeral may have. -/
def maxDigits : Nat := 4300

/-- Drop the blanks at both ends. -/
def trim (cs : List Char) : List Char :=
  ((cs.dropWhile isBlank).reverse.dropWhile isBlank).reverse

/-- Read digits behind the value of those before; an underscore stands between two digits. -/
def digits? (n : Nat) : List Char → Option Nat
  | [] => some n
  | '_' :: c :: rest => (digit? c).bind fun d => digits? (10 * n + d) rest
  | c :: rest => (digit? c).bind fun d => digits? (10 * n + d) rest

/-- A number without a sign; it starts with a digit. -/
def natural? : List Char → Option Nat
  | c :: rest =>
    if maxDigits ≤ rest.countP fun c => c != '_' then none
    else (digit? c).bind fun d => digits? d rest
  | [] => none

/-- A number that may have a sign. -/
def signed? : List Char → Option Int
  | '-' :: rest => (natural? rest).map fun n => -(n : Int)
  | '+' :: rest => (natural? rest).map Int.ofNat
  | rest => (natural? rest).map Int.ofNat

end Numeral

/-- The whole number that a text spells. -/
def whole? (s : String) : Option Int := Numeral.signed? (Numeral.trim s.toList)

end LeastSquares.Text
