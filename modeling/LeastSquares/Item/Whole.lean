/-
LeastSquares.Item.Whole — the whole number that a written thing stands for.

Handles, sizes and coordinates are whole numbers. A number with a fraction loses it, in the
direction of zero, and a text may spell the number.
-/
import LeastSquares.Fault
import LeastSquares.Text.Numeral

namespace LeastSquares

/-- The whole number that an atom stands for, without its fraction. -/
def Atom.whole : Atom → Except Fault Int
  | .null => .error .notANumber
  | .truth b => .ok (if b then 1 else 0)
  | .integer i => .ok i
  | .float x =>
    match Binary.ofFloat x with
    | .infinite _ => .error .tooLarge
    | value =>
      match value.truncate? with
      | some i => .ok i
      | none => .error .notANumeral
  | .text s =>
    match Text.whole? s with
    | some i => .ok i
    | none => .error .notANumeral

end LeastSquares
