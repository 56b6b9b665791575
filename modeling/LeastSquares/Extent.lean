/-
LeastSquares.Extent — how large an array may be.

Callers write sizes as whole numbers, also negative ones and ones beyond all memory. The
entries of an array are counted by whole numbers of sixty-four bits and take eight bytes each,
so dimensions that are negative, or whose bytes cannot be counted, are those of no array; an
array beyond `maxBytes` has dimensions and finds no place. Where a size is the length of an array
that is there, none of this has to be asked.
-/
import LeastSquares.Fault

namespace LeastSquares.Extent

/-- Is a whole number one of sixty-four bits, the sign among them? -/
def isWord (i : Int) : Bool := -(Nat.pow 2 63 : Int) ≤ i && i < (Nat.pow 2 63 : Int)

/-- Refuse whole numbers that sixty-four bits do not hold. -/
def checkWords (is : List Int) : Except Fault Unit :=
  if is.all isWord then .ok () else .error .tooLarge

/-- How many bytes the entries of an array take, with empty dimensions left out. -/
def bytes : List Int → Nat
  | [] => 8
  | d :: rest => if d = 0 then bytes rest else d.natAbs * bytes rest

/-- The largest array that finds a place. -/
def maxBytes : Nat := Nat.pow 2 36

/-- Refuse dimensions that no array has, and arrays that no memory holds. -/
def check (dims : List Int) : Except Fault Unit :=
  if (dims.any fun d => d < 0) || Nat.pow 2 63 ≤ bytes dims then .error .dimensions
  else if maxBytes < bytes dims then .error .memory
  else .ok ()

end LeastSquares.Extent
