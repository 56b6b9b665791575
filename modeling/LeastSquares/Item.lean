/-
LeastSquares.Item — what a caller may write in a request.

A request names parameter blocks by integer handles, alone or in pairs. Callers also write
other things there, and the answer then has to say what was written, so a request is a list of
items: atoms, or lists of atoms. Two atoms are the same when their keys are: numbers are
compared by value, whatever notation they came in.
-/
import LeastSquares.Decimal.Shortest
import LeastSquares.Text.Quoted

namespace LeastSquares

/-- One written thing that is not a list. -/
inductive Atom where
  | null
  | truth (b : Bool)
  | integer (i : Int)
  | float (x : Float)
  | text (s : String)

namespace Atom

instance : Coe Int Atom := ⟨.integer⟩

/-- The handle that an atom spells; a truth value counts as one or zero. -/
def handle? : Atom → Option Int
  | .integer i => some i
  | .truth b => some (if b then 1 else 0)
  | _ => none

/-- What two atoms are compared by. -/
inductive Key where
  | null
  | whole (i : Int)
  | fraction (x : Binary)
  | text (s : String)
  deriving DecidableEq, Hashable

/-- Numbers of equal value have one key. -/
def key : Atom → Key
  | .null => .null
  | .truth b => .whole (if b then 1 else 0)
  | .integer i => .whole i
  | .float x =>
    match (Binary.ofFloat x).truncate? with
    | some i => if x == x.floor then .whole i else .fraction (Binary.ofFloat x)
    | none => .fraction (Binary.ofFloat x)
  | .text s => .text s

/-- The value of a number. -/
def number? : Atom → Option Binary
  | .truth b => some (.ofInt (if b then 1 else 0))
  | .integer i => some (.ofInt i)
  | .float x => some (.ofFloat x)
  | _ => none

/-- Is the first atom not behind the second? Numbers are ordered by value and texts by code
points; other atoms have no order. -/
def le? : Atom → Atom → Option Bool
  | .text s, .text t => some (s ≤ t)
  | a, b =>
    match a.number?, b.number? with
    | some x, some y => some (x.le y)
    | _, _ => none

/-- An atom as it is printed inside a list. -/
def shown : Atom → String
  | .null => "None"
  | .truth b => if b then "True" else "False"
  | .integer i => toString i
  | .float x => Decimal.ofFloat x
  | .text s => Text.quoted s

/-- An atom as it is printed alone. -/
def printed : Atom → String
  | .text s => s
  | a => a.shown

end Atom

/-- Members between round brackets; a single member is followed by a comma. -/
def tupleText : List String → String
  | [x] => "(" ++ x ++ ",)"
  | xs => "(" ++ ", ".intercalate xs ++ ")"

/-- One member of a request. -/
inductive Item where
  | atom (a : Atom)
  | list (members : List Atom)

namespace Item

/-- What two items are compared by. -/
inductive Key where
  | one (k : Atom.Key)
  | many (ks : List Atom.Key)
  deriving DecidableEq, Hashable

/-- Lists are compared member by member. -/
def key : Item → Key
  | .atom a => .one a.key
  | .list members => .many (members.map Atom.key)

/-- The handle that an item spells. -/
def handle? : Item → Option Int
  | .atom a => a.handle?
  | .list _ => none

/-- The members that an item is taken apart into; those of a text are its characters. -/
def members? : Item → Option (List Atom)
  | .atom (.text s) => some (s.toList.map fun c => .text (String.singleton c))
  | .atom _ => none
  | .list members => some members

/-- An item as it is printed alone. -/
def printed : Item → String
  | .atom a => a.printed
  | .list members => tupleText (members.map Atom.shown)

end Item

end LeastSquares
