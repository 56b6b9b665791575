/-
LeastSquares.Request — what may be asked for, and what counts as asked twice.

A request is a list of handles, which stands for all pairs of them, or a list of pairs.
`repeated` finds the groups of positions that share a key; for pairs the key is the pair with
its smaller member first, so `(a, b)` and `(b, a)` are one request. Where a pair is needed, a
text of two characters is the pair of them.
-/
import Std.Data.HashMap
import LeastSquares.Item.Whole

namespace LeastSquares.Request

section Duplicates

variable {κ : Type} [BEq κ] [Hashable κ]

/-- The positions of every key seen so far, latest first, and the keys, latest first. -/
structure Seen (κ : Type) [BEq κ] [Hashable κ] where
  order : List κ
  positions : Std.HashMap κ (List Nat)

/-- Note that the key stands at a position. -/
def Seen.add (seen : Seen κ) (key : κ) (position : Nat) : Seen κ :=
  match seen.positions[key]? with
  | none =>
    { order := key :: seen.order, positions := seen.positions.insert key [position] }
  | some before =>
    { seen with positions := seen.positions.insert key (position :: before) }

/-- Note keys that stand at adjacent positions. -/
def Seen.addAll (seen : Seen κ) (position : Nat) : List κ → Seen κ
  | [] => seen
  | key :: rest => (seen.add key position).addAll (position + 1) rest

/-- The groups of positions that share a key, ordered by their first position. -/
def repeated (keys : List κ) : List (List Nat) :=
  let seen := (Seen.mk [] ∅ : Seen κ).addAll 0 keys
  seen.order.reverse.filterMap fun key =>
    let group := (seen.positions.getD key []).reverse
    if 1 < group.length then some group else none

/-- Refuse keys that repeat. -/
def checkDistinct (keys : List κ) : Except Fault Unit :=
  let groups := repeated keys
  if groups.isEmpty then .ok () else .error (.duplicates groups)

end Duplicates

/-! ## Pairs -/

/-- A pair with its smaller member first. -/
def unordered {β : Type} [LE β] [DecidableLE β] (pair : β × β) : β × β :=
  if pair.1 ≤ pair.2 then pair else (pair.2, pair.1)

/-- All pairs of members of a list, the first one not behind the second. -/
def allPairs {β : Type} : List β → List (β × β)
  | [] => []
  | x :: xs => (x, x) :: xs.map (fun y => (x, y)) ++ allPairs xs

/-- What two pairs are compared by, whichever of its members each of them names first. -/
def unorderedKey (item : Item) : Except Fault (Atom.Key × Atom.Key) :=
  match item.members? with
  | none => .error .notAList
  | some [a, b] =>
    match a.le? b with
    | some true => .ok (a.key, b.key)
    | some false => .ok (b.key, a.key)
    | none => .error .unordered
  | some _ => .error .pairLength

/-- An item as a pair of handles. -/
def pairOfItem (item : Item) : Except Fault (Int × Int) :=
  match item.members? with
  | none => .error .notAList
  | some [a, b] => do
    let first ← a.whole
    let second ← b.whole
    return (first, second)
  | some _ => .error .pairLength

/-- The pairs that a request stands for. -/
def pairs (items : List Item) : Except Fault (List (Int × Int)) :=
  match items.mapM Item.handle? with
  | some handles => (checkDistinct handles).map fun _ => allPairs handles
  | none => items.mapM pairOfItem

end LeastSquares.Request
