/-
LeastSquares.Problem — parameter blocks and the residual blocks that use them.

Parameter blocks are named by handles, the integers from zero on in the order of their making.
A handle never changes its meaning: blocks are only ever added. Operations that refuse their
arguments leave the problem as it is, with one exception that `addBlock` states.
-/
import LeastSquares.Cost
import LeastSquares.Manifold
import LeastSquares.Log

namespace LeastSquares

/-- A vector of parameters. A manifold of it has its size. -/
@[ext]
structure ParameterBlock (α : Type) where
  values : Array α
  manifold : Option (Manifold α) := none
  /-- Was the block held constant? -/
  held : Bool := false
  fits : ∀ m, manifold = some m → m.ambientSize = values.size := by nofun

namespace ParameterBlock

variable {α : Type}

/-- How many parameters the block stores. -/
def ambientSize (b : ParameterBlock α) : Nat := b.values.size

/-- How many directions the block can move in, as its manifold declares; all of them without
a manifold. -/
def tangentSize (b : ParameterBlock α) : Int :=
  match b.manifold with
  | none => b.ambientSize
  | some m => m.tangentSize

/-- There is no negative number of directions. -/
theorem tangentSize_nonneg (b : ParameterBlock α) : 0 ≤ b.tangentSize := by
  unfold tangentSize
  split
  · exact Int.natCast_nonneg _
  · rename_i m hm
    exact m.tangent_nonneg (b.fits m hm ▸ Int.natCast_nonneg _)

/-- The block with a manifold of its size, or without any. One of another size is not taken. -/
def withManifold (b : ParameterBlock α) : Option (Manifold α) → ParameterBlock α
  | none => { b with manifold := none, fits := by nofun }
  | some m =>
    if h : m.ambientSize = b.values.size then
      { b with manifold := some m, fits := by simpa using h }
    else b

@[simp] theorem values_withManifold (b : ParameterBlock α) (manifold : Option (Manifold α)) :
    (b.withManifold manifold).values = b.values := by
  unfold withManifold
  split
  · rfl
  · split <;> rfl

@[simp] theorem held_withManifold (b : ParameterBlock α) (manifold : Option (Manifold α)) :
    (b.withManifold manifold).held = b.held := by
  unfold withManifold
  split
  · rfl
  · split <;> rfl

/-- A manifold of its size is the one that the block has then. -/
theorem manifold_withManifold {b : ParameterBlock α} {m : Manifold α}
    (h : m.ambientSize = b.values.size) : (b.withManifold (some m)).manifold = some m := by
  rw [withManifold, dif_pos h]

/-- The last manifold counts. -/
theorem withManifold_withManifold {b : ParameterBlock α} (manifold : Option (Manifold α))
    {m : Manifold α} (h : m.ambientSize = b.values.size) :
    (b.withManifold manifold).withManifold (some m) = b.withManifold (some m) := by
  have h' : m.ambientSize = (b.withManifold manifold).values.size := by
    rw [values_withManifold, h]
  exact ParameterBlock.ext (by simp)
    ((manifold_withManifold h').trans (manifold_withManifold h).symm) (by simp)

theorem tangentSize_withManifold {b : ParameterBlock α} {m : Manifold α}
    (h : m.ambientSize = b.values.size) : (b.withManifold (some m)).tangentSize = m.tangentSize := by
  rw [tangentSize, manifold_withManifold h]

/-- A block that cannot move counts as constant. -/
def isConstant (b : ParameterBlock α) : Bool := b.held || b.tangentSize == 0

/-- How the parameters change with the tangent vector. -/
def plusJacobian [Zero α] [One α] (b : ParameterBlock α) : Except Fault (Dense α) :=
  match b.manifold with
  | none => .ok (Dense.identity b.ambientSize)
  | some m => m.plusJacobian b.values

end ParameterBlock

/-- A cost with the parameter blocks it is a function of: their positions, and their handles as
they were written. -/
structure ResidualBlock (α : Type) where
  blocks : List Nat
  handles : List Atom
  cost : Cost α

/-- A nonlinear least-squares problem. -/
structure Problem (α : Type) where
  blocks : Array (ParameterBlock α)
  residuals : Array (ResidualBlock α)

namespace Problem

variable {α : Type}

/-- The problem of no blocks. -/
def empty : Problem α := ⟨#[], #[]⟩

/-- The position that a handle names. -/
def position? (p : Problem α) (handle : Atom) : Option Nat :=
  match handle.handle? with
  | some h => if 0 ≤ h ∧ h < p.blocks.size then some h.toNat else none
  | none => none

/-- The handles of a problem are the integers below its number of blocks. -/
theorem position?_integer (p : Problem α) (h : Int) (i : Nat) :
    p.position? (.integer h) = some i ↔ h = i ∧ i < p.blocks.size := by
  simp only [position?, Atom.handle?]
  split
  · simp only [Option.some.injEq]
    omega
  · simp only [reduceCtorEq, false_iff]
    omega

/-- Is the handle one of the problem's? -/
def has (p : Problem α) (handle : Atom) : Bool := (p.position? handle).isSome

/-- The position that a handle names, or the fault that it names none. -/
def position (p : Problem α) (handle : Atom) : Except Fault Nat :=
  match p.position? handle with
  | some i => .ok i
  | none => .error (.unknownBlock handle)

/-- The block at a position. -/
def blockAt (p : Problem α) (i : Nat) : ParameterBlock α := p.blocks.getD i { values := #[] }

/-- The block that a handle names. -/
def block (p : Problem α) (handle : Atom) : Except Fault (ParameterBlock α) :=
  (p.position handle).map p.blockAt

/-- Is the block at a position used by some residual block? -/
def uses (p : Problem α) (i : Nat) : Bool := p.residuals.any fun r => r.blocks.contains i

/-- The handle that the first residual block with a parameter block names it by. -/
def nameOf? (p : Problem α) (i : Nat) : Option Atom :=
  p.residuals.toList.findSome? fun r => (r.blocks.zip r.handles).lookup i

/-- The used blocks in order, as the first residual block with each of them names it. -/
def inUse (p : Problem α) : List Atom := (List.range p.blocks.size).filterMap p.nameOf?

/-- The values of the parameter blocks of a residual block. -/
def valuesOf (p : Problem α) (r : ResidualBlock α) : List (Array α) :=
  r.blocks.map fun i => (p.blockAt i).values

/-! ## Operations -/

/-- Hold a block constant, or let it move. -/
def setHeld (p : Problem α) (handle : Atom) (held : Bool) : Except Fault (Problem α) :=
  match p.position handle with
  | .ok i => .ok { p with blocks := p.blocks.modify i fun b => { b with held := held } }
  | .error e => .error e

/-- Give a block a manifold of its ambient size, or none. -/
def setManifold (p : Problem α) (handle : Atom) (manifold : Option (Manifold α)) :
    Except Fault (Problem α) :=
  match p.position handle with
  | .error e => .error e
  | .ok i =>
    let set : Problem α :=
      { p with blocks := p.blocks.modify i fun b => b.withManifold manifold }
    match manifold with
    | none => .ok set
    | some m =>
      if m.ambientSize = ((p.blockAt i).ambientSize : Int) then .ok set
      else .error (.manifoldSize m.ambientSize handle (p.blockAt i).ambientSize)

/-- Add a block without a manifold. -/
def pushBlock (p : Problem α) (values : Array α) : Problem α :=
  { p with blocks := p.blocks.push { values := values } }

/-- Add a block and answer its handle. The block is added before its manifold is looked at, and
stays where the manifold is refused. -/
def addBlock (p : Problem α) (values : Array α) (manifold : Option (Manifold α)) :
    Outcome (Problem α) Nat :=
  let handle := p.blocks.size
  let added := p.pushBlock values
  match manifold with
  | none => { answer := .ok handle, state := added }
  | some m =>
    match added.setManifold (.integer handle) (some m) with
    | .ok set => { answer := .ok handle, state := set }
    | .error e => { answer := .error e, state := added }

/-- Add a cost of some blocks, all of them different, and answer its index. -/
def addResidual (p : Problem α) (handles : List Atom) (cost : Cost α) :
    Outcome (Problem α) Nat :=
  let refuse (e : Fault) : Outcome (Problem α) Nat := { answer := .error e, state := p }
  if handles.isEmpty then refuse .noBlocks
  else if ¬ (handles.map Atom.key).Nodup then refuse (.repeatedBlocks handles)
  else
    match handles.mapM p.position with
    | .error e => refuse e
    | .ok blocks =>
      { answer := .ok p.residuals.size
        state := { p with residuals := p.residuals.push ⟨blocks, handles, cost⟩ } }

end Problem

end LeastSquares
