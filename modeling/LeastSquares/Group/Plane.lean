/-
LeastSquares.Group.Plane — rotations and rigid motions of the plane.

A rotation is the pair of its cosine and sine. A rigid motion is a rotation followed by a
translation; its tangent vector holds the two translational parts before the angle.
-/
import LeastSquares.Group

namespace LeastSquares.Group

variable {α : Type} [Zero α] [One α] [Add α] [Sub α] [Neg α] [Mul α] [Div α] [NatCast α]
  [LT α] [DecidableLT α] [Elementary α]

/-- The sum of two products. It starts from zero, as every sum does here, so a turn by half a
circle and back is never a turn by a negative zero. -/
def dot2 (a b x y : α) : α := 0 + a * x + b * y

/-- A rotation of the plane by its cosine and sine. -/
structure Turn (α : Type) where
  c : α
  s : α

namespace Turn

/-- The rotation by an angle. -/
def exp (w : α) : Turn α := ⟨Elementary.cos w, Elementary.sin w⟩

/-- The angle of a rotation. -/
def log (r : Turn α) : α := Elementary.atan2 r.s r.c

/-- One rotation after another. -/
def mul (p q : Turn α) : Turn α := ⟨dot2 p.c (-p.s) q.c q.s, dot2 p.s p.c q.c q.s⟩

/-- The rotation back. -/
def inv (r : Turn α) : Turn α := ⟨r.c, -r.s⟩

/-- The image of a point. -/
def apply (r : Turn α) (t : α × α) : α × α := (dot2 r.c (-r.s) t.1 t.2, dot2 r.s r.c t.1 t.2)

/-- The rotation stored at the head of a parameter vector. -/
def read (x : Array α) : Turn α := ⟨entry x 0, entry x 1⟩

end Turn

/-- Rotations of the plane. -/
def rotations2 : Group α where
  paramSize := 2
  tangentSize := 1
  strict := false
  move x d :=
    let r := (Turn.read x).mul (Turn.exp (d.getD 0 0))
    #[r.c, r.s]
  between y x := #[((Turn.read x).inv.mul (Turn.read y)).log]
  jacobian x :=
    let r := Turn.read x
    Dense.ofRows 1 [[-r.s], [r.c]]

/-- A rigid motion of the plane. -/
structure Motion2 (α : Type) where
  turn : Turn α
  shift : α × α

namespace Motion2

/-- The coefficients of a translation that is turned by an angle while it is made: `sin w / w`
and `(1 - cos w) / w`. -/
def screw (w : α) : α × α :=
  if isSmall w then
    (1 - w * w / whole 6, w / whole 2 - w * w * w / whole 24)
  else (Elementary.sin w / w, (1 - Elementary.cos w) / w)

/-- The motion of a tangent vector. -/
def exp (vx vy w : α) : Motion2 α :=
  let (a, b) := screw w
  ⟨Turn.exp w, a * vx - b * vy, b * vx + a * vy⟩

/-- The tangent vector of a motion. -/
def log (m : Motion2 α) : Array α :=
  let w := m.turn.log
  let halfAngle := w / whole 2
  let fall := Elementary.cos w - 1
  let h :=
    if isSmall fall then 1 - w * w / whole 12
    else -(halfAngle * Elementary.sin w) / fall
  #[h * m.shift.1 + halfAngle * m.shift.2, -halfAngle * m.shift.1 + h * m.shift.2, w]

/-- One motion after another. -/
def mul (p q : Motion2 α) : Motion2 α :=
  let t := p.turn.apply q.shift
  ⟨p.turn.mul q.turn, t.1 + p.shift.1, t.2 + p.shift.2⟩

/-- The motion back. -/
def inv (m : Motion2 α) : Motion2 α :=
  let t := m.turn.inv.apply m.shift
  ⟨m.turn.inv, -t.1, -t.2⟩

/-- The motion stored in a parameter vector. -/
def read (x : Array α) : Motion2 α := ⟨Turn.read x, x.getD 2 0, x.getD 3 0⟩

end Motion2

/-- Rigid motions of the plane. -/
def motions2 : Group α where
  paramSize := 4
  tangentSize := 3
  strict := true
  move x d :=
    let m := (Motion2.read x).mul (Motion2.exp (d.getD 0 0) (d.getD 1 0) (d.getD 2 0))
    #[m.turn.c, m.turn.s, m.shift.1, m.shift.2]
  between y x := ((Motion2.read x).inv.mul (Motion2.read y)).log
  jacobian x :=
    let r := Turn.read x
    Dense.ofRows 3 [[0, 0, -r.s], [0, 0, r.c], [r.c, -r.s, 0], [r.s, r.c, 0]]

end LeastSquares.Group
