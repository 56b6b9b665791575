/-
LeastSquares.Group.Space — rotations and rigid motions of space.

A rotation is a quaternion, real part first. A rigid motion is a rotation followed by a
translation; its tangent vector holds the three translational parts before the three of the
rotation vector. Quaternions are used as they are: turning a point by one that is not of unit
length also scales it, while the matrix of a rotation is that of the normalised quaternion.
-/
import LeastSquares.Group

namespace LeastSquares.Group

variable {α : Type} [Zero α] [One α] [Add α] [Sub α] [Neg α] [Mul α] [Div α] [NatCast α]
  [LT α] [DecidableLT α] [Elementary α]

/-- A point of space, or an imaginary part. -/
structure Triple (α : Type) where
  x : α
  y : α
  z : α

namespace Triple

/-- The squared length. -/
def square (t : Triple α) : α := t.x * t.x + t.y * t.y + t.z * t.z

/-- Every coordinate multiplied by one number. -/
def scale (c : α) (t : Triple α) : Triple α := ⟨c * t.x, c * t.y, c * t.z⟩

def add (s t : Triple α) : Triple α := ⟨s.x + t.x, s.y + t.y, s.z + t.z⟩

def neg (t : Triple α) : Triple α := ⟨-t.x, -t.y, -t.z⟩

/-- The three entries of a vector from a position on. -/
def read (x : Array α) (start : Nat) : Triple α :=
  ⟨entry x start, entry x (start + 1), entry x (start + 2)⟩

/-- The image under a matrix of three rows and columns. -/
def image (A : Dense α) (t : Triple α) : Triple α :=
  let y := A.mulVec #[t.x, t.y, t.z]
  read y 0

/-- The matrix whose product with a point is the cross product with it. -/
def skew (t : Triple α) : Dense α :=
  Dense.ofRows 3 [[0, -t.z, t.y], [t.z, 0, -t.x], [-t.y, t.x, 0]]

/-- `I + a * K + b * K * K` for the skew matrix `K` of a rotation vector. -/
def series (t : Triple α) (a b : α) : Dense α :=
  let K := t.skew
  let KK := K.mul K
  Dense.ofFn 3 3 fun i j => (if i = j then 1 else 0) + a * K.get i j + b * KK.get i j

end Triple

/-- A quaternion, real part first. -/
structure Quat (α : Type) where
  re : α
  im : Triple α

namespace Quat

/-- The quaternion of a rotation vector. -/
def exp (d : Triple α) : Quat α :=
  let t2 := d.square
  if t2 < epsilon then
    ⟨1 - t2 / whole 8 + t2 * t2 / whole 384,
      d.scale (half - t2 / whole 48 + t2 * t2 / whole 3840)⟩
  else
    let t := Elementary.sqrt t2
    let h := t / whole 2
    ⟨Elementary.cos h, d.scale (Elementary.sin h / t)⟩

/-- The rotation vector of a quaternion. -/
def log (q : Quat α) : Triple α :=
  let w := q.re
  let n2 := q.im.square
  let factor :=
    if n2 < epsilon then
      whole 2 / w - whole 2 / whole 3 * n2 / (w * w * w)
    else
      let n := Elementary.sqrt n2
      if isSmall w then (if 0 < w then 1 else -1) * Elementary.pi / n
      else whole 2 * Elementary.atan2 (if w < 0 then -n else n) (magnitude w) / n
  q.im.scale factor

/-- The product of quaternions. -/
def mul (p q : Quat α) : Quat α :=
  ⟨p.re * q.re - p.im.x * q.im.x - p.im.y * q.im.y - p.im.z * q.im.z,
    p.re * q.im.x + p.im.x * q.re + p.im.y * q.im.z - p.im.z * q.im.y,
    p.re * q.im.y - p.im.x * q.im.z + p.im.y * q.re + p.im.z * q.im.x,
    p.re * q.im.z + p.im.x * q.im.y - p.im.y * q.im.x + p.im.z * q.re⟩

/-- The conjugate, which is the inverse of a quaternion of unit length. -/
def conj (q : Quat α) : Quat α := ⟨q.re, q.im.neg⟩

/-- A point between a quaternion and its conjugate. -/
def apply (q : Quat α) (p : Triple α) : Triple α := ((q.mul ⟨0, p⟩).mul q.conj).im

/-- The matrix of the rotation, whatever the length of the quaternion. -/
def matrix (q : Quat α) : Dense α :=
  let norm := q.re * q.re + q.im.square
  let f := Elementary.sqrt (whole 2 / norm)
  let u0 := q.re * f
  let u1 := q.im.x * f
  let u2 := q.im.y * f
  let u3 := q.im.z * f
  Dense.ofRows 3
    [[1 - u2 * u2 - u3 * u3, u1 * u2 - u3 * u0, u1 * u3 + u2 * u0],
      [u1 * u2 + u3 * u0, 1 - u1 * u1 - u3 * u3, u2 * u3 - u1 * u0],
      [u1 * u3 - u2 * u0, u2 * u3 + u1 * u0, 1 - u1 * u1 - u2 * u2]]

/-- The quaternion stored at the head of a parameter vector. -/
def read (x : Array α) : Quat α := ⟨entry x 0, Triple.read x 1⟩

/-- How a quaternion changes with a rotation vector that moves it. -/
def rates (q : Quat α) : Dense α :=
  let h : α := half
  Dense.ofRows 3
    [[-h * q.im.x, -h * q.im.y, -h * q.im.z],
      [h * q.re, -h * q.im.z, h * q.im.y],
      [h * q.im.z, h * q.re, -h * q.im.x],
      [-h * q.im.y, h * q.im.x, h * q.re]]

end Quat

/-- Rotations of space. -/
def rotations3 : Group α where
  paramSize := 4
  tangentSize := 3
  strict := false
  move x d :=
    let q := (Quat.read x).mul (Quat.exp (Triple.read d 0))
    #[q.re, q.im.x, q.im.y, q.im.z]
  between y x :=
    let t := ((Quat.read x).conj.mul (Quat.read y)).log
    #[t.x, t.y, t.z]
  jacobian x := (Quat.read x).rates

/-- A rigid motion of space. -/
structure Motion3 (α : Type) where
  turn : Quat α
  shift : Triple α

namespace Motion3

/-- The motion of a tangent vector. -/
def exp (v omega : Triple α) : Motion3 α :=
  let turn := Quat.exp omega
  let t2 := omega.square
  let V :=
    if t2 < epsilon then turn.matrix
    else
      let t := Elementary.sqrt t2
      omega.series ((1 - Elementary.cos t) / t2) ((t - Elementary.sin t) / (t2 * t))
  ⟨turn, v.image V⟩

/-- The tangent vector of a motion: its translational part and its rotation vector. -/
def log (m : Motion3 α) : Triple α × Triple α :=
  let omega := m.turn.log
  let t2 := omega.square
  let V :=
    if t2 < epsilon then omega.series (-half) (1 / whole 12)
    else
      let t := Elementary.sqrt t2
      let h := t / whole 2
      omega.series (-half)
        ((1 - t * Elementary.cos h / (whole 2 * Elementary.sin h)) / t2)
  (m.shift.image V, omega)

/-- One motion after another. -/
def mul (p q : Motion3 α) : Motion3 α :=
  ⟨p.turn.mul q.turn, (p.turn.apply q.shift).add p.shift⟩

/-- The motion back. -/
def inv (m : Motion3 α) : Motion3 α := ⟨m.turn.conj, (m.turn.conj.apply m.shift).neg⟩

/-- The motion stored in a parameter vector. -/
def read (x : Array α) : Motion3 α := ⟨Quat.read x, Triple.read x 4⟩

end Motion3

/-- Rigid motions of space. -/
def motions3 : Group α where
  paramSize := 7
  tangentSize := 6
  strict := true
  move x d :=
    let m := (Motion3.read x).mul (Motion3.exp (Triple.read d 0) (Triple.read d 3))
    let q := m.turn
    #[q.re, q.im.x, q.im.y, q.im.z, m.shift.x, m.shift.y, m.shift.z]
  between y x :=
    let (v, omega) := ((Motion3.read x).inv.mul (Motion3.read y)).log
    #[v.x, v.y, v.z, omega.x, omega.y, omega.z]
  jacobian x :=
    let q := Quat.read x
    let M := q.matrix
    let D := q.rates
    Dense.ofFn 7 6 fun i j =>
      if i < 4 then (if 3 ≤ j then D.get i (j - 3) else 0)
      else if j < 3 then M.get (i - 4) j
      else 0

end LeastSquares.Group
