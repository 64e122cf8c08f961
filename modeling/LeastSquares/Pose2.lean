/-
  LeastSquares/Pose2.lean
  =======================
  **Planar poses: a position and a heading.**

  A pose acts on the plane by a rotation followed by a shift.  Composition, inverse and
  relative pose are those of these motions; every heading that is computed is reduced to the
  interval from `-π`, included, to `π`, excluded.
-/
import LeastSquares.Mat

namespace LeastSquares

structure Pose2 (α : Type) where
  x : α
  y : α
  heading : α
deriving Repr

namespace Pose2

variable {α : Type}

def ofVec? : Vec α → Option (Pose2 α)
  | [x, y, heading] => some ⟨x, y, heading⟩
  | _ => none

/-- The pose in an array of one axis of length three; an error names the role it has. -/
def ofTensor (role : String) (t : Tensor α) : Except Error (Pose2 α) :=
  match (if t.shape = [3] then ofVec? t.data else none) with
  | some pose => .ok pose
  | none => .error (.poseShape role t.shape)

/-- The pose in a vector; an error names the role it has. -/
def ofVec (role : String) (xs : Vec α) : Except Error (Pose2 α) := ofTensor role (.ofVector xs)

def toVec (p : Pose2 α) : Vec α := [p.x, p.y, p.heading]

variable [Scalar α]

/-- Reduce an angle to the interval from `-π`, included, to `π`, excluded. -/
def wrapAngle (angle : α) : α :=
  Scalar.floorMod (angle + Scalar.pi) (2.0 * Scalar.pi) - Scalar.pi

/-- The matrices of the rotations by several angles: two axes for the rows and the columns come
    before those of the angles. -/
def rotation (angles : Tensor α) : Tensor α :=
  let c := angles.data.map Scalar.cos
  let s := angles.data.map Scalar.sin
  ⟨2 :: 2 :: angles.shape, c ++ Vec.neg s ++ s ++ c⟩

/-- A number between a half and one, or a whole one, with the eleven binary digits of a short
    format. -/
def shortened (x : α) : α :=
  let unit : α := 2048.0
  let digits := Scalar.abs x * unit
  let rounded := Scalar.ofNat (Scalar.ceilNat (digits - 0.5)) / unit
  if x < 0 then -rounded else rounded

/-- The rotations by angles that are given.  Truth values alone are computed with in a short
    format, which rounds the cosines and sines. -/
def rotationOf (given : Given α) : Except Error (Tensor α) := do
  let t ← Tensor.ofNested given
  let angles ← Tensor.ofArguments given
  let rotations := rotation angles
  return if !t.data.isEmpty && t.data.all Given.isFlag then rotations.map shortened else rotations

/-- First the motion `b`, then the motion `a`. -/
def compose (a b : Pose2 α) : Pose2 α :=
  let c := Scalar.cos a.heading
  let s := Scalar.sin a.heading
  ⟨a.x + (c * b.x + -s * b.y), a.y + (s * b.x + c * b.y), wrapAngle (a.heading + b.heading)⟩

def invert (p : Pose2 α) : Pose2 α :=
  let c := Scalar.cos p.heading
  let s := Scalar.sin p.heading
  ⟨-c * p.x + -s * p.y, s * p.x + -c * p.y, wrapAngle (-p.heading)⟩

/-- The pose `b` as it is seen from the pose `a`. -/
def between (a b : Pose2 α) : Pose2 α := compose (invert a) b

/-- The componentwise difference from `a` to `b`, with its heading reduced. -/
def displacement (a b : Pose2 α) : Pose2 α :=
  ⟨b.x - a.x, b.y - a.y, wrapAngle (b.heading - a.heading)⟩

def origin : Pose2 α := ⟨0, 0, 0⟩

end Pose2

end LeastSquares
