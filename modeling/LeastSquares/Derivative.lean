/-
  LeastSquares/Derivative.lean
  ============================
  **Derivatives by finite differences, and the check of a given derivative against them.**

  A central difference looks a step ahead and a step back, a forward difference only ahead.
  The derivative of a function of several variables is taken one variable at a time, with all
  others held where they are.
-/
import LeastSquares.Mat
import LeastSquares.Table

namespace LeastSquares

abbrev VecFunction (α : Type) := Vec α → Except Error (Vec α)

/-- The side on which a difference is taken. -/
inductive Difference where
  | forward
  | central
deriving DecidableEq, Repr

namespace Difference

def named (name : String) : Except Error Difference :=
  if name = "forward" then .ok forward
  else if name = "central" then .ok central
  else .error (.unknownDifference name)

variable {α : Type} [Scalar α]

/-- The difference quotient of a function in one coordinate; `start` is its value at `x`. -/
def quotient (side : Difference) (f : VecFunction α) (start x : Vec α) (h : α) (place : Nat) :
    Except Error (Vec α) :=
  match side with
  | forward => do
    let ahead ← f (Vec.addAt x place h)
    let change ← combine (· - ·) ahead start
    return change.map (· / h)
  | central => do
    let ahead ← f (Vec.addAt x place h)
    let behind ← f (Vec.addAt x place (-h))
    let change ← combine (· - ·) ahead behind
    return change.map (· / (2.0 * h))

end Difference

namespace Derivative

variable {α : Type} [Scalar α]

/-- A column of a given height; a single entry is repeated. -/
def column (height : Nat) (entries : Vec α) : Except Error (Vec α) :=
  if (stretch height entries).length = height then .ok (stretch height entries)
  else .error .shapeMismatch

/-- The matrix of difference quotients: one column for each coordinate. -/
def jacobian (side : Difference) (f : VecFunction α) (x : Vec α) (h : α) :
    Except Error (Mat α) := do
  let start ← f x
  let columns ← (List.range x.length).mapM fun place => do
    let entries ← side.quotient f start x h place
    column start.length entries
  return ⟨x.length, (List.range start.length).map fun i => columns.map (·.getD i 0)⟩

/-- The central difference quotients of a function of several variables in one of them, whose
    value is given, with the others held at a point. -/
def block (f : Table (Vec α) → Except Error (Vec α)) (point : Table (Vec α)) (key : Key)
    (x : Vec α) (h : α) : Except Error (Mat α) :=
  jacobian .central (fun moved => f (point.set key moved)) x h

/-- The central difference quotients of a function of several variables, one matrix for each
    of the given variables. -/
def blocks (f : Table (Vec α) → Except Error (Vec α)) (point : Table (Vec α)) (keys : List Key)
    (h : α) : Except Error (Table (Mat α)) := do
  let rows ← keys.mapM fun key => do
    let x ← point.find key
    let block ← block f point key x h
    return (key, block)
  return Table.ofRows rows

end Derivative

end LeastSquares
