/-
  LeastSquares/Derivative/OfArrays.lean
  =====================================
  **Derivatives of functions of arrays, and the check of a given derivative.**

  An array moves along its outermost axis: each part of it is one coordinate, and all numbers of
  a part move together.  A value of the function counts by its outermost axis too, and has to
  fit into one column.

  The step is looked at when it is used: without a coordinate it never is.  It may be an array
  when the parts have axes.
-/
import LeastSquares.Derivative

namespace LeastSquares

abbrev ArrayFunction (α : Type) := Tensor α → Except Error (Tensor α)

namespace Derivative

variable {α : Type} [Scalar α]

/-! ### Steps -/

/-- Move a single number by a step.  A list is no step of a number, whatever it holds. -/
def moveNumber (move : α → α → α) (x : α) (step : Given α) : Except Error α :=
  match step with
  | .text _ => .error .operandKind
  | .list _ => do
    let t ← Tensor.operand step
    let _ ← t.data.mapM Given.toNumber
    throw .shapeMismatch
  | _ => (step.toNumber).map (move x)

/-- Move a part of an array that has axes: the step is repeated to its shape. -/
def movePart (move : α → α → α) (part : Tensor α) (step : Given α) : Except Error (Tensor α) := do
  let t ← Tensor.ofNested step
  let foreign : Given α → Bool := match step with
    | .integer _ => fun _ => false
    | _ => Given.isForeign
  if t.data.any fun entry => entry.isText || foreign entry then throw .operandKind
  let data ← t.data.mapM Given.toNumber
  let moved ← Tensor.combine move part ⟨t.shape, data⟩
  if moved.shape = part.shape then return moved else throw .shapeMismatch

def moveAt (move : α → α → α) (x : Tensor α) (place : Nat) (step : Given α) :
    Except Error (Tensor α) := do
  let step := step.withNumbers
  let part ← itemAt x.parts place
  let moved ← (match part.shape with
    | [] => (moveNumber move (part.data.headD 0) step).map Tensor.single
    | _ => movePart move part step : Except Error (Tensor α))
  return ⟨x.shape, (x.parts.set place moved).flatMap (·.data)⟩

/-- Twice a step: a list is repeated. -/
def doubled : Given α → Given α
  | .integer n => .integer (2 * n)
  | .flag b => .integer (if b then 2 else 0)
  | .real x => .real (2.0 * x)
  | .list items => .list (items ++ items)
  | other => other

def dividedBy (t : Tensor α) (step : Given α) : Except Error (Tensor α) := do
  let divisor ← Tensor.ofNumbers step
  Tensor.combine (· / ·) t divisor

/-! ### Difference quotients -/

/-- The value of a function, with an axis at least. -/
def valueAt (f : ArrayFunction α) (x : Tensor α) : Except Error (Tensor α) :=
  (f x).map Tensor.atLeastVector

/-- The difference quotient of a function in one coordinate; `start` is its value at `x`. -/
def quotientOf (side : Difference) (f : ArrayFunction α) (start x : Tensor α) (h : Given α)
    (place : Nat) : Except Error (Tensor α) :=
  match side with
  | .forward => do
    let forth ← moveAt (· + ·) x place h
    let ahead ← valueAt f forth
    let change ← Tensor.combine (· - ·) ahead start
    dividedBy change h
  | .central => do
    let forth ← moveAt (· + ·) x place h
    let back ← moveAt (· - ·) x place h
    let ahead ← valueAt f forth
    let behind ← valueAt f back
    let change ← Tensor.combine (· - ·) ahead behind
    dividedBy change (doubled h.withNumbers)

/-- The matrix of difference quotients of a kind that is given by its name: one column for each
    coordinate.  The function is evaluated before the name is looked at. -/
def ofFunction (name : String) (f : ArrayFunction α) (x : Tensor α) (h : Given α) :
    Except Error (Mat α) := do
  let x := x.atLeastVector
  let start ← valueAt f x
  let side ← Difference.named name
  let height := start.outerLength
  let columns ← (List.range x.outerLength).mapM fun place => do
    let entries ← quotientOf side f start x h place
    entries.written [height]
  return ⟨x.outerLength, (List.range height).map fun i => columns.map (·.getD i 0)⟩

def usual : String := "central"

/-- The central difference quotients of a function of several arrays, one matrix for each of the
    given variables; only the array that moves gets an axis. -/
def blocksOf (f : Table (Tensor α) → Except Error (Tensor α)) (point : Table (Tensor α))
    (keys : List Key) (h : Given α) : Except Error (Table (Mat α)) := do
  let rows ← keys.mapM fun key => do
    let x ← Table.find point key
    let block ← ofFunction usual (fun moved => f (point.set key moved)) x h
    return (key, block)
  return Table.ofRows rows

/-! ### Checks -/

/-- What a check of a given derivative finds. -/
structure Check (α : Type) where
  agrees : Bool
  /-- The greatest error of an entry, zero when there is none. -/
  maxError : α
  errors : Tensor α

def compare (absolute relative : Given α) (analytic numeric : Tensor α) :
    Except Error (Check α) := do
  let errors ← Tensor.combine (fun a b => Scalar.abs (a - b)) analytic numeric
  let agrees ← Tensor.close absolute relative analytic numeric
  return ⟨agrees, (Vec.maxAbs? errors.data).getD 0, errors⟩

/-- Compare the derivative that is given at a point with the central difference quotients. -/
def check (f : ArrayFunction α) (given : Except Error (Tensor α)) (x : Tensor α)
    (h absolute relative : Given α) : Except Error (Check α) := do
  let analytic ← given
  let numeric ← ofFunction usual f x h
  compare absolute relative analytic numeric.toTensor

end Derivative

end LeastSquares
