/-
  LeastSquares/Tensor/Place.lean
  ==============================
  **Places in an array, along its outermost axis.**

  One part of an array is named by its number, which counts from the end when it is negative.
  Several parts are named by an array of numbers, or by a truth value for each part; a single
  truth value names the array as a whole, or nothing of it, under a new axis.
-/
import LeastSquares.Table
import LeastSquares.Tensor

namespace LeastSquares

inductive Place where
  | part (number : Int)
  /-- All of the array, or nothing of it, under a new outermost axis. -/
  | whole (taken : Bool)
  /-- Several parts, in an arrangement of their own. -/
  | parts (numbers : Tensor Int)
  /-- The parts whose truth values hold; there is one for each part. -/
  | chosen (marks : List Bool)
  | refused (cause : Error)
deriving Repr

namespace Place

variable {α : Type}

def take (t : Tensor α) : Place → Except Error (Tensor α)
  | part number =>
    match t.shape with
    | [] => .error .outOfRange
    | _ => itemAt t.parts number
  | whole taken => .ok ⟨(if taken then 1 else 0) :: t.shape, if taken then t.data else []⟩
  | parts numbers =>
    match t.shape with
    | [] => .error .outOfRange
    | _ :: inner => do
      let taken ← numbers.data.mapM fun number => itemAt t.parts number
      return ⟨numbers.shape ++ inner, taken.flatMap (·.data)⟩
  | chosen marks =>
    match t.shape with
    | [] => .error .outOfRange
    | length :: inner =>
      if marks.length = length then
        let taken := ((t.parts.zip marks).filter (·.2)).map (·.1)
        .ok ⟨taken.length :: inner, taken.flatMap (·.data)⟩
      else .error .outOfRange
  | refused cause => .error cause

def mark? : Given α → Option Bool
  | .flag b => some b
  | _ => none

def ofList (given : Given α) : Place :=
  match Tensor.ofNested given with
  | .error cause => refused cause
  | .ok t =>
    match t.shape, t.data.mapM mark? with
    | _, some [] => parts ⟨t.shape, []⟩
    | [_], some marks => chosen marks
    | _, some _ => refused .outOfRange
    | shape, none =>
      match t.data.mapM Given.toInt with
      | .ok numbers => parts ⟨shape, numbers⟩
      | .error _ => refused .outOfRange

/-- The place that is given; what is neither a number nor a truth value names none, and nothing
    stands for the array as a whole. -/
def ofGiven : Given α → Place
  | .integer n => part n
  | .flag taken => whole taken
  | .null => whole true
  | .list items => ofList (.list items)
  | _ => refused .outOfRange

end Place

end LeastSquares
