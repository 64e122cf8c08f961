/-
  LeastSquares/Formula.lean
  =========================
  **Residuals that are written as formulas.**

  A formula is built from numbers and the components of its arguments, which are vectors or
  arrays of more axes; a component is what stands at a place of such an array.
  Operations go entry by entry.  A component that is not there fails, and so does a description
  that is no formula, but only when it is evaluated.
-/
import LeastSquares.Mat
import LeastSquares.Tensor.Place

namespace LeastSquares

/-- A formula in the components of several arrays. -/
inductive Formula (α : Type) where
  | constant (value : α)
  | component (argument : Int) (place : Place)
  | negative (e : Formula α)
  | sin (e : Formula α)
  | cos (e : Formula α)
  | exp (e : Formula α)
  | sqrt (e : Formula α)
  | abs (e : Formula α)
  | sum (a b : Formula α)
  | difference (a b : Formula α)
  | product (a b : Formula α)
  | ratio (a b : Formula α)
  | failing (cause : Error)
deriving Repr

namespace Formula

variable {α : Type} [Scalar α]

/-! ### Values -/

def eval (arguments : List (Tensor α)) : Formula α → Except Error (Tensor α)
  | constant value => .ok (.single value)
  | component argument place => do
    let x ← itemAt arguments argument
    place.take x
  | negative e => (eval arguments e).map (·.map fun x => -x)
  | sin e => (eval arguments e).map (·.map Scalar.sin)
  | cos e => (eval arguments e).map (·.map Scalar.cos)
  | exp e => (eval arguments e).map (·.map Scalar.exp)
  | sqrt e => (eval arguments e).map (·.map Scalar.sqrt)
  | abs e => (eval arguments e).map (·.map Scalar.abs)
  | sum a b => do
    let x ← eval arguments a
    let y ← eval arguments b
    Tensor.combine (· + ·) x y
  | difference a b => do
    let x ← eval arguments a
    let y ← eval arguments b
    Tensor.combine (· - ·) x y
  | product a b => do
    let x ← eval arguments a
    let y ← eval arguments b
    Tensor.combine (· * ·) x y
  | ratio a b => do
    let x ← eval arguments a
    let y ← eval arguments b
    Tensor.combine (· / ·) x y
  | failing cause => .error cause

/-- The array of the values of several formulas, which have to be of one shape. -/
def evalAll (formulas : List (Formula α)) (arguments : List (Tensor α)) :
    Except Error (Tensor α) := do
  let values ← formulas.mapM (eval arguments)
  Tensor.stack values

def evalRows (rows : List (List (Formula α))) (arguments : List (Tensor α)) :
    Except Error (Tensor α) := do
  let values ← rows.mapM fun row => row.mapM (eval arguments)
  let stacked ← values.mapM Tensor.stack
  Tensor.stack stacked

/-! ### Description -/

def componentOf (argument place : Given α) : Formula α :=
  match argument.toInt with
  | .ok i => component i (Place.ofGiven place)
  | .error e => failing e

def unary? (name : String) : Option (Formula α → Formula α) :=
  [("neg", negative), ("sin", sin), ("cos", cos), ("exp", exp), ("sqrt", sqrt),
    ("abs", abs)].lookup name

def binary? (name : String) : Option (Formula α → Formula α → Formula α) :=
  [("+", sum), ("-", difference), ("*", product), ("/", ratio)].lookup name

def componentName : String := "x"

/-- An operation by its name and its operands, each of which is a description and the formula it
    stands for; operands beyond the needed ones are passed over. -/
def operation (name : String) (operands : List (Given α × Formula α)) : Formula α :=
  if name = componentName then
    match operands with
    | (i, _) :: (j, _) :: _ => componentOf i j
    | [(i, _)] => componentOf i (.text "")
    | [] => failing .outOfRange
  else
    match unary? name, binary? name, operands with
    | some f, _, (_, a) :: _ => f a
    | _, some f, (_, a) :: (_, b) :: _ => f a b
    | _, some f, [(_, a)] => f a (failing .outOfRange)
    | none, none, _ => failing .absentKey
    | _, _, [] => failing .outOfRange

mutual

def ofGiven : Given α → Formula α
  | .list [] => failing .outOfRange
  | .list (head :: operands) => operation head.str (ofOperands operands)
  | other =>
    match other.toEntry with
    | .ok x => constant x
    | .error e => failing e

def ofOperands : List (Given α) → List (Given α × Formula α)
  | [] => []
  | operand :: rest => (operand, ofGiven operand) :: ofOperands rest

end

/-- The items of what has to be a list. -/
def listed : Given α → Except Error (List (Given α))
  | .list items => .ok items
  | _ => .error .badArguments

def rowsOf (g : Given α) : Except Error (List (List (Formula α))) := do
  let rows ← listed g
  rows.mapM fun row => (listed row).map (·.map ofGiven)

/-- The residual function of a description: the values of all formulas, or the bare first one
    of them. -/
def functionOf (fn : Given α) : List (Tensor α) → Except Error (Tensor α) :=
  let formulas := (fn.field "exprs").items.map ofGiven
  if (fn.field "scalar").holds then fun arguments => do
    let values ← formulas.mapM (eval arguments)
    itemAt values 0
  else evalAll formulas

/-- The derivative of a description, if it gives one: an array for each argument. -/
def derivativeOf (fn : Given α) : Option (List (Tensor α) → Except Error (List (Tensor α))) :=
  (fn.some? "jac").map fun blocks =>
    let blocks := blocks.items.map rowsOf
    fun arguments => blocks.mapM fun block => do
      let rows ← block
      evalRows rows arguments

/-- The residual function of a description as a function of vectors. -/
def vectorFunctionOf (fn : Given α) (arguments : List (Vec α)) : Except Error (Vec α) := do
  let value ← functionOf fn (arguments.map .ofVector)
  match value.vector? with
  | some xs => return xs
  | none => throw .shapeMismatch

def vectorDerivativeOf (fn : Given α) :
    Option (List (Vec α) → Except Error (List (Tensor α))) :=
  (derivativeOf fn).map fun derivative arguments => derivative (arguments.map .ofVector)

end Formula

end LeastSquares
