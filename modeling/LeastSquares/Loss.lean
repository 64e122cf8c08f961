/-
  LeastSquares/Loss.lean
  ======================
  **Robust losses: what a residual of a given length costs.**

  A loss has a cost and a weight.  The weight is the derivative of the cost divided by the
  length, so that the quadratic form with this weight touches the cost at the length.
-/
import LeastSquares.Tensor

namespace LeastSquares

inductive LossKind where
  | none
  | huber
  | cauchy
deriving DecidableEq, Repr

namespace LossKind

def name : LossKind → String
  | none => "none"
  | huber => "huber"
  | cauchy => "cauchy"

def named (name : String) : Except Error LossKind :=
  match [none, huber, cauchy].find? (·.name = name) with
  | some kind => .ok kind
  | Option.none => .error (.unknownLoss name)

theorem named_name (kind : LossKind) : named kind.name = .ok kind := by
  cases kind <;> rfl

end LossKind

/-- A loss on the length of a whitened residual. -/
inductive Loss (α : Type) where
  /-- Half the square of the length. -/
  | none
  /-- Quadratic up to a threshold, linear beyond it. -/
  | huber (threshold : α)
  | cauchy (width : α)
deriving Repr

namespace Loss

variable {α : Type}

def kind : Loss α → LossKind
  | none => .none
  | huber _ => .huber
  | cauchy _ => .cauchy

def name (loss : Loss α) : String := loss.kind.name

def isRobust : Loss α → Bool
  | none => false
  | _ => true

variable [Scalar α]

def cost (loss : Loss α) (length : α) : α :=
  match loss with
  | none => 0.5 * Scalar.sq length
  | huber threshold =>
    let size := Scalar.abs length
    if size ≤ threshold then 0.5 * Scalar.sq size else threshold * (size - 0.5 * threshold)
  | cauchy width =>
    let sq := Scalar.sq width
    0.5 * sq * Scalar.log1p (Scalar.sq length / sq)

def weight (loss : Loss α) (length : α) : α :=
  match loss with
  | none => 1.0
  | huber threshold =>
    let size := Scalar.abs length
    if size ≤ threshold then 1.0 else threshold / Scalar.maximum size 1e-12
  | cauchy width => 1.0 / (1.0 + Scalar.sq length / Scalar.sq width)

/-- The parameter of a loss, one when it is not given. -/
def parameter (parameters : List (String × Given α)) (name : String) : Except Error α :=
  match parameters.lookup name with
  | Option.none => .ok 1.0
  | some given => given.toNumber

/-- A parameter as a threshold that an array of lengths is compared with before it is multiplied:
    a text can not be compared, and a list, even of the right shape, can not be multiplied. -/
def checkComparable (shape : List Nat) (given : Given α) : Except Error Unit :=
  match given with
  | .text _ | .list _ => do
    let t ← Tensor.operand given
    let _ ← Tensor.commonShape shape t.shape
    return ()
  | _ => .ok ()

/-- The loss of a kind for an array of lengths of a shape; of the parameters it takes its own.
    The square of a finite scale has to be finite. -/
def ofKind (kind : LossKind) (shape : List Nat) (parameters : List (String × Given α)) :
    Except Error (Loss α) :=
  match kind with
  | .none => .ok none
  | .huber => do
    checkComparable shape ((parameters.lookup "delta").getD (.real 1.0))
    let threshold ← parameter parameters "delta"
    return huber threshold
  | .cauchy => do
    let width ← parameter parameters "sigma"
    if Scalar.isFinite width && !Scalar.isFinite (Scalar.sq width) then throw .overflow
    else return cauchy width

/-- The name of the argument of a loss, which is no parameter. -/
def argument : String := "norm"

def quadratic : String := LossKind.none.name

def choice : String := "loss_type"

/-- The name of a loss that is chosen beside its parameters or by one of them, but not twice,
    with the parameters that are left; of none the quadratic loss. -/
def chosen (number : α → String) (given : Option (Given α))
    (parameters : List (String × Given α)) :
    Except Error (String × List (String × Given α)) :=
  match given, parameters.lookup choice with
  | some _, some _ => .error .badArguments
  | some name, Option.none => .ok (name.plain number, parameters)
  | Option.none, some name =>
    .ok (name.withNumbers.plain number, parameters.filter (·.1 ≠ choice))
  | Option.none, Option.none => .ok (quadratic, parameters)

/-- The loss of a name with its parameters, among which the argument may not be. -/
def named (name : String) (parameters : List (String × Given α)) : Except Error (Loss α) :=
  if (parameters.lookup argument).isSome then .error .badArguments
  else do
    let kind ← LossKind.named name
    ofKind kind [] parameters

end Loss

end LeastSquares
