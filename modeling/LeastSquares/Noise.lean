/-
  LeastSquares/Noise.lean
  =======================
  **Noise models: one standard deviation for each component of a residual, and a loss.**

  Whitening divides each component by its standard deviation.  The loss then acts on the
  length of the whole whitened residual.
-/
import LeastSquares.Loss
import LeastSquares.Mat

namespace LeastSquares

/-- Independent noise in each component, with a loss. -/
structure Noise (α : Type) where
  sigmas : Vec α
  loss : Loss α
deriving Repr

namespace Noise

variable {α : Type}

/-- The length of the residuals that the model is for. -/
def dim (noise : Noise α) : Nat := noise.sigmas.length

def shown (number : α → String) (noise : Noise α) : String :=
  let sigmas := Text.bracketed (noise.sigmas.map number)
  if noise.loss.isRobust then
    s!"NoiseModel(sigmas={sigmas}, loss={Text.quoted noise.loss.name})"
  else s!"NoiseModel(sigmas={sigmas})"

variable [Scalar α]

/-- Standard deviations are acceptable when there is at least one and none is at most zero. -/
def checkSigmas (t : Tensor α) : Except Error (Vec α) :=
  match t.vector? with
  | some (x :: xs) =>
    if (x :: xs).any fun sigma => decide (sigma ≤ 0) then .error .sigmasSign else .ok (x :: xs)
  | _ => .error .sigmasShape

/-! ### Construction -/

/-- The names of what a model is made of, which are no parameters of its loss. -/
def partNames : List String := ["self", "sigmas", Loss.choice]

/-- The parameters of a loss may not have the name of a part of the model. -/
def checkNames (parameters : List (String × Given α)) : Except Error Unit :=
  if parameters.any fun row => partNames.elem row.1 then .error .badArguments else .ok ()

/-- The model with the standard deviations in an array and a named loss. -/
def ofTensor (sigmas : Tensor α) (loss : String) (parameters : List (String × Given α)) :
    Except Error (Noise α) := do
  let sigmas ← checkSigmas sigmas
  let loss ← Loss.named loss parameters
  return ⟨sigmas, loss⟩

def make (sigmas : Given α) (loss : String) (parameters : List (String × Given α)) :
    Except Error (Noise α) := do
  checkNames parameters
  let given ← Tensor.ofGiven sigmas
  ofTensor given loss parameters

/-- The model with given standard deviations and the quadratic loss. -/
def diagonal (sigmas : Given α) : Except Error (Noise α) := make sigmas Loss.quadratic []

def isotropic (dim : Int) (sigma : α) : Except Error (Noise α) :=
  if dim < 0 then .error .negativeSize
  else ofTensor (.ofVector (List.replicate dim.toNat sigma)) Loss.quadratic []

def unit (dim : Int) : Except Error (Noise α) := isotropic dim 1

def robust (noise : Noise α) (loss : String) (parameters : List (String × Given α)) :
    Except Error (Noise α) := do
  checkNames parameters
  ofTensor (.ofVector noise.sigmas) loss parameters

/-! ### Description -/

/-- A part of an array as a number.  Beside a text every part counts as a text, and that of a
    truth value spells no number. -/
def partOf (parts : List (Given α)) (part : Given α) : Except Error α :=
  if part.isFlag && parts.any Given.isText && !parts.any Given.isForeign then .error .notNumeric
  else part.toEntry

/-- The model with one standard deviation, or one for each component, in an array of given
    lengths.  Only what is written into the array is read. -/
def filled (lengths sigma : Given α) : Except Error (Noise α) := do
  let given ← Tensor.ofNested sigma
  let lengths ← lengths.lengths
  let shape ← Tensor.checkShape lengths
  let parts ← given.written shape
  let sigmas ← parts.mapM (partOf given.data)
  ofTensor ⟨shape, sigmas⟩ Loss.quadratic []

/-- The model that a description names: by its dimension, by its standard deviations, or by
    these and a loss. -/
def plainOfGiven (number : α → String) (g : Given α) : Except Error (Noise α) :=
  match g.get? "isotropic", g.get? "unit", g.get? "diagonal" with
  | some given, _, _ =>
    match given.items with
    | [dim, sigma] => filled dim sigma
    | _ => .error .badArguments
  | _, some dim, _ => filled dim (.real 1)
  | _, _, some given => diagonal given
  | _, _, _ => do
    let given ← g.arguments "params"
    let (loss, parameters) ← Loss.chosen number (g.get? "loss") given
    make (g.field "sigmas") loss parameters

/-- The model of a description, with its loss replaced as often as the description says; nothing
    describes no model. -/
def ofGiven (number : α → String) (g : Given α) : Except Error (Option (Noise α)) :=
  match g with
  | .null => .ok none
  | g => do
    let plain ← plainOfGiven number g
    let noise ← (g.field "robust").items.foldlM (fun (noise : Noise α) given =>
      match given.items with
      | [name, .record parameters] => noise.robust (name.plain number) parameters
      | [name] | [name, .null] => noise.robust (name.plain number) []
      | _ => throw .badArguments) plain
    return some noise

/-! ### Use -/

/-- Divide each component by its standard deviation; of an array of more axes, along the
    last. -/
def whiten (noise : Noise α) (residual : Tensor α) : Except Error (Tensor α) :=
  Tensor.combine (· / ·) residual (.ofVector noise.sigmas)

theorem whiten_ofVector (noise : Noise α) (r : Vec α) :
    noise.whiten (.ofVector r) = (combine (· / ·) r noise.sigmas).map Tensor.ofVector := rfl

def whitenMat (noise : Noise α) (m : Mat α) : Except Error (Mat α) :=
  (combine (fun row sigma => row.map (· / sigma)) m.rows noise.sigmas).map fun rows =>
    ⟨m.width, rows⟩

def whitenColumns (noise : Noise α) (t : Tensor α) : Except Error (Tensor α) :=
  Tensor.combine (· / ·) t ⟨[noise.dim, 1], noise.sigmas⟩

def cost (noise : Noise α) (whitened : Tensor α) : α := noise.loss.cost (Vec.norm whitened.data)

def weight (noise : Noise α) (whitened : Tensor α) : α :=
  noise.loss.weight (Vec.norm whitened.data)

end Noise

end LeastSquares
