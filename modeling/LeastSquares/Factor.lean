/-
  LeastSquares/Factor.lean
  ========================
  **Factors: measurements of a few variables, with their noise.**

  A measurement says what the variables should satisfy; its residual is what they miss it by.
  Whitened by the noise the residual has unit standard deviations, and the loss of the noise
  turns it into a cost.  Around an estimate a factor is replaced by a linear factor, whose
  residual is the whitened residual to first order, scaled by the root of the weight of the
  loss.
-/
import LeastSquares.Derivative
import LeastSquares.Formula
import LeastSquares.Linear.Factor
import LeastSquares.Noise
import LeastSquares.Pose2

namespace LeastSquares

/-! ### Measurements -/

inductive Measurement (α : Type) where
  | prior (key : Key) (value : Tensor α)
  /-- The difference from a first variable to a second. -/
  | between (first second : Key) (value : Tensor α)
  | range (first second : Key) (distance : α)
  | posePrior (key : Key) (pose : Tensor α)
  /-- A second planar pose as it is seen from a first. -/
  | poseBetween (first second : Key) (pose : Tensor α)
  /-- Whatever a given function of the variables returns should be zero; its derivative, an
      array for each variable, may be given too. -/
  | custom (keys : List Key) (function : List (Vec α) → Except Error (Vec α))
      (derivative : Option (List (Vec α) → Except Error (List (Tensor α))))

namespace Measurement

variable {α : Type}

def keys : Measurement α → List Key
  | prior key _ => [key]
  | between first second _ => [first, second]
  | range first second _ => [first, second]
  | posePrior key _ => [key]
  | poseBetween first second _ => [first, second]
  | custom keys _ _ => keys

def kind : Measurement α → String
  | prior .. => "PriorFactor"
  | between .. => "BetweenFactor"
  | range .. => "RangeFactor"
  | posePrior .. => "Pose2PriorFactor"
  | poseBetween .. => "Pose2BetweenFactor"
  | custom .. => "FunctionFactor"

variable [Scalar α]

def poseResidual (first second : Key) (pose : Tensor α) (point : Table (Vec α)) :
    Except Error (Vec α) := do
  let a ← point.find first
  let b ← point.find second
  let a ← Pose2.ofVec "pose" a
  let b ← Pose2.ofVec "b" b
  let measured ← Pose2.ofTensor "a" pose
  return (Pose2.displacement measured (Pose2.between a b)).toVec

def functionResidual (keys : List Key) (function : List (Vec α) → Except Error (Vec α))
    (point : Table (Vec α)) : Except Error (Vec α) := do
  let arguments ← keys.mapM fun key => point.find key
  function arguments

/-- What the variables miss a measurement by. -/
def residual (m : Measurement α) (point : Table (Vec α)) : Except Error (Tensor α) :=
  match m with
  | prior key value => do
    let x ← point.find key
    Tensor.combine (· - ·) (.ofVector x) value
  | between first second value => do
    let b ← point.find second
    let a ← point.find first
    let difference ← combine (· - ·) b a
    Tensor.combine (· - ·) (.ofVector difference) value
  | range first second distance => do
    let b ← point.find second
    let a ← point.find first
    let difference ← combine (· - ·) b a
    return .ofVector [Vec.norm difference - distance]
  | posePrior key pose => do
    let x ← point.find key
    let measured ← Pose2.ofTensor "a" pose
    let actual ← Pose2.ofVec "b" x
    return .ofVector (Pose2.displacement measured actual).toVec
  | poseBetween first second pose =>
    (poseResidual first second pose point).map .ofVector
  | custom keys function _ => (functionResidual keys function point).map .ofVector

/-- The step of the difference quotients that stand in for a derivative. -/
def differenceStep : α := 1e-6

/-- Two points that are closer than this have no direction from one to the other. -/
def coincidence : α := 1e-12

/-- The unit vector along a difference of two points, or zero when they coincide. -/
def direction (difference : Vec α) : Vec α :=
  let distance := Vec.norm difference
  if distance < coincidence then Vec.zeros difference.length
  else difference.map (· / distance)

/-- The derivative of the residual in each variable: in closed form where there is one, by
    difference quotients otherwise. -/
def derivative (m : Measurement α) (point : Table (Vec α)) : Except Error (Table (Mat α)) :=
  match m with
  | prior key value => .ok [(key, Mat.identity value.outerLength)]
  | between first second value =>
    .ok [(first, (Mat.identity value.outerLength).neg),
      (second, Mat.identity value.outerLength)]
  | range first second _ => do
    let b ← point.find second
    let a ← point.find first
    let difference ← combine (· - ·) b a
    let unit := direction difference
    return [(first, ⟨unit.length, [Vec.neg unit]⟩), (second, ⟨unit.length, [unit]⟩)]
  | posePrior key _ => .ok [(key, Mat.identity 3)]
  | poseBetween first second pose =>
    Derivative.blocks (poseResidual first second pose) point [first, second] differenceStep
  | custom keys function none =>
    Derivative.blocks (functionResidual keys function) point keys differenceStep
  | custom keys _ (some given) => do
    let arguments ← keys.mapM fun key => point.find key
    let arrays ← given arguments
    let blocks ← arrays.mapM Mat.ofTensor
    return keys.zip blocks

/-- The derivative of the residual in each variable as arrays, with those that are given as they
    are given. -/
def derivativeArrays (m : Measurement α) (point : Table (Vec α)) :
    Except Error (Table (Tensor α)) :=
  match m with
  | custom keys _ (some given) => do
    let arguments ← keys.mapM fun key => point.find key
    let arrays ← given arguments
    return keys.zip arrays
  | m => (m.derivative point).map fun blocks => blocks.mapEntries Mat.toTensor

end Measurement

/-! ### Factors -/

/-- A measurement with its noise, and the name it has in a graph. -/
structure Factor (α : Type) where
  measurement : Measurement α
  /-- The noise of the measurement; without it the factor has no cost. -/
  noise : Option (Noise α)
  /-- The name of the factor, which a graph gives to a factor that has none. -/
  id : Option String

namespace Factor

variable {α : Type}

def keys (f : Factor α) : List Key := f.measurement.keys

def label (f : Factor α) : String := f.id.getD "None"

def shown (f : Factor α) : String :=
  let id := (f.id.map Text.quoted).getD "None"
  s!"{f.measurement.kind}(id={id}, keys={Key.shownList f.keys})"

/-- The noise, where it is needed. -/
def needNoise (noise : Option (Noise α)) : Except Error (Noise α) :=
  match noise with
  | some noise => .ok noise
  | none => .error .absentObject

theorem needNoise_eq_ok {given : Option (Noise α)} {noise : Noise α} :
    needNoise given = .ok noise ↔ given = some noise := by
  cases given <;> simp [needNoise]

def dim (f : Factor α) : Except Error Nat := (needNoise f.noise).map Noise.dim

/-! ### Construction -/

/-- The variables of a factor have to be different. -/
def checkKeys (keys : List Key) : Except Error Unit :=
  if (distinct keys).length = keys.length then .ok () else .error (.repeatedKeys keys)

/-- A factor of a given function; without a derivative its derivative is taken numerically. -/
def custom (keys : List Key) (function : List (Vec α) → Except Error (Vec α))
    (noise : Option (Noise α))
    (derivative : Option (List (Vec α) → Except Error (List (Tensor α)))) (id : Option String) :
    Except Error (Factor α) := do
  checkKeys keys
  return ⟨.custom keys function derivative, noise, id⟩

variable [Scalar α]

/-- A measured array, whose outermost axis has to have the length that the noise is for. -/
def measuredArray (value : Tensor α) (noise : Option (Noise α)) (refusal : Nat → Nat → Error) :
    Except Error (Tensor α) := do
  let given := value.atLeastVector
  let noise ← needNoise noise
  if given.outerLength = noise.dim then return given
  else throw (refusal given.outerLength noise.dim)

def prior (key : Key) (value : Tensor α) (noise : Option (Noise α)) (id : Option String) :
    Except Error (Factor α) := do
  let value ← measuredArray value noise .priorSize
  return ⟨.prior key value, noise, id⟩

def between (first second : Key) (value : Tensor α) (noise : Option (Noise α))
    (id : Option String) : Except Error (Factor α) := do
  checkKeys [first, second]
  let value ← measuredArray value noise .measurementSize
  return ⟨.between first second value, noise, id⟩

/-- Noise of a given size; standard deviation one when no noise is given. -/
def noiseOfSize (noise : Option (Noise α)) (dim : Nat) (refusal : Error) :
    Except Error (Noise α) := do
  let noise ← (match noise with
    | some noise => .ok noise
    | none => Noise.unit dim : Except Error (Noise α))
  if noise.dim = dim then return noise else throw refusal

def range (first second : Key) (distance : Given α) (noise : Option (Noise α))
    (id : Option String) : Except Error (Factor α) := do
  let noise ← noiseOfSize noise 1 .rangeNoise
  checkKeys [first, second]
  let distance ← distance.toReal
  return ⟨.range first second distance, some noise, id⟩

def posePrior (key : Key) (pose : Given α) (noise : Option (Noise α)) (id : Option String) :
    Except Error (Factor α) := do
  let noise ← noiseOfSize noise 3 .posePriorNoise
  let pose ← Tensor.ofGiven pose
  return ⟨.posePrior key pose, some noise, id⟩

def poseBetween (first second : Key) (pose : Given α) (noise : Option (Noise α))
    (id : Option String) : Except Error (Factor α) := do
  let noise ← noiseOfSize noise 3 .poseBetweenNoise
  checkKeys [first, second]
  let pose ← Tensor.ofGiven pose
  return ⟨.poseBetween first second pose, some noise, id⟩

def ofGiven (number : α → String) (g : Given α) : Except Error (Factor α) := do
  let noise ← Noise.ofGiven number (g.field "noise")
  let z := g.field "z"
  let id := (g.some? "id").map Given.str
  match (g.field "type").str, (g.field "keys").keys with
  | "prior", [key] => do
    let value ← Tensor.ofGiven z
    prior key value noise id
  | "between", [first, second] => do
    checkKeys [first, second]
    let value ← Tensor.ofGiven z
    between first second value noise id
  | "range", [first, second] => range first second z noise id
  | "pose2prior", [key] => posePrior key z noise id
  | "pose2between", [first, second] => poseBetween first second z noise id
  | "function", keys =>
    let fn := g.field "fn"
    custom keys (Formula.vectorFunctionOf fn) noise (Formula.vectorDerivativeOf fn) id
  | _, _ => throw .badArguments

/-! ### Evaluation -/

def residual (f : Factor α) (point : Table (Vec α)) : Except Error (Tensor α) :=
  f.measurement.residual point

/-- The residual in units of its standard deviations. -/
def whitened (f : Factor α) (point : Table (Vec α)) : Except Error (Tensor α) := do
  let noise ← needNoise f.noise
  let r ← f.residual point
  noise.whiten r

def cost (f : Factor α) (point : Table (Vec α)) : Except Error α := do
  let noise ← needNoise f.noise
  (f.whitened point).map noise.cost

/-- The whitened derivative in one variable, which has to be as high as the residual and as
    wide as the variable. -/
def whitenedBlock (f : Factor α) (noise : Noise α) (point : Table (Vec α)) (height : Nat)
    (derivative : Table (Mat α)) (key : Key) : Except Error (Key × Mat α) := do
  let given ← derivative.find key
  let block ← noise.whitenMat given
  let x ← point.find key
  if block.height = height ∧ block.width = x.length then return (key, block)
  else throw (.jacobianShape f.label key [block.height, block.width] [height, x.length])

/-- The linear factor that stands for a factor around a point. -/
def linearize (f : Factor α) (point : Table (Vec α)) : Except Error (LinearFactor α) := do
  let noise ← needNoise f.noise
  let r ← f.whitened point
  let derivative ← f.measurement.derivative point
  let blocks ← f.keys.mapM (f.whitenedBlock noise point r.outerLength derivative)
  let rhs := r.map fun x => -x
  if noise.loss.isRobust then
    let scale := Scalar.sqrt (noise.weight r)
    LinearFactor.make (Table.mapEntries blocks (·.scale scale)) (rhs.map fun x => scale * x)
  else LinearFactor.make blocks rhs

end Factor

end LeastSquares
