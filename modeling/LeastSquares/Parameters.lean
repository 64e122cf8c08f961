/-
  LeastSquares/Parameters.lean
  ============================
  **The settings of an optimization, read and checked.**

  Every setting has a default.  What is given is read field by field, in the order of the
  fields, and everything that is wrong is reported at once.  A changed copy is read anew from
  the fields of the settings, overridden by the changes, so the limits hold for it too.
-/
import LeastSquares.Setting
import LeastSquares.Text

namespace LeastSquares

/-! ### Choices -/

inductive DampingMode where
  /-- It is divided by the factor. -/
  | fast
  /-- It is divided by the factor, down to a lower bound. -/
  | bounded
  | cautious
deriving DecidableEq, Repr

namespace DampingMode

def name : DampingMode → String
  | fast => "fast"
  | bounded => "bounded"
  | cautious => "cautious"

def named? (name : String) : Option DampingMode :=
  [fast, bounded, cautious].find? (·.name = name)

end DampingMode

/-- How much of the iterations is reported, in increasing order. -/
inductive Verbosity where
  | silent
  | error
  | lambda
  | tryLambda
  | values
  | delta
  | tryConfig
  | tryDelta
  | linear
  | damped
deriving DecidableEq, Repr

namespace Verbosity

def all : List Verbosity :=
  [silent, error, lambda, tryLambda, values, delta, tryConfig, tryDelta, linear, damped]

def level : Verbosity → Nat
  | silent => 0
  | error => 1
  | lambda => 2
  | tryLambda => 3
  | values => 4
  | delta => 5
  | tryConfig => 6
  | tryDelta => 7
  | linear => 8
  | damped => 9

/-- The name of a level, in capital letters. -/
def name : Verbosity → String
  | silent => "SILENT"
  | error => "ERROR"
  | lambda => "LAMBDA"
  | tryLambda => "TRYLAMBDA"
  | values => "VALUES"
  | delta => "DELTA"
  | tryConfig => "TRYCONFIG"
  | tryDelta => "TRYDELTA"
  | linear => "LINEAR"
  | damped => "DAMPED"

def ofLevel? (n : Int) : Option Verbosity := all.find? fun v => (v.level : Int) = n

/-- The level that has a name, in any case of letters. -/
def named? (name : String) : Option Verbosity := all.find? fun v => v.name = Text.capitals name

theorem ofLevel?_level (v : Verbosity) : ofLevel? v.level = some v := by
  cases v <;> rfl

end Verbosity

/-- How the spanning subgraph of the iterative solver is chosen. -/
inductive SpanningTree where
  | minimum
  | breadthFirst
deriving DecidableEq, Repr

namespace SpanningTree

def name : SpanningTree → String
  | minimum => "minimum"
  | breadthFirst => "breadth_first"

def named? (name : String) : Option SpanningTree := [minimum, breadthFirst].find? (·.name = name)

end SpanningTree

/-! ### Records -/

structure IterativeParameters (α : Type) where
  maxIterations : Nat
  epsilonRel : α
  epsilonAbs : α
  spanningTree : SpanningTree
deriving Repr

structure Parameters (α : Type) where
  absoluteDecrease : α
  relativeDecrease : α
  /-- The cost at which the problem counts as solved. -/
  sumError : α
  maxIterations : Nat
  lambdaInitial : α
  lambdaFactor : α
  /-- The damping beyond which the search is given up. -/
  lambdaUpperBound : α
  lambdaMode : DampingMode
  verbosity : Verbosity
  iterative : IterativeParameters α
deriving Repr

/-! ### Reading -/

namespace Setting

variable {α : Type} [Scalar α]

def levelOf (n : Int) : Except IssueKind Verbosity :=
  match Verbosity.ofLevel? n with
  | some v => .ok v
  | none => .error .enumeration

/-- Integers of a machine word, with its sign. -/
def isWord (n : Int) : Bool :=
  decide (-Int.ofNat (Nat.pow 2 63) ≤ n) && decide (n < Int.ofNat (Nat.pow 2 63))

/-- Read a level of verbosity, by its name or by its number. -/
def toVerbosity (given : Given α) : Except IssueKind Verbosity :=
  match given with
  | .text name =>
    match Verbosity.named? name with
    | some v => .ok v
    | none => .error (.unknownVerbosity name)
  | .flag value => levelOf (if value then 1 else 0)
  | .integer n => if isWord n then levelOf n else .error .intParsingSize
  | .real x =>
    match wholeOf x with
    | .ok n => levelOf n
    | .error _ => .error .enumeration
  | _ => .error .enumeration

end Setting

open Setting (whenClean)

namespace IterativeParameters

variable {α : Type} [Scalar α]

/-- Read the settings of the iterative solver; `path` leads to them. -/
def readFields (path : List String) (fields : List (String × Given α)) :
    Setting.Reading (IterativeParameters α) :=
  let maxIterations := Setting.field fields path "max_iterations" 100 Setting.toCount
  let epsilonRel := Setting.field fields path "epsilon_rel" 1e-3 (Setting.toLimited .positive)
  let epsilonAbs := Setting.field fields path "epsilon_abs" 1e-3 (Setting.toLimited .nonnegative)
  let spanningTree := Setting.field fields path "spanning_tree" .minimum
    (Setting.toChoice SpanningTree.named? .literal)
  whenClean (maxIterations.issues ++ epsilonRel.issues ++ epsilonAbs.issues ++
      spanningTree.issues) do
    return ⟨← maxIterations, ← epsilonRel, ← epsilonAbs, ← spanningTree⟩

def read (fields : List (String × Given α)) : Except Error (IterativeParameters α) :=
  (readFields [] (Given.fieldsWithNumbers fields)).mapError .settings

/-- The settings of the iterative solver when none are given. -/
def standard : IterativeParameters α := ⟨100, 1e-3, 1e-3, .minimum⟩

def dump (p : IterativeParameters α) : List (String × Given α) :=
  [("max_iterations", .integer p.maxIterations), ("epsilon_rel", .real p.epsilonRel),
    ("epsilon_abs", .real p.epsilonAbs), ("spanning_tree", .text p.spanningTree.name)]

def readNested (fields : List (String × Given α)) :
    Setting.Reading (IterativeParameters α) :=
  match fields.lookup "iterative" with
  | none => .ok standard
  | some (.record given) => readFields ["iterative"] given
  | some _ => .error [⟨["iterative"], .model⟩]

def agrees (p q : IterativeParameters α) : Bool :=
  p.maxIterations = q.maxIterations && Scalar.same p.epsilonRel q.epsilonRel &&
    Scalar.same p.epsilonAbs q.epsilonAbs && p.spanningTree = q.spanningTree

end IterativeParameters

namespace Parameters

variable {α : Type} [Scalar α]

def readFields (fields : List (String × Given α)) : Setting.Reading (Parameters α) :=
  let real := fun name (default : α) limit =>
    Setting.field fields [] name default (Setting.toLimited limit)
  let absoluteDecrease := real "absolute_decrease" 1e-5 .nonnegative
  let relativeDecrease := real "relative_decrease" 1e-5 .nonnegative
  let sumError := real "sum_error" 0 .nonnegative
  let maxIterations := Setting.field fields [] "max_iterations" 100 Setting.toCount
  let lambdaInitial := real "lambda_initial" 1e-5 .positive
  let lambdaFactor := real "lambda_factor" 10.0 .notAtMostOne
  let lambdaUpperBound := real "lambda_upper_bound" 1e5 .positive
  let lambdaMode := Setting.field fields [] "lambda_mode" .bounded
    (Setting.toChoice DampingMode.named? .enumeration)
  let verbosity := Setting.field fields [] "verbosity" .silent Setting.toVerbosity
  let iterative := IterativeParameters.readNested fields
  whenClean (absoluteDecrease.issues ++ relativeDecrease.issues ++ sumError.issues ++
      maxIterations.issues ++ lambdaInitial.issues ++ lambdaFactor.issues ++
      lambdaUpperBound.issues ++ lambdaMode.issues ++ verbosity.issues ++ iterative.issues) do
    return ⟨← absoluteDecrease, ← relativeDecrease, ← sumError, ← maxIterations,
      ← lambdaInitial, ← lambdaFactor, ← lambdaUpperBound, ← lambdaMode, ← verbosity,
      ← iterative⟩

/-- Read settings; fields that are not known are passed over. -/
def read (fields : List (String × Given α)) : Except Error (Parameters α) :=
  (readFields (Given.fieldsWithNumbers fields)).mapError .settings

/-- The settings when none are given. -/
def standard : Parameters α :=
  ⟨1e-5, 1e-5, 0, 100, 1e-5, 10.0, 1e5, .bounded, .silent, IterativeParameters.standard⟩

def dump (p : Parameters α) : List (String × Given α) :=
  [("absolute_decrease", .real p.absoluteDecrease),
    ("relative_decrease", .real p.relativeDecrease), ("sum_error", .real p.sumError),
    ("max_iterations", .integer p.maxIterations), ("lambda_initial", .real p.lambdaInitial),
    ("lambda_factor", .real p.lambdaFactor), ("lambda_upper_bound", .real p.lambdaUpperBound),
    ("lambda_mode", .text p.lambdaMode.name), ("verbosity", .integer p.verbosity.level),
    ("iterative", .record p.iterative.dump)]

/-- The name of the settings themselves among the arguments of a change. -/
def receiver : String := "self"

/-- The settings with some of them replaced; the settings themselves are no field. -/
def withUpdates (p : Parameters α) (changes : List (String × Given α)) :
    Except Error (Parameters α) :=
  if (changes.lookup receiver).isSome then .error .badArguments else read (changes ++ p.dump)

/-- The standard settings with other thresholds on the decrease, and perhaps another level of
    verbosity. -/
def ofThresholds (given : List (Given α)) : Except Error (Parameters α) :=
  match given with
  | [absolute, relative] =>
    read [("absolute_decrease", absolute), ("relative_decrease", relative)]
  | [absolute, relative, verbosity] =>
    read [("absolute_decrease", absolute), ("relative_decrease", relative),
      ("verbosity", verbosity)]
  | _ => .error .badArguments

/-- The names of parts that the settings are kept in: their kind and their record, of which the
    first is no data. -/
def carrierNames : List String := ["__class__", "__dict__"]

def readOnlyNames : List String := ["__weakref__", "__fields_set__"]

/-- Settings are never changed in place: a name that starts with an underscore is no setting,
    and is kept beside them unless it names a part that the settings rest on; any other name is
    refused. -/
def assign (p : Parameters α) (name : Given α) : Except Error (Parameters α) :=
  match name with
  | .text name =>
    if carrierNames.elem name then .error .badArguments
    else if readOnlyNames.elem name then .error .readOnly
    else if name.startsWith "_" then .ok p
    else .error (.settings [⟨[name], .frozen⟩])
  | _ => .error .badArguments

def agrees (p q : Parameters α) : Bool :=
  Scalar.same p.absoluteDecrease q.absoluteDecrease &&
    Scalar.same p.relativeDecrease q.relativeDecrease && Scalar.same p.sumError q.sumError &&
    p.maxIterations = q.maxIterations && Scalar.same p.lambdaInitial q.lambdaInitial &&
    Scalar.same p.lambdaFactor q.lambdaFactor &&
    Scalar.same p.lambdaUpperBound q.lambdaUpperBound && p.lambdaMode = q.lambdaMode &&
    p.verbosity = q.verbosity && p.iterative.agrees q.iterative

end Parameters

end LeastSquares
