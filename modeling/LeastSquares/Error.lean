/-
  LeastSquares/Error.lean
  =======================
  **Why an operation fails.**

  Each cause is a constructor with what it is about; the wording is in `Error.message?`.  The
  causes of the last group come from the arithmetic and from look-ups, and have no wording of
  their own.
-/
import LeastSquares.Key

namespace LeastSquares

/-! ### Settings -/

/-- What is wrong with one setting. -/
inductive IssueKind where
  | greaterThan
  | greaterThanEqual
  | intType
  | intParsing
  | intParsingSize
  | intFromFloat
  | finiteNumber
  | floatType
  | floatParsing
  | enumeration
  | literal
  | model
  | frozen
  | factorTooSmall
  | unknownVerbosity (name : String)
deriving DecidableEq, Repr

/-- A setting that is refused, by its path from the outermost object. -/
structure Issue where
  path : List String
  kind : IssueKind
deriving DecidableEq, Repr

def IssueKind.message? : IssueKind → Option String
  | .factorTooSmall => some "Value error, lambda_factor must be greater than 1"
  | .unknownVerbosity name => some ("Value error, Unknown verbosity level: " ++ name)
  | _ => none

def IssueKind.code : IssueKind → String
  | .greaterThan => "greater_than"
  | .greaterThanEqual => "greater_than_equal"
  | .intType => "int_type"
  | .intParsing => "int_parsing"
  | .intParsingSize => "int_parsing_size"
  | .intFromFloat => "int_from_float"
  | .finiteNumber => "finite_number"
  | .floatType => "float_type"
  | .floatParsing => "float_parsing"
  | .enumeration => "enum"
  | .literal => "literal_error"
  | .model => "model_type"
  | .frozen => "frozen_instance"
  | .factorTooSmall => "value_error"
  | .unknownVerbosity _ => "value_error"

/-! ### Causes -/

inductive Error where
  | duplicateVariable (key : Key)
  /-- A variable is updated that is not there. -/
  | unknownVariable (key : Key)
  | notVector (key : Key) (shape : List Nat)
  /-- An update changes the size of a variable. -/
  | resized (key : Key) (size expected : Nat)
  /-- A step has another size than its variable. -/
  | stepSize (key : Key) (size expected : Nat)
  /-- A stacked vector ends inside a block. -/
  | shortVector (key : Key)
  /-- A stacked vector goes on after the last block. -/
  | longVector (used : Int) (length : Nat)
  /-- Standard deviations are no vector, or none is given. -/
  | sigmasShape
  /-- A standard deviation is not positive. -/
  | sigmasSign
  | unknownLoss (name : String)
  /-- A pose has not three components. -/
  | poseShape (role : String) (shape : List Nat)
  /-- A factor names a variable twice. -/
  | repeatedKeys (keys : List Key)
  /-- A prior and its noise differ in size. -/
  | priorSize (size dim : Nat)
  /-- A relative measurement and its noise differ in size. -/
  | measurementSize (size dim : Nat)
  /-- A range has noise of another size than one. -/
  | rangeNoise
  /-- A pose prior has noise of another size than three. -/
  | posePriorNoise
  /-- A relative pose has noise of another size than three. -/
  | poseBetweenNoise
  /-- A Jacobian does not fit its residual and its variable. -/
  | jacobianShape (factor : String) (key : Key) (shape expected : List Nat)
  | duplicateFactor (id : String)
  /-- A factor refers to a variable without a value. -/
  | missingVariable (key : Key) (factor : String)
  /-- A block has not as many rows as the right-hand side. -/
  | blockRows (key : Key) (rows expected : Nat)
  /-- Two factors disagree about the size of a variable. -/
  | inconsistentWidth (key : Key) (first second : Nat)
  /-- A variable is not determined by its factors. -/
  | indeterminate (key : Key)
  /-- An order lists a variable twice. -/
  | repeatedInOrder (key : Key)
  /-- An order does not list exactly the variables of an estimate. -/
  | notBijection (missing unexpected : List Key)
  /-- No way of ordering has the name. -/
  | unknownOrdering (name : String)
  /-- No way of taking differences has the name. -/
  | unknownDifference (name : String)
  | fewPoses
  /-- A planar network needs three anchors. -/
  | fewAnchors
  /-- A truth value stands where a method is chosen. -/
  | methodFlag
  /-- No nonlinear method is shown so. -/
  | unknownMethod (shown : String)
  /-- A truth value stands where a linear solver is chosen. -/
  | solverFlag (value : Bool)
  /-- No linear solver is shown so. -/
  | unknownSolver (shown : String)
  /-- The chosen solver is not offered by the common entry point. -/
  | unsupportedSolver
  | settings (issues : List Issue)
  | notNumeric
  /-- The shapes of two operands do not fit. -/
  | shapeMismatch
  /-- A matrix or a right-hand side holds a value that is not finite. -/
  | notFinite
  /-- The greatest of no numbers is asked for. -/
  | emptyMaximum
  /-- An operand of whole arrays has parts that are no numbers. -/
  | operandKind
  /-- An array would have more axes than arrays can have. -/
  | tooManyAxes
  | negativeSize
  /-- An array has more places than can be addressed. -/
  | tooManyPlaces
  /-- An array has more places than can be stored. -/
  | outOfMemory
  /-- A number is too large to be computed with. -/
  | overflow
  /-- A table has no such key. -/
  | absentKey
  /-- A list has no such position. -/
  | outOfRange
  /-- An object that is used was never given. -/
  | absentObject
  /-- A part of an object can not be written. -/
  | readOnly
  | singular
  | divisionByZero
  /-- A function is given too many or too few arguments, or one of the wrong type. -/
  | badArguments
  /-- The bound on the number of damping trials was too small. -/
  | dampingUnbounded
deriving DecidableEq, Repr

namespace Error

def message? : Error → Option String
  | .duplicateVariable key => some s!"Variable {key.shown} already exists"
  | .unknownVariable key => some key.shown
  | .notVector key shape =>
    some s!"Variable {key.shown}: value must be a 1-D vector, got shape {Text.tuple shape}"
  | .resized key size expected =>
    some s!"Variable {key.shown}: new value size {size} != expected size {expected}"
  | .stepSize key size expected =>
    some s!"Variable {key.shown}: update size {size} != variable size {expected}"
  | .shortVector key => some s!"Not enough entries for variable {key.shown}"
  | .longVector used length => some s!"Vector size mismatch: {used} vs {length}"
  | .sigmasShape => some "sigmas must be a non-empty 1-D vector"
  | .sigmasSign => some "All sigmas must be positive"
  | .unknownLoss name => some s!"Unknown loss type: {name}"
  | .poseShape role shape =>
    some s!"{role} must be 3-element [x, y, theta] vector, got shape {Text.tuple shape}"
  | .repeatedKeys keys => some s!"Factor keys must be distinct, got {Key.shownList keys}"
  | .priorSize size dim => some s!"Prior size {size} != noise model dimension {dim}"
  | .measurementSize size dim => some s!"Measurement size {size} != noise model dimension {dim}"
  | .rangeNoise => some "RangeFactor requires a 1-dimensional noise model"
  | .posePriorNoise => some "Pose2PriorFactor requires a 3-dimensional noise model"
  | .poseBetweenNoise => some "Pose2BetweenFactor requires a 3-dimensional noise model"
  | .jacobianShape factor key shape expected =>
    some (s!"Factor {factor}: Jacobian for {key.shown} has shape {Text.tuple shape}, " ++
      s!"expected {Text.tuple expected}")
  | .duplicateFactor id => some s!"Factor {id} already exists"
  | .missingVariable key factor =>
    some (Text.quoted
      s!"Variable {key.shown} required by factor {factor} is not in the estimate")
  | .blockRows key rows expected =>
    some s!"Block for {key.shown} has {rows} rows, expected {expected}"
  | .inconsistentWidth key first second =>
    some s!"Inconsistent dimension for {key.shown}: {first} vs {second}"
  | .indeterminate key =>
    some s!"Indeterminant linear system detected while eliminating variable {key.shown}"
  | .repeatedInOrder key => some s!"Key {key.shown} appears more than once in ordering"
  | .notBijection missing unexpected =>
    let missing := Text.bracketed ((Key.shownSorted missing).map Text.quoted)
    let unexpected := Text.bracketed ((Key.shownSorted unexpected).map Text.quoted)
    some ("Ordering is not a bijection over the estimate: " ++
      s!"missing {missing}, unexpected {unexpected}")
  | .unknownOrdering name => some s!"Unknown ordering method: {name}"
  | .unknownDifference name => some s!"Unknown finite difference method: {name}"
  | .fewPoses => some "A pose chain needs at least 2 poses"
  | .fewAnchors => some "At least 3 anchors are needed to fix a planar network"
  | .methodFlag =>
    some "Nonlinear method must be a NonlinearOptimizationMethod, not a boolean flag"
  | .unknownMethod shown => some s!"Unknown nonlinear optimization method: {shown}"
  | .solverFlag value => some ("Unknown linear solver: " ++ if value then "True" else "False")
  | .unknownSolver shown => some s!"optimize: undefined solver {shown}"
  | .unsupportedSolver =>
    some ("optimize: spcg not supported yet: the subgraph preconditioner does not yet handle " ++
      "the specific pose constraint")
  | _ => none

end Error

end LeastSquares
