/-
  LeastSquares/Event.lean
  =======================
  **What is reported while a problem is solved.**

  A report is an event with the numbers it is about, and a level.  How a number is written is
  left to whoever renders the report.
-/
import LeastSquares.Values

namespace LeastSquares

inductive Level where
  | debug
  | info
  | warning
deriving DecidableEq, Repr

def Level.name : Level → String
  | debug => "DEBUG"
  | info => "INFO"
  | warning => "WARNING"

inductive Event (α : Type) where
  | orderComputed (method : String) (unknowns : Nat)
  | frontsAnalysed (unknowns fronts : Nat)
  | conditionalsProduced (count : Nat)
  | subgraphChosen (marked factors : Nat)
  | iterationConverged (iterations : Nat)
  | iterationStopped (iterations : Nat)
  | costReached (cost bound : α)
  | costIncreased (old new : α)
  | absoluteDecreaseSmall (decrease threshold : α)
  | relativeDecreaseSmall (decrease threshold : α)
  | linearized (factors : Nat)
  | stepTaken (norm : α)
  | iterationDone (iteration : Nat) (cost : α)
  | estimate (values : Values α)
  | undampedStart (cost : α)
  | dampedStart (cost damping : α)
  | dampingTried (damping : α)
  | graphDamped (factors : Nat)
  | candidateStep (norm : α)
  | candidateEstimate (values : Values α)
  | candidateCost (cost : α)
  | stepAccepted (damping : α)
  | stepRejected (damping : α)
  | dampingExhausted (bound : α)
  | optimizationStarted (factors unknowns : Nat) (solver method : String)
  | optimizationFinished (iterations : Nat) (termination : String) (cost : α)

/-- A report: an event at a level. -/
structure Report (α : Type) where
  level : Level
  event : Event α

/-- The way numbers and estimates are written in reports. -/
structure ReportStyle (α : Type) where
  number : α → String
  estimate : Values α → String

def Event.message {α : Type} (style : ReportStyle α) : Event α → String
  | orderComputed method unknowns => s!"Computed {method} ordering over {unknowns} variables"
  | frontsAnalysed unknowns fronts =>
    s!"Multifrontal symbolic analysis: {unknowns} variables in {fronts} fronts"
  | conditionalsProduced count => s!"Sequential elimination produced {count} conditionals"
  | subgraphChosen marked factors => s!"Spanning subgraph uses {marked} of {factors} factors"
  | iterationConverged iterations => s!"Conjugate gradient converged in {iterations} iterations"
  | iterationStopped iterations =>
    s!"Conjugate gradient stopped after {iterations} iterations without reaching tolerance"
  | costReached cost bound => s!"Converged: error {style.number cost} <= {style.number bound}"
  | costIncreased old new =>
    "Stopping nonlinear iterations because error increased from " ++
      s!"{style.number old} to {style.number new}"
  | absoluteDecreaseSmall decrease threshold =>
    s!"Converged: absolute decrease {style.number decrease} < {style.number threshold}"
  | relativeDecreaseSmall decrease threshold =>
    s!"Converged: relative decrease {style.number decrease} < {style.number threshold}"
  | linearized factors => s!"Linearized graph: {factors} factors"
  | stepTaken norm => s!"delta norm = {style.number norm}"
  | iterationDone iteration cost => s!"iteration {iteration}: error = {style.number cost}"
  | estimate values => s!"values = {style.estimate values}"
  | undampedStart cost => s!"Gauss-Newton: initial error = {style.number cost}"
  | dampedStart cost damping =>
    s!"Levenberg-Marquardt: initial error = {style.number cost}, " ++
      s!"lambda = {style.number damping}"
  | dampingTried damping => s!"trying lambda = {style.number damping}"
  | graphDamped factors => s!"Damped graph: {factors} factors"
  | candidateStep norm => s!"candidate delta norm = {style.number norm}"
  | candidateEstimate values => s!"candidate values = {style.estimate values}"
  | candidateCost cost => s!"candidate error = {style.number cost}"
  | stepAccepted damping => s!"accepted step, lambda = {style.number damping}"
  | stepRejected damping => s!"rejected step, lambda = {style.number damping}"
  | dampingExhausted bound =>
    s!"lambda exceeded {style.number bound} without decreasing the error"
  | optimizationStarted factors unknowns solver method =>
    s!"Optimizing {factors} factors over {unknowns} variables with {solver} and {method}"
  | optimizationFinished iterations termination cost =>
    s!"Finished after {iterations} iterations ({termination}), " ++
      s!"final error = {style.number cost}"

/-- What became of an operation of something that remembers: its result, what it remembers
    afterwards, and what it reported. -/
structure Attempt (σ α β : Type) where
  /-- The result, or why there is none. -/
  result : Except Error β
  memory : σ
  reports : List (Report α)

end LeastSquares
