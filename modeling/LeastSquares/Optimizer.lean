/-
  LeastSquares/Optimizer.lean
  ===========================
  **Nonlinear optimization: linearize, solve, move, and again.**

  An optimization has a current estimate with its cost, a damping, and the costs of all
  accepted estimates.  The undamped loop accepts every step; the damped loop accepts a step
  only when the cost is finite and does not grow, and tries greater and greater dampings until
  there is one or a bound is passed.  What has been accepted stays when a later step fails.
-/
import LeastSquares.Convergence
import LeastSquares.Graph
import LeastSquares.Order
import LeastSquares.Solver

namespace LeastSquares

/-! ### Optimizers and their states -/

/-- What stays the same during an optimization. -/
structure Optimizer (σ α : Type) where
  graph : Graph α
  solver : LinearSolver σ α
  parameters : Parameters α
  dims : Table Nat

structure OptimizerState (σ α : Type) where
  values : Values α
  cost : α
  /-- The damping that is tried next. -/
  damping : α
  iterations : Nat
  /-- The costs of the estimates so far, oldest first. -/
  history : List α
  memory : σ
  /-- The reports so far, oldest first. -/
  reports : List (Report α)

inductive Termination where
  | sumError
  | converged
  | maxIterations
  | lambdaUpperBound
deriving DecidableEq, Repr

def Termination.name : Termination → String
  | sumError => "sum_error"
  | converged => "converged"
  | maxIterations => "max_iterations"
  | lambdaUpperBound => "lambda_upper_bound"

structure OptimizerResult (α : Type) where
  values : Values α
  cost : α
  iterations : Nat
  damping : α
  converged : Bool
  termination : Termination
  /-- The costs of the estimates, oldest first. -/
  history : List α

namespace Optimizer

variable {σ α : Type} [Scalar α]

/-- An optimizer for a graph, a solver and settings, with the state it starts in; the estimate
    has to cover the graph, and the order has to list its variables. -/
def start (graph : Graph α) (values : Values α) (order : EliminationOrder)
    (solver : LinearSolver σ α) (memory : σ) (parameters : Parameters α) :
    Except Error (Optimizer σ α × OptimizerState σ α) := do
  graph.checkKeys values
  order.validate values.keys
  let cost ← graph.cost values
  return (⟨graph, solver, parameters, values.dims⟩,
    ⟨values, cost, parameters.lambdaInitial, 0, [cost], memory, []⟩)

/-! ### Steps -/

/-- A computation on the state; the state is kept when it fails. -/
abbrev Run (σ α β : Type) := ExceptT Error (StateM (OptimizerState σ α)) β

def ofExcept {β : Type} (outcome : Except Error β) : Run σ α β := ExceptT.mk (pure outcome)

/-- Report an event, at the higher level when the verbosity reaches a level. -/
def report (o : Optimizer σ α) (verbosity : Verbosity) (event : Event α) : Run σ α Unit :=
  modify fun s => { s with
    reports := s.reports ++
      [⟨if verbosity.level ≤ o.parameters.verbosity.level then .info else .debug, event⟩] }

/-- Report an event only when the verbosity reaches a level. -/
def reportFrom (o : Optimizer σ α) (verbosity : Verbosity) (event : Event α) : Run σ α Unit :=
  if verbosity.level ≤ o.parameters.verbosity.level then o.report verbosity event else pure ()

def accept (values : Values α) (cost : α) : Run σ α Unit :=
  modify fun s => { s with values := values, cost := cost, history := s.history ++ [cost] }

def askSolver (o : Optimizer σ α) (linear : LinearGraph α) : Run σ α (Delta α) := do
  let s ← get
  let attempt := o.solver.solve s.memory linear
  set { s with memory := attempt.memory, reports := s.reports ++ attempt.reports }
  ofExcept attempt.result

def linearize (o : Optimizer σ α) : Run σ α (LinearGraph α) := do
  let s ← get
  let linear ← ofExcept (o.graph.linearize s.values)
  o.reportFrom .linear (.linearized linear.size)
  return linear

/-- The estimate moved by a step, with its cost. -/
def moved (o : Optimizer σ α) (delta : Delta α) : Run σ α (Values α × α) := do
  let s ← get
  let values ← ofExcept (s.values.retract delta)
  let cost ← ofExcept (o.graph.cost values)
  return (values, cost)

def iterate (o : Optimizer σ α) : Run σ α (Delta α) := do
  let linear ← o.linearize
  let delta ← o.askSolver linear
  o.report .delta (.stepTaken delta.norm)
  let (values, cost) ← o.moved delta
  modify fun s => { s with iterations := s.iterations + 1 }
  accept values cost
  o.report .error (.iterationDone (← get).iterations cost)
  o.reportFrom .values (.estimate values)
  return delta

/-- The least damping that division leaves in the bounded mode. -/
def lambdaLowerBound : α := 1e-10

def dampingAfter (p : Parameters α) (damping : α) : α :=
  match p.lambdaMode with
  | .cautious => damping
  | .fast => damping / p.lambdaFactor
  | .bounded => Scalar.largerOf (damping / p.lambdaFactor) lambdaLowerBound

/-- A number of dampings after which the bound is certainly passed: each factor adds at least
    its excess over one times the first damping. -/
def trialBound (p : Parameters α) (damping : α) : Nat :=
  Scalar.ceilNat (p.lambdaUpperBound / damping / (p.lambdaFactor - 1)) + 2

/-- Try a damping, and greater ones as long as the step is not accepted; the second argument
    bounds their number. -/
def tryDampings (o : Optimizer σ α) (linear : LinearGraph α) : Nat → Run σ α Bool
  | 0 => throw .dampingUnbounded
  | trials + 1 => do
    let damping := (← get).damping
    o.report .tryLambda (.dampingTried damping)
    let damped := linear.damped damping o.dims
    o.reportFrom .damped (.graphDamped damped.size)
    let delta ← o.askSolver damped
    o.reportFrom .tryDelta (.candidateStep delta.norm)
    let (values, cost) ← o.moved delta
    o.reportFrom .tryConfig (.candidateEstimate values)
    o.report .tryLambda (.candidateCost cost)
    if Scalar.isFinite cost && decide (cost ≤ (← get).cost) then
      accept values cost
      modify fun s => { s with damping := dampingAfter o.parameters damping }
      o.report .lambda (.stepAccepted (← get).damping)
      return true
    else
      let greater := damping * o.parameters.lambdaFactor
      modify fun s => { s with damping := greater }
      o.report .lambda (.stepRejected greater)
      if o.parameters.lambdaUpperBound < greater then
        o.report .error (.dampingExhausted o.parameters.lambdaUpperBound)
        return false
      else o.tryDampings linear trials

/-- Search for a damping whose step is accepted, from the current one on. -/
def tryLambda (o : Optimizer σ α) (linear : LinearGraph α) : Run σ α Bool := do
  o.tryDampings linear (trialBound o.parameters (← get).damping)

/-! ### Loops -/

def result (converged : Bool) (termination : Termination) : Run σ α (OptimizerResult α) := do
  let s ← get
  return ⟨s.values, s.cost, s.iterations, s.damping, converged, termination, s.history⟩

/-- Decide whether the change of the cost since `old` ends the optimization. -/
def settled (o : Optimizer σ α) (old : α) : Run σ α Bool := do
  let s ← get
  let (outcome, reports) := Convergence.check (.ofParameters o.parameters) old s.cost
    o.parameters.verbosity.level
  set { s with reports := s.reports ++ reports }
  ofExcept outcome

/-- Undamped iterations, at most a number of them. -/
def undampedLoop (o : Optimizer σ α) : Nat → Run σ α (OptimizerResult α)
  | 0 => result false .maxIterations
  | left + 1 => do
    let old := (← get).cost
    let _ ← o.iterate
    if ← o.settled old then result true .converged else o.undampedLoop left

def gaussNewton (o : Optimizer σ α) : Run σ α (OptimizerResult α) := do
  let cost := (← get).cost
  o.report .error (.undampedStart cost)
  if cost ≤ o.parameters.sumError then result true .sumError
  else o.undampedLoop o.parameters.maxIterations

/-- Damped iterations, at most a number of them. -/
def dampedLoop (o : Optimizer σ α) : Nat → Run σ α (OptimizerResult α)
  | 0 => result false .maxIterations
  | left + 1 => do
    let old := (← get).cost
    let linear ← o.linearize
    let accepted ← o.tryLambda linear
    modify fun s => { s with iterations := s.iterations + 1 }
    if !accepted then result false .lambdaUpperBound
    else
      let s ← get
      o.report .error (.iterationDone s.iterations s.cost)
      if ← o.settled old then result true .converged else o.dampedLoop left

def levenbergMarquardt (o : Optimizer σ α) : Run σ α (OptimizerResult α) := do
  let s ← get
  o.report .error (.dampedStart s.cost s.damping)
  if s.cost ≤ o.parameters.sumError then result true .sumError
  else o.dampedLoop o.parameters.maxIterations

end Optimizer

end LeastSquares
