/-
  LeastSquares/Optimize.lean
  ==========================
  **Optimization from beginning to end.**

  A solver and a loop are chosen by name, an elimination order is computed, and the loop is
  run from the given estimate.  The common entry point does not offer the iterative solver,
  which has an entry point of its own.
-/
import LeastSquares.Optimizer
import LeastSquares.Order.Choice

namespace LeastSquares

inductive Method where
  | gaussNewton
  | levenbergMarquardt
deriving DecidableEq, Repr

namespace Method

def name : Method → String
  | gaussNewton => "gauss_newton"
  | levenbergMarquardt => "levenberg_marquardt"

def named? (name : String) : Option Method :=
  [gaussNewton, levenbergMarquardt].find? (·.name = name)

def choose {α : Type} (number : α → String) (given : Given α) : Except Error Method :=
  match given with
  | .flag _ => .error .methodFlag
  | .text name =>
    match named? name with
    | some method => .ok method
    | none => .error (.unknownMethod (given.shown number))
  | _ => .error (.unknownMethod (given.shown number))

def run {σ α : Type} [Scalar α] (method : Method) (o : Optimizer σ α) :
    Optimizer.Run σ α (OptimizerResult α) :=
  match method with
  | gaussNewton => o.gaussNewton
  | levenbergMarquardt => o.levenbergMarquardt

end Method

def SolverKind.choose {α : Type} (number : α → String) (given : Given α) :
    Except Error SolverKind :=
  match given with
  | .flag value => .error (.solverFlag value)
  | .text name =>
    match SolverKind.named? name with
    | some kind => .ok kind
    | none => .error (.unknownSolver (given.shown number))
  | _ => .error (.unknownSolver (given.shown number))

def SolverKind.description : SolverKind → String
  | subgraph => "subgraph-preconditioned CG"
  | kind => kind.name ++ " elimination"

namespace Optimize

variable {α : Type} [Scalar α]

/-- What becomes of an optimization: its result, and the reports. -/
abbrev Outcome (α : Type) := Except Error (OptimizerResult α) × List (Report α)

/-- A solver for a graph and an estimate, and the order it uses. -/
def backendFor (kind : SolverKind) (graph : Graph α) (values : Values α)
    (parameters : Parameters α) : Except Error (Backend α × EliminationOrder) := do
  match kind with
  | .subgraph =>
    let solver ← SubgraphSolver.make graph values (some parameters.iterative)
    return (.subgraph solver, solver.order)
  | kind =>
    let order ← EliminationOrder.compute graph values EliminationOrder.defaultMethod
    let backend ← Backend.ofElimination kind values order
    return (backend, order)

def withSolver (kind : SolverKind) (graph : Graph α) (values : Values α)
    (parameters : Parameters α) (method : Method) : Outcome α :=
  let opening : List (Report α) :=
    [⟨.info, .optimizationStarted graph.size values.size kind.description method.name⟩]
  match backendFor kind graph values parameters with
  | .error e => (.error e, opening)
  | .ok (backend, order) =>
    let opening := opening ++
      [⟨.debug, .orderComputed EliminationOrder.defaultMethod order.size⟩]
    match Optimizer.start graph values order Backend.solver backend parameters with
    | .error e => (.error e, opening)
    | .ok (optimizer, state) =>
      let (result, state) := (method.run optimizer).run state
      let closing : List (Report α) := match result with
        | .error _ => []
        | .ok r => [⟨.info, .optimizationFinished r.iterations r.termination.name r.cost⟩]
      (result, opening ++ state.reports ++ closing)

/-- Optimize with a kind of solver and a loop that is chosen by a setting. -/
def withChosenMethod (number : α → String) (kind : SolverKind) (graph : Graph α)
    (values : Values α) (parameters : Option (Parameters α)) (method : Given α) : Outcome α :=
  match Method.choose number method with
  | .error e => (.error e, [])
  | .ok method => withSolver kind graph values (parameters.getD Parameters.standard) method

def sequential (number : α → String) : Graph α → Values α → Option (Parameters α) →
    Given α → Outcome α :=
  withChosenMethod number .sequential

def multifrontal (number : α → String) : Graph α → Values α → Option (Parameters α) →
    Given α → Outcome α :=
  withChosenMethod number .multifrontal

/-- Optimize with the iterative solver, by damped steps unless another loop is chosen. -/
def iterative (number : α → String) (graph : Graph α) (values : Values α)
    (parameters : Option (Parameters α)) (method : Option (Given α)) : Outcome α :=
  withChosenMethod number .subgraph graph values parameters
    (method.getD (.text Method.levenbergMarquardt.name))

def offered : SolverKind → Bool
  | .subgraph => false
  | _ => true

def optimize (number : α → String) (graph : Graph α) (values : Values α)
    (parameters : Option (Parameters α)) (solver method : Given α) : Outcome α :=
  match SolverKind.choose number solver with
  | .error e => (.error e, [])
  | .ok kind =>
    if offered kind then withChosenMethod number kind graph values parameters method
    else (.error .unsupportedSolver, [])

end Optimize

end LeastSquares
