/-
  LeastSquares/Solver.lean
  ========================
  **Linear solvers: what an optimization asks of them, and the ones there are.**

  A solver turns a linear problem into a step.  It may remember what it found out about the
  structure of earlier problems, and it may fail.
-/
import LeastSquares.Linear.BayesTree
import LeastSquares.Linear.Subgraph

namespace LeastSquares

structure LinearSolver (σ α : Type) where
  solve : σ → LinearGraph α → Attempt σ α (Delta α)

inductive SolverKind where
  | sequential
  | multifrontal
  | subgraph
deriving DecidableEq, Repr

namespace SolverKind

def name : SolverKind → String
  | sequential => "sequential"
  | multifrontal => "multifrontal"
  | subgraph => "spcg"

def named? (name : String) : Option SolverKind :=
  [sequential, multifrontal, subgraph].find? (·.name = name)

end SolverKind

/-- A solver of one of the kinds with its memory, or none at all. -/
inductive Backend (α : Type) where
  | sequential (solver : SequentialSolver α)
  | multifrontal (solver : MultifrontalSolver α)
  | subgraph (solver : SubgraphSolver α)
  | absent

namespace Backend

variable {α : Type} [Scalar α]

/-- What becomes of an operation of one kind of solver, as one of any kind. -/
def lift {σ β : Type} (wrap : σ → Backend α) (a : Attempt σ α β) : Attempt (Backend α) α β :=
  ⟨a.result, wrap a.memory, a.reports⟩

/-- Solve a linear problem; without a solver there is nothing to ask. -/
def solve : Backend α → LinearGraph α → Attempt (Backend α) α (Delta α)
  | sequential solver, g => lift sequential (solver.solve g)
  | multifrontal solver, g => lift multifrontal (solver.solve g)
  | subgraph solver, g => lift subgraph (solver.solve g)
  | absent, _ => ⟨.error .absentObject, absent, []⟩

/-- A new solver of a kind for an estimate and an order of its variables. -/
def ofElimination (kind : SolverKind) (values : Values α) (order : EliminationOrder) :
    Except Error (Backend α) :=
  match kind with
  | .sequential => (SequentialSolver.make values order).map sequential
  | .multifrontal => (MultifrontalSolver.make values order).map multifrontal
  | .subgraph => .error .absentObject

def solver : LinearSolver (Backend α) α := ⟨Backend.solve⟩

end Backend

end LeastSquares
