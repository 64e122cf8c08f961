/-
  LeastSquares/Linear/Subgraph.lean
  =================================
  **The iterative solver with a spanning subgraph as preconditioner.**

  The subgraph holds every factor of one variable, and one factor for each edge of a spanning
  forest of the factors of two variables.  Its normal matrix, with the diagonal of the normal
  matrix of the other factors added, is factorized and serves as the preconditioner of a
  conjugate gradient iteration on the normal equations.
-/
import LeastSquares.Event
import LeastSquares.Linear.ConjugateGradient
import LeastSquares.Linear.Lu
import LeastSquares.Linear.Sparse
import LeastSquares.Linear.SpanningForest
import LeastSquares.Order.Choice
import LeastSquares.Parameters

namespace LeastSquares

namespace Subgraph

variable {α : Type} [Scalar α]

/-- The weight of a factor: the smaller, the greater its entries. -/
def weight (f : LinearFactor α) : α :=
  1.0 / (1.0 + f.sumSq)

/-- Keep the lighter of two parallel edges, the earlier of two equal ones, at the place of the
    earlier. -/
def enter (edges : List (Edge α)) (e : Edge α) : List (Edge α) :=
  match edges with
  | [] => [e]
  | other :: rest =>
    if other.parallel e then (if e.weight < other.weight then e :: rest else other :: rest)
    else other :: enter rest e

/-- The edge of the factor at an index, if it is about two variables. -/
def edgeOf? (position : Table Nat) (f : LinearFactor α) (index : Nat) :
    Except Error (Option (Edge α)) :=
  match f.keys with
  | [a, b] => do
    let a ← position.find a
    let b ← position.find b
    return some ⟨min a b, max a b, weight f, index⟩
  | _ => .ok none

def edgesOf (position : Table Nat) (g : LinearGraph α) : Except Error (List (Edge α)) :=
  g.factors.zipIdx.foldlM (fun edges entry => do
    match ← edgeOf? position entry.1 entry.2 with
    | some e => return enter edges e
    | none => return edges) []

def mask (order : EliminationOrder) (kind : SpanningTree) (g : LinearGraph α) :
    Except Error (List Bool) := do
  let edges ← edgesOf order.positions g
  let forest := match kind with
    | .minimum => SpanningForest.minimum order.size edges
    | .breadthFirst => SpanningForest.breadthFirst order.size edges
  return g.factors.zipIdx.map fun entry =>
    entry.1.keys.length = 1 || forest.any fun e => e.factor = entry.2

/-- The factors that a mask marks, or those that it does not. -/
def part (mask : List Bool) (marked : Bool) (g : LinearGraph α) : LinearGraph α :=
  ⟨((g.factors.zip mask).filter fun entry => entry.2 = marked).map (·.1)⟩

/-- The matrix that is factorized for the marks of a problem. -/
def preconditioner (mask : List Bool) (keys : List Key) (dims : Table Nat) (g : LinearGraph α) :
    Except Error (Mat α) := do
  let (marked, _) ← (part mask true g).normal keys dims
  let (unmarked, _) ← (part mask false g).normal keys dims
  return (marked.addDiagonal unmarked.diagonal).toMat

end Subgraph

/-- A solver that iterates, and keeps the subgraph for problems of the same structure. -/
structure SubgraphSolver (α : Type) where
  order : EliminationOrder
  dims : Table Nat
  parameters : IterativeParameters α
  /-- What the factors are about that the subgraph was chosen for. -/
  structureKey : Option (List (List Key))
  /-- The marks of the factors of the subgraph. -/
  mask : List Bool
  lastIterations : Nat
deriving Repr

namespace SubgraphSolver

variable {α : Type} [Scalar α]

/-- A solver for a graph and an estimate, which orders the variables itself. -/
def make (g : Graph α) (values : Values α) (parameters : Option (IterativeParameters α)) :
    Except Error (SubgraphSolver α) := do
  let order ← EliminationOrder.compute g values EliminationOrder.defaultMethod
  order.validate values.keys
  return ⟨order, values.dims, parameters.getD IterativeParameters.standard, none, [], 0⟩

/-- Choose the subgraph of a linear problem, unless it has the structure of the one before. -/
def prepare (s : SubgraphSolver α) (g : LinearGraph α) : Attempt (SubgraphSolver α) α Unit :=
  if s.structureKey = some g.structureKey then ⟨.ok (), s, []⟩
  else
    match Subgraph.mask s.order s.parameters.spanningTree g with
    | .error e => ⟨.error e, s, []⟩
    | .ok mask =>
      ⟨.ok (), { s with structureKey := some g.structureKey, mask := mask },
        [⟨.debug, .subgraphChosen (mask.count true) g.size⟩]⟩

/-- The numbers of an array of one column, or of a vector. -/
def column (t : Tensor α) : Except Error (Vec α) :=
  match t.shape with
  | [_] => .ok t.data
  | [_, 1] => .ok t.data
  | _ => .error .shapeMismatch

def iterate (s : SubgraphSolver α) (g : LinearGraph α) : Except Error (Iterate α) := do
  let keys := s.order.keys
  let (matrix, gradient) ← g.normal keys s.dims
  let preconditioner ← Subgraph.preconditioner s.mask keys s.dims g
  let steps ← Lu.factorize preconditioner
  let rhs ← column gradient
  return ConjugateGradient.solve matrix.mulVec (Lu.solve steps) rhs
    s.parameters.epsilonAbs s.parameters.epsilonRel s.parameters.maxIterations

def solve (s : SubgraphSolver α) (g : LinearGraph α) :
    Attempt (SubgraphSolver α) α (Delta α) :=
  let prepared := s.prepare g
  let s := prepared.memory
  let iterated := do
    let _ ← prepared.result
    s.iterate g
  match iterated with
  | .error e => ⟨.error e, s, prepared.reports⟩
  | .ok found =>
    let s := { s with lastIterations := found.steps }
    let report : Report α :=
      if found.converged then ⟨.debug, .iterationConverged found.steps⟩
      else ⟨.warning, .iterationStopped found.steps⟩
    ⟨Delta.fromVector found.solution s.order.keys s.dims, s, prepared.reports ++ [report]⟩

end SubgraphSolver

end LeastSquares
