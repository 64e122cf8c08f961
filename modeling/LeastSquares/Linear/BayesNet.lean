/-
  LeastSquares/Linear/BayesNet.lean
  =================================
  **Elimination of one variable after another.**

  Each factor waits for the earliest of its variables.  Eliminating a variable takes the
  factors that wait for it and leaves a factor on its separator, which waits again.  The
  conditionals are then solved in reverse, so that a separator is always known.
-/
import LeastSquares.Event
import LeastSquares.Linear.Elimination
import LeastSquares.Order

namespace LeastSquares

/-- The earliest of some variables by their positions. -/
def earliest (position : Table Nat) : List Key → Except Error Key
  | [] => .error .emptyMaximum
  | key :: keys => do
    let place ← position.find key
    let best ← keys.foldlM (fun (best : Nat × Key) key => do
      let place ← position.find key
      return if place < best.1 then (place, key) else best) (place, key)
    return best.2

/-- Conditionals in the order of elimination. -/
structure BayesNet (α : Type) where
  conditionals : List (Conditional α)
deriving Repr

namespace BayesNet

variable {α : Type} [Scalar α]

/-- Each factor with the earliest of its variables; a factor without variables is dropped. -/
def assign (position : Table Nat) (g : LinearGraph α) :
    Except Error (List (Key × LinearFactor α)) :=
  (g.factors.filter fun f => !f.keys.isEmpty).mapM fun f => do
    let key ← earliest position f.keys
    return (key, f)

/-- What becomes of a factor on a separator: it waits for the first variable of the
    separator. -/
def waiting (update : Option (LinearFactor α)) : List (Key × LinearFactor α) :=
  match update with
  | none => []
  | some f => f.keys.head?.toList.map fun key => (key, f)

/-- Eliminate variables in order from the factors that wait. -/
def eliminateAll (dims position : Table Nat) :
    List Key → List (Key × LinearFactor α) → Except Error (List (Conditional α))
  | [], _ => .ok []
  | key :: keys, pending => do
    let (mine, others) := pending.partition fun entry => entry.1 = key
    let (conditional, update) ← Elimination.eliminate (mine.map (·.2)) [key] dims position
    let rest ← eliminateAll dims position keys (others ++ waiting update)
    return conditional :: rest

/-- The conditionals of a linear problem in an order of elimination. -/
def eliminate (order : EliminationOrder) (dims : Table Nat) (g : LinearGraph α) :
    Except Error (BayesNet α) := do
  let pending ← assign order.positions g
  let conditionals ← eliminateAll dims order.positions order.keys pending
  return ⟨conditionals⟩

/-- Solve the conditionals, the last one first. -/
def optimize (net : BayesNet α) : Except Error (Delta α) :=
  net.conditionals.reverse.foldlM (fun solution c => c.solve solution) Delta.empty

end BayesNet

/-! ### The solver -/

/-- A solver that eliminates one variable after another and keeps its last conditionals. -/
structure SequentialSolver (α : Type) where
  order : EliminationOrder
  dims : Table Nat
  /-- The conditionals of the last elimination that succeeded. -/
  net : Option (BayesNet α)
deriving Repr

namespace SequentialSolver

variable {α : Type} [Scalar α]

/-- A solver for the variables of an estimate, which the order has to list. -/
def make (values : Values α) (order : EliminationOrder) : Except Error (SequentialSolver α) := do
  order.validate values.keys
  return ⟨order, values.dims, none⟩

def solve (s : SequentialSolver α) (g : LinearGraph α) :
    Attempt (SequentialSolver α) α (Delta α) :=
  match BayesNet.eliminate s.order s.dims g with
  | .error e => ⟨.error e, s, []⟩
  | .ok net =>
    let solution := do
      let delta ← net.optimize
      delta.ordered s.order.keys
    ⟨solution, { s with net := some net },
      [⟨.debug, .conditionalsProduced net.conditionals.length⟩]⟩

end SequentialSolver

end LeastSquares
