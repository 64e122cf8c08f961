/-
  LeastSquares/Order/Choice.lean
  ==============================
  **The choice of an elimination order for a graph.**

  An order can keep the fill of elimination low, keep neighbours close, or be that of the
  estimate.  Each needs every variable of the factors to have a value.
-/
import LeastSquares.Order
import LeastSquares.Order.Bandwidth
import LeastSquares.Order.MinimumDegree

namespace LeastSquares

namespace EliminationOrder

variable {α : Type}

/-- The order that is computed when none is asked for. -/
def defaultMethod : String := "amd"

/-- The order of the variables of an estimate that a named method finds. -/
def compute (g : Graph α) (values : Values α) (method : String) :
    Except Error EliminationOrder := do
  if method = "natural" then
    g.checkKeys values
    ofKeys values.keys
  else
    let adjacency ← g.adjacency values.keys
    if method = "amd" then ofKeys (MinimumDegree.order values.keys adjacency)
    else if method = "rcm" then ofKeys (Bandwidth.order values.keys adjacency)
    else throw (.unknownOrdering method)

end EliminationOrder

end LeastSquares
