/-
  LeastSquares/Synthetic.lean
  ===========================
  **Synthetic problems by their kinds.**

  A kind of problem has a name, and its arguments are given by names.
-/
import LeastSquares.Synthetic.LinearChain
import LeastSquares.Synthetic.PoseChain
import LeastSquares.Synthetic.RangeNetwork

namespace LeastSquares

namespace Problem

variable {α : Type} [Scalar α]

def ofGiven (kind : String) (args : Given α) : Drawing α (Problem α) := do
  let args := args.withNumbers
  match kind with
  | "pose2_chain" =>
    let chain ← PoseChain.ofGiven args
    chain.problem
  | "range_network" =>
    let network ← RangeNetwork.ofGiven args
    network.problem
  | "linear_chain" =>
    let chain ← LinearChain.ofGiven args
    chain.problem
  | _ => throw .absentObject

end Problem

end LeastSquares
