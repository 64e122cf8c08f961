/-
  LeastSquares/Synthetic/LinearChain.lean
  =======================================
  **Chains of vectors with measured differences.**

  The vectors are drawn freely.  The first one is known, and the difference from each vector to
  the next is measured with noise.  The estimate starts at zero.
-/
import LeastSquares.Synthetic.Problem

namespace LeastSquares

structure LinearChain (α : Type) where
  count : Given α
  dim : Given α
  sigma : Given α

namespace LinearChain

variable {α : Type} [Scalar α]

def ofCount (count : Given α) : LinearChain α := ⟨count, .integer 2, .real 0.1⟩

def ofGiven (args : Given α) : Except Error (LinearChain α) := do
  Problem.checkNames args "n_variables" ["dim", "sigma"]
  let usual := ofCount (args.field "n_variables")
  return {
    count := usual.count
    dim := Problem.argument args "dim" usual.dim
    sigma := Problem.argument args "sigma" usual.sigma }

/-- Normal noise of the size of the vectors; of no size it has the shape of its standard
    deviation. -/
def noiseOf (dim sigma : Given α) : Drawing α (Tensor α) :=
  match dim with
  | .null => Draws.normalLike sigma
  | size => Draws.normal sigma size

def drawVector (dim : Given α) (index : Nat) : Drawing α (Key × Vec α) := do
  let x ← noiseOf dim (.real 1)
  let xs ← x.vectorFor (.number index)
  return (.number index, xs)

/-- So many vectors of the chain, from an index on; the first that can not be drawn ends it. -/
def drawVectors (dim : Given α) : Nat → Nat → Drawing α (List (Key × Vec α))
  | _, 0 => return []
  | index, count + 1 => do
    let entry ← drawVector dim index
    let rest ← drawVectors dim (index + 1) count
    return entry :: rest

def measureStep (chain : LinearChain α) (g : Graph α) (first second : Key × Vec α) :
    Drawing α (Graph α) := do
  let errors ← noiseOf chain.dim chain.sigma
  let measured ← Tensor.combine (· + ·) (.ofVector (Vec.sub second.2 first.2)) errors
  let noise ← Noise.filled chain.dim chain.sigma
  Problem.addFactor g (Factor.between first.1 second.1 measured (some noise) none)

def problem (chain : LinearChain α) : Drawing α (Problem α) := do
  let count ← chain.count.toInt
  let entries ← drawVectors chain.dim 0 count.toNat
  let truth : Values α := ⟨entries⟩
  let first ← truth.get (.number 0)
  let noise ← Noise.filled chain.dim chain.sigma
  let anchored ← Problem.addFactor Graph.empty
    (Factor.prior (.number 0) (.ofVector first) (some noise) none)
  let chained ← (entries.zip entries.tail).foldlM
    (fun g pair => measureStep chain g pair.1 pair.2) anchored
  return ⟨chained, truth, ⟨entries.map fun entry => (entry.1, Vec.zeros entry.2.length)⟩⟩

end LinearChain

end LeastSquares
