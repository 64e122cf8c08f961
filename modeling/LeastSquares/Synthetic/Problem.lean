/-
  LeastSquares/Synthetic/Problem.lean
  ===================================
  **A problem with a known solution, and what its generators share.**

  A problem is a graph, the true values of its variables, and a perturbed estimate.
-/
import LeastSquares.Graph
import LeastSquares.Synthetic.Draws

namespace LeastSquares

structure Problem (α : Type) where
  graph : Graph α
  truth : Values α
  initial : Values α

namespace Problem

variable {α : Type}

def member (family : String) (index : Nat) : Key := .name (family ++ toString index)

def named {β : Type} (family : String) (items : List β) : List (Key × β) :=
  items.zipIdx.map fun entry => (member family entry.2, entry.1)

def addFactor (g : Graph α) (factor : Except Error (Factor α)) : Drawing α (Graph α) := do
  let f ← factor
  (g.add f).2

variable [Scalar α]

def anchorSigma : α := 1e-3

/-! ### Descriptions -/

/-- The arguments of a problem have known names, and the one that is needed is among them. -/
def checkNames (args : Given α) (needed : String) (others : List String) : Except Error Unit :=
  if (args.get? needed).isNone || args.fields.any fun row => !(needed :: others).elem row.1 then
    .error .badArguments
  else .ok ()

/-- A count may not be below a least number; whether it is one is looked at later. -/
def checkLeast (given : Given α) (least : Nat) (refusal : Error) : Except Error Unit := do
  let x ← (match given with
    | .integer n => .ok (Scalar.ofInt n)
    | other => other.toNumber : Except Error α)
  if x < Scalar.ofNat least then throw refusal

/-- An argument by its name, or its usual value. -/
def argument (args : Given α) (name : String) (usual : Given α) : Given α :=
  (args.get? name).getD usual

end Problem

end LeastSquares
