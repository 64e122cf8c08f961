/-
  LeastSquares/Linear/Graph.lean
  ==============================
  **Linear least-squares problems as collections of factors.**

  The cost of a step is the sum of the costs of the factors.  Damping adds one factor for each
  variable, which makes large steps expensive.
-/
import LeastSquares.Linear.Factor

namespace LeastSquares

/-- A collection of linear factors, in order. -/
structure LinearGraph (α : Type) where
  factors : List (LinearFactor α)
deriving Repr

namespace LinearGraph

variable {α : Type}

def add (g : LinearGraph α) (f : LinearFactor α) : LinearGraph α := ⟨g.factors ++ [f]⟩

def size (g : LinearGraph α) : Nat := g.factors.length

/-- The variables, in the order of their first appearance. -/
def keys (g : LinearGraph α) : List Key := distinct (g.factors.flatMap (·.keys))

/-- The variables of each factor: what the factors are about, without their numbers. -/
def structureKey (g : LinearGraph α) : List (List Key) := g.factors.map (·.keys)

def enterWidth (dims : Table Nat) (key : Key) (width : Nat) : Except Error (Table Nat) :=
  match dims.get? key with
  | none => .ok (dims ++ [(key, width)])
  | some first => if first = width then .ok dims else .error (.inconsistentWidth key first width)

/-- The width of each variable, on which all factors have to agree. -/
def dims (g : LinearGraph α) : Except Error (Table Nat) :=
  (g.factors.flatMap (·.widths)).foldlM (fun dims row => enterWidth dims row.1 row.2) []

variable [Scalar α]

def cost (g : LinearGraph α) (delta : Delta α) : Except Error α :=
  (g.factors.mapM (LinearFactor.cost · delta)).map Vec.sum

/-- The problem with a factor for each variable that weighs its step by the root of a damping
    value. -/
def damped (g : LinearGraph α) (damping : α) (dims : Table Nat) : LinearGraph α :=
  ⟨g.factors ++ dims.map fun row => LinearFactor.damping (Scalar.sqrt damping) row.1 row.2⟩

/-- The problem with damping as it is given: a value or an array of values, and the sizes of the
    variables, each of which gets a square matrix. -/
def dampedOf (g : LinearGraph α) (damping : Given α) (dims : Table (Given α)) :
    Except Error (LinearGraph α) := do
  let values ← Tensor.ofArguments damping
  let roots := values.map Scalar.sqrt
  let added ← dims.mapM fun row => do
    let n ← row.2.toLength
    let _ ← Tensor.checkShape [n, n]
    LinearFactor.dampingOf roots row.1 n.toNat
  return ⟨g.factors ++ added⟩

end LinearGraph

end LeastSquares
