/-
  LeastSquares/Graph.lean
  =======================
  **Factor graphs: least-squares problems in many variables.**

  A graph is the list of its factors, whose names are all different.  Its cost is the sum of
  the costs of its factors; to be evaluated it needs an estimate of every variable that a
  factor refers to.
-/
import LeastSquares.Factor
import LeastSquares.Linear.Graph
import LeastSquares.Values

namespace LeastSquares

/-- A collection of factors, in order. -/
structure Graph (α : Type) where
  factors : List (Factor α)

structure Summary where
  unknowns : Nat
  factors : Nat
  residuals : Nat
  /-- The number of factors of each kind, by first appearance. -/
  kinds : List (String × Nat)
deriving DecidableEq, Repr

/-- The neighbours of each variable, without repetitions. -/
abbrev Adjacency := Table (List Key)

namespace Adjacency

def union (neighbours others : List Key) : List Key :=
  others.foldl (fun seen key => if seen.elem key then seen else seen ++ [key]) neighbours

/-- Make the variables of one factor neighbours of each other; every one of them has to have
    a row. -/
def connect (adjacency : Adjacency) (keys : List Key) (refusal : Key → Error) :
    Except Error Adjacency :=
  keys.foldlM (fun adjacency key =>
    if adjacency.contains key then
      .ok (adjacency.modify key (union · (keys.filter (· ≠ key))))
    else .error (refusal key)) adjacency

end Adjacency

namespace Graph

variable {α : Type}

def empty : Graph α := ⟨[]⟩

def size (g : Graph α) : Nat := g.factors.length

def ids (g : Graph α) : List String := g.factors.map (·.label)

/-- The name that a graph gives to a factor without one: its kind and the number of factors
    before it. -/
def givenId (g : Graph α) (f : Factor α) : String :=
  f.measurement.kind.toLower ++ "_" ++ toString g.size

/-- The factor with a name: its own, or the one that the graph gives. -/
def named (g : Graph α) (f : Factor α) : Factor α :=
  match f.id with
  | some _ => f
  | none => { f with id := some (g.givenId f) }

@[simp] theorem named_measurement (g : Graph α) (f : Factor α) :
    (g.named f).measurement = f.measurement := by
  cases h : f.id <;> simp [named, h]

@[simp] theorem named_noise (g : Graph α) (f : Factor α) : (g.named f).noise = f.noise := by
  cases h : f.id <;> simp [named, h]

/-- Add a factor at the end, unless its name is taken.  The factor is returned too, because it
    has a name afterwards. -/
def add (g : Graph α) (f : Factor α) : Factor α × Except Error (Graph α) :=
  let f := g.named f
  (f, if g.ids.elem f.label then .error (.duplicateFactor f.label) else .ok ⟨g.factors ++ [f]⟩)

/-- The graph of given factors, added one after another. -/
def ofFactors (factors : List (Factor α)) : Except Error (Graph α) :=
  factors.foldlM (fun g f => (g.add f).2) empty

/-- The variables that factors refer to, in the order of their first appearance. -/
def keys (g : Graph α) : List Key := distinct (g.factors.flatMap (·.keys))

def checkFactor (values : Values α) (f : Factor α) : Except Error Unit :=
  match f.keys.find? fun key => !values.contains key with
  | some key => .error (.missingVariable key f.label)
  | none => .ok ()

def checkKeys (g : Graph α) (values : Values α) : Except Error Unit :=
  g.factors.forM (checkFactor values)

/-- The neighbours of given variables: two variables are neighbours when a factor refers to
    both. -/
def adjacency (g : Graph α) (keys : List Key) : Except Error Adjacency :=
  g.factors.foldlM
    (fun adjacency f => adjacency.connect f.keys fun key => .missingVariable key f.label)
    ((distinct keys).map fun key => (key, []))

def countKind (kinds : List (String × Nat)) (kind : String) : List (String × Nat) :=
  match kinds with
  | [] => [(kind, 1)]
  | entry :: rest =>
    if entry.1 = kind then (kind, entry.2 + 1) :: rest else entry :: countKind rest kind

/-- What the graph consists of; every factor needs its noise to have a size. -/
def summary (g : Graph α) : Except Error Summary := do
  let dims ← g.factors.mapM (·.dim)
  return {
    unknowns := g.keys.length
    factors := g.size
    residuals := total dims
    kinds := (g.factors.map (·.measurement.kind)).foldl countKind [] }

variable [Scalar α]

def ofGiven (number : α → String) (g : Given α) : Except Error (Graph α) := do
  let factors ← g.items.mapM (Factor.ofGiven number)
  ofFactors factors

def cost (g : Graph α) (values : Values α) : Except Error α := do
  g.checkKeys values
  let costs ← g.factors.mapM fun f => f.cost values.entries
  return Vec.sum costs

/-- The whitened residuals of all factors, one after another. -/
def residuals (g : Graph α) (values : Values α) : Except Error (Tensor α) := do
  g.checkKeys values
  let residuals ← g.factors.mapM fun f => f.whitened values.entries
  Tensor.concatenate residuals

/-- The linear problem that stands for the graph around an estimate. -/
def linearize (g : Graph α) (values : Values α) : Except Error (LinearGraph α) := do
  g.checkKeys values
  let factors ← g.factors.mapM fun f => f.linearize values.entries
  return ⟨factors⟩

end Graph

end LeastSquares
