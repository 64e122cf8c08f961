/-
  LeastSquares/Linear/BayesTree.lean
  ==================================
  **Elimination of several variables at once, along a tree of fronts.**

  Which factors arise in elimination depends on what the factors are about, not on their
  numbers.  A front is a set of variables that are eliminated together: a variable joins the
  front of the one variable that it directly follows in the tree of elimination, when nothing
  but itself leaves the separator.  The fronts form a forest, whose conditionals are solved
  from the roots down.  The fronts are kept as long as the factors are about the same
  variables.
-/
import LeastSquares.Linear.BayesNet
import LeastSquares.Order.MinimumDegree

namespace LeastSquares

/-- Variables that are eliminated together, with their place in the forest. -/
structure Front where
  /-- The variables, in the order of elimination. -/
  frontals : List Key
  /-- The later variables that their factors touch. -/
  separator : List Key
  /-- The front that the separator leads to. -/
  parent : Option Nat
  /-- The fronts that lead to this one. -/
  children : List Nat
deriving DecidableEq, Repr

namespace Front

def shown (f : Front) : String :=
  let separator := Text.bracketed ((Key.shownSorted f.separator).map Text.quoted)
  s!"Front(frontals={Key.shownList f.frontals}, separator={separator})"

end Front

/-- A forest of fronts, and the front of each variable. -/
structure FrontForest where
  /-- The fronts, in the order of their first variables. -/
  fronts : List Front
  frontOf : Table Nat
deriving DecidableEq, Repr

namespace FrontForest

def empty : FrontForest := ⟨[], []⟩

/-- The neighbours of each variable at the time it is eliminated. -/
def separators : List Key → Adjacency → Table (List Key)
  | [], _ => []
  | key :: keys, adjacency =>
    (key, (adjacency.get? key).getD []) :: separators keys (adjacency.eliminate key)

/-- The same keys, in whatever order. -/
def sameKeys (a b : List Key) : Bool := a.all b.elem && b.all a.elem

def separatorIn (table : Table (List Key)) (key : Key) : List Key := (table.get? key).getD []

/-- The parent of a variable: the earliest variable of its separator. -/
def parentIn (order : EliminationOrder) (table : Table (List Key)) (key : Key) : Option Key :=
  order.keys.find? (separatorIn table key).elem

/-- The fronts while they are built: the variables and the separator of each, and the front of
    each variable so far. -/
structure Growth where
  fronts : List (List Key × List Key)
  frontOf : Table Nat

/-- A variable joins the front of its only child when that front ends there and loses nothing
    but the variable from its separator; otherwise it starts a front. -/
def grow (table : Table (List Key)) (childrenOf : Key → List Key) (g : Growth) (key : Key) :
    Growth :=
  let separator := separatorIn table key
  let start : Growth := ⟨g.fronts ++ [([key], separator)], g.frontOf.set key g.fronts.length⟩
  match childrenOf key with
  | [child] =>
    match g.frontOf.get? child with
    | none => start
    | some index =>
      match g.fronts[index]? with
      | none => start
      | some front =>
        if front.1.getLast? = some child ∧
            sameKeys (separatorIn table child) (key :: separator) then
          ⟨g.fronts.set index (front.1 ++ [key], separator), g.frontOf.set key index⟩
        else start
  | _ => start

/-- The fronts of a linear problem in an order of elimination. -/
def ofGraph {α : Type} (order : EliminationOrder) (g : LinearGraph α) :
    Except Error FrontForest := do
  let adjacency ← g.factors.foldlM
    (fun (adjacency : Adjacency) f => adjacency.connect f.keys fun _ => .absentKey)
    (order.keys.map fun key => (key, []))
  let table := separators order.keys adjacency
  let parents := order.keys.map fun key => (key, parentIn order table key)
  let childrenOf := fun key => (parents.filter fun entry => entry.2 = some key).map (·.1)
  let growth := order.keys.foldl (grow table childrenOf) ⟨[], []⟩
  let parentOf := fun (front : List Key × List Key) =>
    (front.1.getLast?.bind (parentIn order table)).bind growth.frontOf.get?
  let parents := growth.fronts.map parentOf
  let fronts := growth.fronts.mapIdx fun index front =>
    { frontals := front.1
      separator := front.2
      parent := parentOf front
      children := (parents.zipIdx.filter fun entry => entry.1 = some index).map (·.2) : Front }
  return ⟨fronts, growth.frontOf⟩

end FrontForest

/-! ### Numeric elimination -/

structure BayesTree (α : Type) where
  fronts : List Front
  /-- The conditional of each front that has been eliminated. -/
  conditionals : List (Option (Conditional α))
deriving Repr

namespace BayesTree

variable {α : Type} [Scalar α]

def roots (t : BayesTree α) : List Nat :=
  (t.fronts.zipIdx.filter fun entry => entry.1.parent.isNone).map (·.2)

/-- Solve the fronts on a stack, and below each its children; the first argument bounds the
    number of visits. -/
def visit (t : BayesTree α) : Nat → List Nat → Delta α → Except Error (Delta α)
  | 0, _, solution => .ok solution
  | _, [], solution => .ok solution
  | count + 1, index :: stack, solution => do
    let front ← itemAt t.fronts index
    let conditional ← itemAt t.conditionals index
    match conditional with
    | none => throw .absentObject
    | some c =>
      let solution ← c.solve solution
      visit t count (front.children.reverse ++ stack) solution

/-- Solve all conditionals, from the roots down. -/
def optimize (t : BayesTree α) : Except Error (Delta α) :=
  t.visit t.fronts.length t.roots.reverse Delta.empty

def route (frontOf : Table Nat) (count : Nat) (key : Key) : Except Error Nat := do
  let index ← frontOf.find key
  if index < count then return index else throw .outOfRange

/-- What becomes of a factor on a separator: it goes to the front of its first variable. -/
def routeUpdate (frontOf : Table Nat) (count : Nat) (update : Option (LinearFactor α)) :
    Except Error (List (Nat × LinearFactor α)) :=
  match update with
  | none => .ok []
  | some f => do
    let key ← itemAt f.keys 0
    let index ← route frontOf count key
    return [(index, f)]

/-- Eliminate the fronts from an index on, from the factors that wait: the conditionals up to
    the first failure, and the failure. -/
def eliminateFronts (dims position frontOf : Table Nat) (count : Nat) :
    Nat → List Front → List (Nat × LinearFactor α) → List (Conditional α) × Option Error
  | _, [], _ => ([], none)
  | index, front :: fronts, pending =>
    let mine := (pending.filter fun entry => entry.1 = index).map (·.2)
    match Elimination.eliminate mine front.frontals dims position with
    | .error e => ([], some e)
    | .ok (conditional, update) =>
      match routeUpdate frontOf count update with
      | .error e => ([conditional], some e)
      | .ok more =>
        let rest := eliminateFronts dims position frontOf count (index + 1) fronts
          (pending ++ more)
        (conditional :: rest.1, rest.2)

/-- Each factor with the front of the earliest of its variables; a factor without variables is
    dropped. -/
def assign (position frontOf : Table Nat) (count : Nat) (g : LinearGraph α) :
    Except Error (List (Nat × LinearFactor α)) :=
  (g.factors.filter fun f => !f.keys.isEmpty).mapM fun f => do
    let key ← earliest position f.keys
    let index ← route frontOf count key
    return (index, f)

end BayesTree

/-! ### The solver -/

/-- The tree that the last elimination that succeeded has left. -/
inductive LastTree (α : Type) where
  /-- It is the one that is worked on, and is changed with it. -/
  | working
  /-- It has fronts of its own, because others are worked on since. -/
  | kept (tree : BayesTree α)

/-- A solver that eliminates fronts and keeps them for problems of the same structure. -/
structure MultifrontalSolver (α : Type) where
  order : EliminationOrder
  dims : Table Nat
  /-- What the factors are about that the fronts were built for. -/
  structureKey : Option (List (List Key))
  /-- The tree that is worked on. -/
  tree : BayesTree α
  /-- The front of each variable, by the last analysis. -/
  frontOf : Table Nat
  /-- The tree of the last elimination that succeeded. -/
  last : Option (LastTree α)

namespace MultifrontalSolver

variable {α : Type} [Scalar α]

/-- A solver for the variables of an estimate, which the order has to list. -/
def make (values : Values α) (order : EliminationOrder) :
    Except Error (MultifrontalSolver α) := do
  order.validate values.keys
  return ⟨order, values.dims, none, ⟨[], []⟩, [], none⟩

def lastTree? (s : MultifrontalSolver α) : Option (BayesTree α) :=
  s.last.map fun
    | .working => s.tree
    | .kept tree => tree

/-- Build the fronts of a linear problem; the front of each variable is remembered. -/
def symbolic (s : MultifrontalSolver α) (g : LinearGraph α) :
    Attempt (MultifrontalSolver α) α (List Front) :=
  match FrontForest.ofGraph s.order g with
  | .error e => ⟨.error e, s, []⟩
  | .ok forest => ⟨.ok forest.fronts, { s with frontOf := forest.frontOf }, []⟩

/-- Set up the fronts of a linear problem, unless it has the structure of the one before. -/
def prepare (s : MultifrontalSolver α) (g : LinearGraph α) :
    Attempt (MultifrontalSolver α) α Unit :=
  if s.structureKey = some g.structureKey then ⟨.ok (), s, []⟩
  else
    let analysis := s.symbolic g
    match analysis.result with
    | .error e => ⟨.error e, analysis.memory, []⟩
    | .ok fronts =>
      let memory := { analysis.memory with
        structureKey := some g.structureKey
        tree := ⟨fronts, fronts.map fun _ => none⟩
        last := s.lastTree?.map .kept }
      ⟨.ok (), memory, [⟨.debug, .frontsAnalysed s.order.size fronts.length⟩]⟩

/-- Eliminate all fronts; the conditionals that are found replace the earlier ones even when a
    later front fails. -/
def eliminate (s : MultifrontalSolver α) (g : LinearGraph α) :
    Attempt (MultifrontalSolver α) α (BayesTree α) :=
  let prepared := s.prepare g
  let s := prepared.memory
  let position := s.order.positions
  let count := s.tree.fronts.length
  match prepared.result with
  | .error e => ⟨.error e, s, prepared.reports⟩
  | .ok () =>
    match BayesTree.assign position s.frontOf count g with
    | .error e => ⟨.error e, s, prepared.reports⟩
    | .ok pending =>
      let (found, failure) :=
        BayesTree.eliminateFronts s.dims position s.frontOf count 0 s.tree.fronts pending
      let tree : BayesTree α :=
        ⟨s.tree.fronts, found.map some ++ s.tree.conditionals.drop found.length⟩
      let s := { s with tree := tree }
      match failure with
      | some e => ⟨.error e, s, prepared.reports⟩
      | none => ⟨.ok tree, s, prepared.reports⟩

def solve (s : MultifrontalSolver α) (g : LinearGraph α) :
    Attempt (MultifrontalSolver α) α (Delta α) :=
  let eliminated := s.eliminate g
  match eliminated.result with
  | .error e => ⟨.error e, eliminated.memory, eliminated.reports⟩
  | .ok tree =>
    let solution := do
      let delta ← tree.optimize
      delta.ordered s.order.keys
    ⟨solution, { eliminated.memory with last := some .working }, eliminated.reports⟩

end MultifrontalSolver

end LeastSquares
