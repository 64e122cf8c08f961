/-
  LeastSquares/Linear/SpanningForest.lean
  =======================================
  **Spanning forests of weighted graphs.**

  Vertices are the natural numbers below a bound.  A forest is chosen either by weight, taking
  the lightest edge that closes no cycle, or by breadth-first visits from the vertices in
  ascending order.
-/
import LeastSquares.Scalar

namespace LeastSquares

/-- An edge between two vertices, the smaller one first, that stands for a factor. -/
structure Edge (α : Type) where
  first : Nat
  second : Nat
  weight : α
  factor : Nat
deriving Repr

namespace Edge

variable {α : Type}

def parallel (e f : Edge α) : Bool := e.first = f.first && e.second = f.second

variable [Scalar α]

/-- The order in which edges are tried: by weight, where a weight that is no number comes last,
    then by their vertices. -/
def before (e f : Edge α) : Bool :=
  if e.weight < f.weight then true
  else if f.weight < e.weight then false
  else if Scalar.isNumber e.weight != Scalar.isNumber f.weight then Scalar.isNumber e.weight
  else if e.first = f.first then e.second ≤ f.second
  else e.first < f.first

/-- An edge counts when its weight is not zero. -/
def counts (e : Edge α) : Bool := !Scalar.isZero e.weight

end Edge

namespace SpanningForest

variable {α : Type}

/-! ### By weight -/

/-- Each vertex in a component of its own; a component is named by one of its vertices. -/
def separate (count : Nat) : List Nat := List.range count

def component (labels : List Nat) (vertex : Nat) : Nat := labels.getD vertex vertex

def join (labels : List Nat) (a b : Nat) : List Nat :=
  labels.map fun label => if label = a then b else label

/-- Take each edge that joins two components. -/
def takeJoining : List (Edge α) → List Nat → List (Edge α)
  | [], _ => []
  | e :: edges, labels =>
    let a := component labels e.first
    let b := component labels e.second
    if a = b then takeJoining edges labels else e :: takeJoining edges (join labels a b)

/-- A spanning forest of least weight; an edge of weight zero joins its ends, but is left out in
    the end. -/
def minimum [Scalar α] (count : Nat) (edges : List (Edge α)) : List (Edge α) :=
  (takeJoining (edges.mergeSort Edge.before) (separate count)).filter Edge.counts

/-! ### By breadth-first visits -/

/-- The neighbours of a vertex in ascending order, each with the edge to it. -/
def neighbours (count : Nat) (edges : List (Edge α)) (vertex : Nat) : List (Nat × Edge α) :=
  (List.range count).filterMap fun other =>
    (edges.find? fun e => (e.first = vertex && e.second = other) ||
      (e.first = other && e.second = vertex)).map fun e => (other, e)

/-- Visit breadth first: the vertices whose neighbours are still to be looked at, all visited
    vertices, and the edges that were used; the first argument bounds the number of vertices. -/
def visit (neighbours : Nat → List (Nat × Edge α)) :
    Nat → List Nat → List Nat → List (Edge α) → List Nat × List (Edge α)
  | 0, _, visited, used => (visited, used)
  | _, [], visited, used => (visited, used)
  | count + 1, vertex :: waiting, visited, used =>
    let found := (neighbours vertex).filter fun entry => !visited.elem entry.1
    visit neighbours count (waiting ++ found.map (·.1)) (visited ++ found.map (·.1))
      (used ++ found.map (·.2))

/-- A spanning forest of breadth-first trees over the edges whose weight is not zero. -/
def breadthFirst [Scalar α] (count : Nat) (edges : List (Edge α)) : List (Edge α) :=
  let edges := edges.filter Edge.counts
  ((List.range count).foldl (fun (state : List Nat × List (Edge α)) start =>
    if state.1.elem start then state
    else visit (neighbours count edges) (count + 1) [start] (state.1 ++ [start]) state.2)
    ([], [])).2

end SpanningForest

end LeastSquares
