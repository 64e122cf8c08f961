/-
  LeastSquares/Order/Bandwidth.lean
  =================================
  **An order that keeps neighbours close to each other.**

  The variables are visited breadth first, from variables with few neighbours and along
  neighbours by their number of neighbours; the order of the visits is then reversed.
-/
import LeastSquares.Graph

namespace LeastSquares

namespace Bandwidth

/-- Sort places by a number that belongs to each; equal ones stay in order. -/
def sortBy (degree : Nat → Nat) (places : List Nat) : List Nat :=
  places.mergeSort fun a b => degree a ≤ degree b

/-- Visit breadth first: `waiting` holds visited places whose neighbours are still to be looked
    at, `visited` all places so far; the first argument bounds the number of places. -/
def visit (neighbours : Nat → List Nat) (degree : Nat → Nat) :
    Nat → List Nat → List Nat → List Nat
  | 0, _, visited => visited
  | _, [], visited => visited
  | count + 1, place :: waiting, visited =>
    let found := sortBy degree ((neighbours place).filter fun other => !visited.elem other)
    visit neighbours degree count (waiting ++ found) (visited ++ found)

/-- Visit everything, from each seed that is not visited yet. -/
def visitAll (neighbours : Nat → List Nat) (degree : Nat → Nat) (count : Nat)
    (seeds : List Nat) : List Nat :=
  seeds.foldl (fun visited seed =>
    if visited.elem seed then visited
    else visit neighbours degree (count + 1) [seed] (visited ++ [seed])) []

/-- The places of the neighbours of the variable at a place, in ascending order. -/
def places (keys : List Key) (adjacency : Adjacency) (place : Nat) : List Nat :=
  match keys[place]? with
  | none => []
  | some key =>
    let neighbours := (adjacency.get? key).getD []
    (List.range keys.length).filter fun other =>
      match keys[other]? with
      | some key => neighbours.elem key
      | none => false

/-- The reversed order of the visits of given variables. -/
def order (keys : List Key) (adjacency : Adjacency) : List Key :=
  let table := ((List.range keys.length).map (places keys adjacency)).toArray
  let neighbours := fun place => table.getD place []
  let degree := fun place => (neighbours place).length
  let visited := visitAll neighbours degree keys.length (sortBy degree (List.range keys.length))
  visited.reverse.filterMap fun place => keys[place]?

end Bandwidth

end LeastSquares
