/-
  LeastSquares/Order/MinimumDegree.lean
  =====================================
  **Greedy elimination of a variable with the fewest neighbours.**

  Eliminating a variable makes its neighbours neighbours of each other.  At each step a
  variable with the fewest neighbours left is taken, of several the one that was given first.
-/
import LeastSquares.Graph

namespace LeastSquares

namespace Adjacency

def degree (adjacency : Adjacency) (key : Key) : Nat :=
  ((adjacency.get? key).getD []).length

/-- Eliminate a variable: it disappears, and its neighbours become neighbours. -/
def eliminate (adjacency : Adjacency) (key : Key) : Adjacency :=
  let neighbours := (adjacency.get? key).getD []
  (adjacency.erase key).map fun row =>
    if neighbours.elem row.1 then
      (row.1, union (row.2.filter (· ≠ key)) (neighbours.filter (· ≠ row.1)))
    else row

end Adjacency

namespace MinimumDegree

/-- Of the first variable and the others, one with the fewest neighbours: the earliest. -/
def least (adjacency : Adjacency) (first : Key) (others : List Key) : Key :=
  (others.foldl (fun best key =>
    let degree := adjacency.degree key
    if degree < best.2 then (key, degree) else best) (first, adjacency.degree first)).1

/-- Eliminate variables one after another, as long as some remain; the first argument bounds
    their number. -/
def eliminateAll : Nat → List Key → Adjacency → List Key
  | 0, _, _ => []
  | _, [], _ => []
  | count + 1, first :: others, adjacency =>
    let key := least adjacency first others
    key :: eliminateAll count ((first :: others).erase key) (adjacency.eliminate key)

def order (keys : List Key) (adjacency : Adjacency) : List Key :=
  eliminateAll keys.length keys adjacency

end MinimumDegree

end LeastSquares
