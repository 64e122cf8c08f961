/-
  LeastSquares/Linear/Lu.lean
  ===========================
  **Factorization of a square matrix by elimination with row exchanges.**

  At each step the row with the greatest entry in the first column is the pivot row; multiples
  of it clear the column in the others.  A system is solved by taking its right-hand side
  through the same steps and then back-substituting.
-/
import LeastSquares.Mat

namespace LeastSquares

structure LuStep (α : Type) where
  /-- The place of the pivot row among the remaining rows. -/
  place : Nat
  /-- The multiples of the pivot row that are taken from the others. -/
  multipliers : Vec α
  pivot : α
  /-- The pivot row after the pivot. -/
  rest : Vec α
deriving Repr

namespace Lu

variable {α : Type} [Scalar α]

/-- The place of the first entry of greatest size above zero, if there is one. -/
def pivotPlace (column : Vec α) : Option Nat :=
  (column.foldl (fun (state : Nat × α × Option Nat) x =>
    let size := Scalar.abs x
    if state.2.1 < size then (state.1 + 1, size, some state.1)
    else (state.1 + 1, state.2.1, state.2.2)) (0, 0, none)).2.2

def steps : Nat → List (Vec α) → Except Error (List (LuStep α))
  | 0, _ => .ok []
  | width + 1, rows =>
    match pivotPlace (rows.map (·.headD 0)) with
    | none => .error .singular
    | some place => do
      let pivotRow := rows.getD place []
      let pivot := pivotRow.headD 0
      let others := rows.eraseIdx place
      let multipliers := others.map fun row => row.headD 0 / pivot
      let reduced := List.zipWith
        (fun m (row : Vec α) => Vec.sub row.tail (Vec.scale m pivotRow.tail)) multipliers others
      let later ← steps width reduced
      return ⟨place, multipliers, pivot, pivotRow.tail⟩ :: later

def factorize (m : Mat α) : Except Error (List (LuStep α)) := steps m.width m.rows

def solve : List (LuStep α) → Vec α → Vec α
  | [], _ => []
  | step :: later, rhs =>
    let y := rhs.getD step.place 0
    let others := List.zipWith (fun x m => x - m * y) (rhs.eraseIdx step.place) step.multipliers
    let xs := solve later others
    (y - Vec.dot step.rest xs) / step.pivot :: xs

end Lu

end LeastSquares
