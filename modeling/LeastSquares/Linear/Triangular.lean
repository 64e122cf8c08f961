/-
  LeastSquares/Linear/Triangular.lean
  ===================================
  **Triangular factors: reduction by reflections, and back-substitution.**

  A reflection sends a given column to a multiple of the first unit vector and keeps all
  lengths and angles.  Reflecting column after column leads to an upper trapezoidal matrix
  without changing the inner products of columns, which are all that a least-squares problem
  depends on.  Each step emits one finished row, so the matrix has as many rows as the
  smaller of height and width.
-/
import LeastSquares.Mat

namespace LeastSquares

namespace Triangular

variable {α : Type} [Scalar α]

/-! ### Reflections -/

/-- A reflection that sends a column to a multiple of the first unit vector. -/
structure Reflection (α : Type) where
  image : α
  /-- The factor of the rank-one change; zero for the identity. -/
  factor : α
  /-- The direction of the change, whose first component is one, without that component. -/
  direction : Vec α

/-- The length of the third side of a right triangle, in units of the longer of the others. -/
def hypotenuse (x y : α) : α := Vec.scaledNorm [x, y]

/-- Divide by a number: multiply by its reciprocal, unless that is too large. -/
def divideBy (xs : Vec α) (x : α) : Vec α :=
  let reciprocal := 1 / x
  if Scalar.isFinite reciprocal then xs.map (· * reciprocal) else xs.map (· / x)

/-- The reflection for a column with a given first entry and given further entries; it is the
    identity when those are zero. -/
def Reflection.ofColumn (head : α) (tail : Vec α) : Reflection α :=
  let rest := Vec.scaledNorm tail
  if Scalar.isZero rest then ⟨head, 0, tail⟩
  else
    let size := hypotenuse head rest
    let image := if 0 ≤ head then -size else size
    ⟨image, (image - head) / image, divideBy tail (head - image)⟩

/-- Drop zeros at the end; what is no number is kept. -/
def withoutTrailingZeros (xs : Vec α) : Vec α :=
  (xs.reverse.dropWhile Scalar.isZero).reverse

def subFront (xs ys : Vec α) : Vec α := Vec.sub xs ys ++ xs.drop ys.length

/-- Apply a reflection to rows, given without their first column: the first row, and the
    others.  Rows behind the end of the direction, and columns behind which all rows that the
    reflection reaches are zero, take no part: a product with zero would turn what is not finite
    into a value that compares with nothing. -/
def Reflection.apply (r : Reflection α) (first : Vec α) (others : List (Vec α)) :
    Vec α × List (Vec α) :=
  if Scalar.isZero r.factor then (first, others)
  else
    let direction := withoutTrailingZeros r.direction
    let reached := others.take direction.length
    let width := ((first :: reached).map fun row => (withoutTrailingZeros row).length).foldl max 0
    let along := (direction.zip reached).foldl
      (fun acc entry => Vec.add acc (Vec.scale entry.1 entry.2)) (first.take width)
    let change := Vec.scale r.factor along
    (subFront first change,
      List.zipWith (fun c row => subFront row (Vec.scale c change)) direction reached ++
        others.drop direction.length)

/-! ### Reduction -/

def reduceRows : Nat → List (Vec α) → List (Vec α)
  | 0, _ => []
  | _, [] => []
  | width + 1, first :: others =>
    let r := Reflection.ofColumn (first.headD 0) (others.map (·.headD 0))
    let (top, rest) := r.apply first.tail (others.map List.tail)
    (r.image :: top) :: (reduceRows width rest).map (0 :: ·)

def reduce (m : Mat α) : Mat α := ⟨m.width, reduceRows m.width m.rows⟩

/-! ### Back-substitution -/

/-- Solve for the unknowns from a place on, given the rows of an upper triangular matrix from
    that place on. -/
def solveFrom : Nat → List (Vec α) → Vec α → Vec α
  | place, row :: rows, y :: ys =>
    let xs := solveFrom (place + 1) rows ys
    match row.drop place with
    | pivot :: rest => (y - Vec.dot rest xs) / pivot :: xs
    | [] => xs
  | _, _, _ => []

/-- Solve an upper triangular system, whose entries have to be finite. -/
def solve (m : Mat α) (rhs : Vec α) : Except Error (Vec α) :=
  if m.rows.all Vec.isFinite && Vec.isFinite rhs then .ok (solveFrom 0 m.rows rhs)
  else .error .notFinite

end Triangular

end LeastSquares
