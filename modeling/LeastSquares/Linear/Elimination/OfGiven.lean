/-
  LeastSquares/Linear/Elimination/OfGiven.lean
  ============================================
  **Eliminations with positions and sizes as they are given.**

  The variables of the separator are sorted by their positions, which may be numbers or texts but
  not both; a single one is not compared with anything.  Sizes are added up before they are used:
  too few rows are found out with any numbers, and what is no natural number is refused where the
  stacked matrix is made.
-/
import LeastSquares.Linear.Elimination
import LeastSquares.Sorting

namespace LeastSquares

namespace Elimination

variable {α : Type} [Scalar α]

/-- A bare number, where an integer beyond all numbers of the carrier counts as infinite. -/
def measureOf : Given α → Except Error α
  | .integer n => .ok (Scalar.ofInt n)
  | other => other.toNumber

/-! ### Positions -/

/-- A position comes before another: integers exactly, numbers by their value, texts in the order
    of their characters. -/
def before : Given α → Given α → Except Error Bool
  | .integer m, .integer n => .ok (decide (m < n))
  | .text s, .text t => .ok (decide (s < t))
  | a, b => do
    let x ← measureOf a
    let y ← measureOf b
    return decide (x < y)

def checkPlaces (places : List (Given α)) : Except Error Unit :=
  match places with
  | [] => .ok ()
  | first :: rest => do
    for place in rest do
      let _ ← before first place

/-- The ranks of variables by their positions; equal positions are kept in order. -/
def placesOf (positions : Table (Given α)) (keys : List Key) : Except Error (Table Nat) := do
  let placed ← keys.mapM fun key => (positions.find key).map fun place =>
    (key, Given.withNumbers place)
  checkPlaces (placed.map (·.2))
  let below := fun (a b : Key × Given α) =>
    match before a.2 b.2 with
    | .ok answer => answer
    | .error _ => false
  return (Sorting.sort below placed).zipIdx.map fun row => (row.1.1, row.2)

/-! ### Sizes -/

/-- The first variable at whose end more than so many columns are used; the last one when there is
    none. -/
def keyBeyond (height used : α) : List (Key × α) → Except Error Key
  | [] => .error .outOfRange
  | [row] => .ok row.1
  | row :: rest =>
    if height < used + row.2 then .ok row.1 else keyBeyond height (used + row.2) rest

/-- Why the stacked matrix can not be made when its right-hand side is in the column before the
    first: of the first factor a block fits into no column when it has several, and the right-hand
    side fits nowhere. -/
def refusalWithoutColumns : List (LinearFactor α) → Error
  | [] => .emptyMaximum
  | f :: _ => if f.widths.all fun row => row.2 ≤ 1 then .outOfRange else .shapeMismatch

/-- Why variables of given sizes, which are not all natural numbers, can not be eliminated. -/
def refusalOf (factors : List (LinearFactor α)) (frontals : List Key)
    (sizes : List (Key × Given α)) : Except Error Error := do
  let numbers ← sizes.mapM fun row => (measureOf row.2).map fun x => (row.1, x)
  let first := numbers.take frontals.length
  let height : α := Scalar.ofNat (total (factors.map (·.rows)))
  if height < Vec.sum (first.map (·.2)) then
    let key ← keyBeyond height 0 first
    return .indeterminate key
  match sizes.mapM fun row => row.2.toInt with
  | .error e => return e
  | .ok integers =>
    if integers.foldl (· + ·) 0 = -1 then return refusalWithoutColumns factors
    else return .negativeSize

/-- The sizes of the variables that are eliminated and of their separator. -/
def sizesOf (factors : List (LinearFactor α)) (frontals separator : List Key)
    (dims : Table (Given α)) : Except Error (Table Nat) := do
  let sizes ← (frontals ++ separator).mapM fun key => do
    let size ← dims.find key
    let _ ← measureOf size
    return (key, size)
  let natural := sizes.mapM fun row =>
    match row.2.toInt with
    | .ok n => if n < 0 then none else some (row.1, n.toNat)
    | .error _ => none
  match natural with
  | some rows => return Table.ofRows rows
  | none => do
    let refusal ← refusalOf factors frontals sizes
    throw refusal

/-! ### Eliminations -/

/-- Eliminate variables from the factors that touch them, with positions and sizes as they are
    given. -/
def ofGiven (factors : List (LinearFactor α)) (frontals : List Key)
    (dims positions : Table (Given α)) :
    Except Error (Conditional α × Option (LinearFactor α)) := do
  let others := distinct ((factors.flatMap (·.keys)).filter fun key => !frontals.elem key)
  let places ← placesOf positions others
  let sizes ← sizesOf factors frontals places.keys dims
  checkRoom factors frontals sizes
  eliminate factors frontals sizes places

end Elimination

end LeastSquares
