/-
  LeastSquares/Linear/Elimination.lean
  ====================================
  **Dense elimination of a few variables from the factors that touch them.**

  The factors are stacked into one matrix, with the columns of the eliminated variables first,
  then those of the separator, then the right-hand side.  Of its triangular form the upper rows
  are a conditional, which gives the eliminated variables once the separator is known; the
  lower rows are a factor on the separator that stands for what is left of the costs.
-/
import LeastSquares.Linear.Graph
import LeastSquares.Linear.Triangular

namespace LeastSquares

/-- A triangular system for some variables, given the values of their separator. -/
structure Conditional (α : Type) where
  /-- The variables that are solved for. -/
  frontals : List Key
  /-- The variables that have to be known. -/
  separator : List Key
  dims : Table Nat
  /-- The triangular matrix on the variables that are solved for. -/
  triangle : Mat α
  coupling : Mat α
  rhs : Vec α
deriving Repr

namespace Conditional

variable {α : Type}

def shown (c : Conditional α) : String :=
  s!"GaussianConditional(frontals={Key.shownList c.frontals}, " ++
    s!"separator={Key.shownList c.separator})"

/-- Write consecutive pieces of a vector into a step, one for each variable. -/
def writeBlocks (dims : Table Nat) : List Key → Vec α → Delta α → Except Error (Delta α)
  | [], _, solution => .ok solution
  | key :: keys, xs, solution => do
    let dim ← dims.find key
    writeBlocks dims keys (xs.drop dim) (solution.write key (xs.take dim))

variable [Scalar α]

/-- Solve for the variables of a conditional, given a step that holds its separator, and write
    them into the step. -/
def solve (c : Conditional α) (solution : Delta α) : Except Error (Delta α) := do
  let rhs ← (if c.separator.isEmpty then .ok c.rhs
    else do
      let known ← solution.vectorOf c.separator
      let product ← c.coupling.mulVec? known
      return Vec.sub c.rhs product : Except Error (Vec α))
  let xs ← Triangular.solve c.triangle rhs
  writeBlocks c.dims c.frontals xs solution

end Conditional

namespace Elimination

variable {α : Type} [Scalar α]

/-- A pivot counts as zero when it is at most this fraction of the greatest entry, or of one
    when that is greater. -/
def pivotTolerance : α := 1e-9

/-- The variable that a column belongs to; a column beyond all belongs to the last variable. -/
def keyAtColumn (dims : Table Nat) : List Key → Nat → Except Error Key
  | [], _ => .error .outOfRange
  | [key], _ => .ok key
  | key :: keys, column => do
    let dim ← dims.find key
    if column < dim then return key else keyAtColumn dims keys (column - dim)

/-- The variables that factors touch besides the eliminated ones, by their position. -/
def separatorOf (factors : List (LinearFactor α)) (frontals : List Key) (position : Table Nat) :
    Except Error (List Key) := do
  let others := distinct ((factors.flatMap (·.keys)).filter fun key => !frontals.elem key)
  let placed ← others.mapM fun key => (position.find key).map fun place => (place, key)
  return (placed.mergeSort fun a b => a.1 ≤ b.1).map Prod.snd

def overwrite (row : Vec α) (column : Nat) (part : Vec α) : Vec α :=
  row.take column ++ part ++ row.drop (column + part.length)

/-- The rows of matrices and a vector in the stacked matrix: each block at the columns of its
    variable, with a block of one column repeated over them, and the right-hand side at the
    end. -/
def stackBlocks (dims columns : Table Nat) (width : Nat) (blocks : Table (Mat α)) (rhs : Vec α) :
    Except Error (List (Vec α)) := do
  let rows ← blocks.foldlM (fun rows entry => do
    let column ← columns.find entry.1
    let dim ← dims.find entry.1
    if entry.2.width ≠ dim ∧ entry.2.width ≠ 1 then throw .shapeMismatch
    return List.zipWith (fun row xs => overwrite row column (stretch dim xs)) rows entry.2.rows)
    (List.replicate rhs.length (Vec.zeros width))
  return List.zipWith (fun row b => row ++ [b]) rows rhs

/-- The rows of one factor in the stacked matrix; arrays are written over the places of matrices
    and of a vector. -/
def stackedRows (dims columns : Table Nat) (width : Nat) :
    LinearFactor α → Except Error (List (Vec α))
  | .dense blocks rhs => stackBlocks dims columns width blocks rhs
  | .arrays blocks rhs => do
    let height := rhs.outerLength
    let matrices ← blocks.mapM fun entry => do
      let dim ← dims.find entry.1
      let data ← entry.2.written [height, dim]
      return (entry.1, (⟨dim, Tensor.cut dim data height⟩ : Mat α))
    let b ← rhs.written [height]
    stackBlocks dims columns width matrices b

/-- The stacked matrix has to have room, unless there are too few rows to build it. -/
def checkRoom (factors : List (LinearFactor α)) (frontals : List Key) (dims : Table Nat) :
    Except Error Unit := do
  let (_, frontalWidth) ← columnOffsets dims frontals
  let height := total (factors.map (·.rows))
  let width := total (dims.map (·.2))
  if height < frontalWidth then return ()
  let _ ← Tensor.checkShape [height, width + 1]

/-- Eliminate variables from the factors that touch them: the conditional of the variables, and
    the factor on their separator when there is one. -/
def eliminate (factors : List (LinearFactor α)) (frontals : List Key) (dims position : Table Nat) :
    Except Error (Conditional α × Option (LinearFactor α)) := do
  let separator ← separatorOf factors frontals position
  let (columns, width) ← columnOffsets dims (frontals ++ separator)
  let (_, frontalWidth) ← columnOffsets dims frontals
  let height := total (factors.map (·.rows))
  if height < frontalWidth then
    let key ← keyAtColumn dims frontals height
    throw (.indeterminate key)
  let stacked ← factors.mapM (stackedRows dims columns width)
  let matrix : Mat α := ⟨width + 1, stacked.flatten⟩
  let triangular := Triangular.reduce matrix
  match Vec.maxAbs? matrix.entries with
  | none => throw .emptyMaximum
  | some greatest =>
    let bound := pivotTolerance * Scalar.largerOf 1 greatest
    let pivots := (triangular.top frontalWidth).diagonal
    match pivots.findIdx? fun pivot => decide (Scalar.abs pivot ≤ bound) with
    | some column =>
      let key ← keyAtColumn dims frontals column
      throw (.indeterminate key)
    | none =>
      let upper := triangular.top frontalWidth
      let lower := triangular.below frontalWidth
      let conditional : Conditional α := {
        frontals := frontals
        separator := separator
        dims := dims
        triangle := upper.columns 0 frontalWidth
        coupling := upper.columns frontalWidth (width - frontalWidth)
        rhs := (upper.columns width 1).entries }
      if separator.isEmpty || lower.rows.isEmpty then return (conditional, none)
      let blocks ← separator.mapM fun key => do
        let column ← columns.find key
        let dim ← dims.find key
        return (key, lower.columns column dim)
      return (conditional, some (.dense blocks (lower.columns width 1).entries))

end Elimination

end LeastSquares
