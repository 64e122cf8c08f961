/-
  LeastSquares/Linear/Sparse.lean
  ===============================
  **The stacked matrix of a linear problem, and its normal equations.**

  The rows of all factors are put under each other, with the columns of the variables side by
  side in a given order.  Only entries that are not zero are stored; what is stored twice at
  one place is added.  Products go over the stored entries alone.
-/
import LeastSquares.Linear.Graph

namespace LeastSquares

/-- The stored entries of one row, by ascending column. -/
abbrev SparseRow (α : Type) := List (Nat × α)

structure Sparse (α : Type) where
  width : Nat
  /-- The rows, from top to bottom. -/
  rows : List (SparseRow α)
deriving Repr

namespace SparseRow

variable {α : Type} [Scalar α]

/-- Store an entry; one that is at the place already is added to. -/
def store (row : SparseRow α) (column : Nat) (x : α) : SparseRow α :=
  match row with
  | [] => [(column, x)]
  | entry :: rest =>
    if column < entry.1 then (column, x) :: entry :: rest
    else if column = entry.1 then (column, entry.2 + x) :: rest
    else entry :: store rest column x

/-- Store the entries of a vector that are not zero, from a column on. -/
def storeVec (row : SparseRow α) : Nat → Vec α → SparseRow α
  | _, [] => row
  | column, x :: xs =>
    storeVec (if Scalar.isZero x then row else row.store column x) (column + 1) xs

/-- The entry at a column; zero when none is stored. -/
def entry (row : SparseRow α) (column : Nat) : α := (row.lookup column).getD 0

def addScaled (row : SparseRow α) (c : α) (other : SparseRow α) : SparseRow α :=
  other.foldl (fun acc e => acc.store e.1 (c * e.2)) row

def dot (row : SparseRow α) (x : Array α) : α :=
  Vec.sum (row.map fun e => e.2 * x.getD e.1 0)

end SparseRow

namespace Sparse

variable {α : Type} [Scalar α]

def stored (m : Sparse α) : Nat := total (m.rows.map List.length)

def toMat (m : Sparse α) : Mat α :=
  ⟨m.width, m.rows.map fun row => (List.range m.width).map row.entry⟩

def mulVec (m : Sparse α) (x : Vec α) : Vec α :=
  let xs := x.toArray
  m.rows.map fun row => row.dot xs

def transposeMulVec (m : Sparse α) (y : Vec α) : Vec α :=
  (m.rows.zip y).foldl
    (fun acc entry => entry.1.foldl (fun acc e => Vec.addAt acc e.1 (e.2 * entry.2)) acc)
    (Vec.zeros m.width)

/-- The product of the transposed matrix and an array of one or two axes. -/
def transposeMul (m : Sparse α) (b : Tensor α) : Except Error (Tensor α) :=
  match b.shape with
  | [_] => .ok (.ofVector (m.transposeMulVec b.data))
  | [height, count] =>
    let rows := Tensor.cut count b.data height
    let columns := (List.range count).map fun j => m.transposeMulVec (rows.map (·.getD j 0))
    .ok ⟨[m.width, count],
      (List.range m.width).flatMap fun i => columns.map (·.getD i 0)⟩
  | _ => .error .shapeMismatch

def gram (m : Sparse α) : Sparse α :=
  ⟨m.width, m.rows.foldl
    (fun rows row => row.foldl (fun rows e => rows.modify e.1 (·.addScaled e.2 row)) rows)
    (List.replicate m.width [])⟩

/-- The diagonal, with zeros where nothing is stored. -/
def diagonal (m : Sparse α) : Vec α := m.rows.mapIdx fun i row => row.entry i

def addDiagonal (m : Sparse α) (x : Vec α) : Sparse α :=
  ⟨m.width, (m.rows.zip x).mapIdx fun i row => row.1.store i row.2⟩

end Sparse

/-! ### Stacking -/

namespace LinearFactor

variable {α : Type} [Scalar α]

/-- The rows of matrices, each block from the first column of its variable on. -/
def sparseBlocks (offsets : Table Nat) (height : Nat) (blocks : Table (Mat α)) :
    Except Error (List (SparseRow α)) :=
  blocks.foldlM (fun rows entry => do
    let offset ← offsets.find entry.1
    return List.zipWith (fun row xs => row.storeVec offset xs) rows entry.2.rows)
    (List.replicate height [])

/-- The rows of one factor; a block of more axes than a matrix has none. -/
def sparseRows (offsets : Table Nat) : LinearFactor α → Except Error (List (SparseRow α))
  | dense blocks rhs => sparseBlocks offsets rhs.length blocks
  | arrays blocks rhs => do
    let matrices ← blocks.mapM fun entry => do
      let block ← Mat.ofTensor entry.2
      let _ ← offsets.find entry.1
      return (entry.1, block)
    sparseBlocks offsets rhs.outerLength matrices

end LinearFactor

namespace LinearGraph

variable {α : Type} [Scalar α]

/-- The stacked matrix, with the columns in the order of given variables. -/
def stackedMatrix (g : LinearGraph α) (keys : List Key) (dims : Table Nat) :
    Except Error (Sparse α) := do
  let (offsets, width) ← columnOffsets dims keys
  let rows ← g.factors.mapM (LinearFactor.sparseRows offsets)
  let rows := rows.flatten
  if rows.any fun row => row.any fun e => decide (width ≤ e.1) then throw .shapeMismatch
  return ⟨width, rows⟩

def stackedRhs (g : LinearGraph α) : Except Error (Tensor α) :=
  Tensor.concatenate (g.factors.map (·.rhsArray))

def stacked (g : LinearGraph α) (keys : List Key) (dims : Table Nat) :
    Except Error (Sparse α × Tensor α) := do
  let a ← g.stackedMatrix keys dims
  let b ← g.stackedRhs
  return (a, b)

def normal (g : LinearGraph α) (keys : List Key) (dims : Table Nat) :
    Except Error (Sparse α × Tensor α) := do
  let (a, b) ← g.stacked keys dims
  let gradient ← a.transposeMul b
  return (a.gram, gradient)

end LinearGraph

end LeastSquares
