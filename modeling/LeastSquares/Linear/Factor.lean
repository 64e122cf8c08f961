/-
  LeastSquares/Linear/Factor.lean
  ===============================
  **Linear factors: a block for each of a few variables, and a right-hand side.**

  A factor asks that the sum of its blocks, each applied to the step of its variable, be the
  right-hand side.  What is missing is its residual, and half the squared length of the
  residual is its cost.

  Blocks are matrices and the right-hand side is a vector.  Arrays of more axes are kept as they
  are given, with their outermost axis as the rows; of them only what the elementwise rules
  give is computed.
-/
import LeastSquares.Delta
import LeastSquares.Mat

namespace LeastSquares

/-- A linear factor over a few variables. -/
inductive LinearFactor (α : Type) where
  /-- Matrices, by variable, and a vector. -/
  | dense (blocks : Table (Mat α)) (rhs : Vec α)
  /-- Arrays, by variable, and an array, of which one at least has more axes. -/
  | arrays (blocks : Table (Tensor α)) (rhs : Tensor α)
deriving Repr

namespace Tensor

variable {α : Type} [Scalar α]

/-- The product with a vector along the last axis, which has to have its length. -/
def mulVec (t : Tensor α) (x : Vec α) : Except Error (Tensor α) :=
  let outer := t.shape.dropLast
  if t.shape.getLast? = some x.length then
    .ok ⟨outer, (cut x.length t.data (places outer)).map fun row => Vec.dot row x⟩
  else .error .shapeMismatch

def addTo (t s : Tensor α) : Except Error (Tensor α) := do
  let sum ← combine (· + ·) t s
  if sum.shape = t.shape then return sum else throw .shapeMismatch

/-- The product of an array with itself as a single number: the inner product of a vector, or
    the square of an array of one number. -/
def normSq (t : Tensor α) : Except Error α :=
  match t.shape.reverse with
  | _ :: [] => .ok (Vec.normSq t.data)
  | n :: m :: _ =>
    match t.data with
    | [x] => .ok (x * x)
    | _ => .error (if m = n then .badArguments else .shapeMismatch)
  | [] => .error .shapeMismatch

end Tensor

namespace LinearFactor

variable {α : Type}

def keys : LinearFactor α → List Key
  | dense blocks _ => blocks.keys
  | arrays blocks _ => blocks.keys

def rows : LinearFactor α → Nat
  | dense _ rhs => rhs.length
  | arrays _ rhs => rhs.outerLength

def widths : LinearFactor α → Table Nat
  | dense blocks _ => blocks.mapEntries (·.width)
  | arrays blocks _ => blocks.mapEntries fun block => block.shape.getD 1 0

def blockArrays : LinearFactor α → Table (Tensor α)
  | dense blocks _ => blocks.mapEntries (·.toTensor)
  | arrays blocks _ => blocks

def rhsArray : LinearFactor α → Tensor α
  | dense _ rhs => .ofVector rhs
  | arrays _ rhs => rhs

def dim (f : LinearFactor α) (key : Key) : Except Error Nat := f.widths.find key

/-- A block has to have as many rows as the right-hand side. -/
def checkRows (key : Key) (rows expected : Nat) : Except Error Unit :=
  if rows = expected then .ok () else .error (.blockRows key rows expected)

def make (blocks : Table (Mat α)) (rhs : Tensor α) : Except Error (LinearFactor α) := do
  for row in blocks do
    checkRows row.1 row.2.height rhs.outerLength
  match rhs.shape with
  | [_] => return dense blocks rhs.data
  | _ => return arrays (blocks.mapEntries (·.toTensor)) rhs

/-- The factor with blocks and a right-hand side in arrays: matrices and a vector when none has
    more axes. -/
def ofArrays (blocks : Table (Tensor α)) (rhs : Tensor α) : LinearFactor α :=
  let matrices := blocks.mapM fun row => (Mat.ofTensor? row.2).map fun block => (row.1, block)
  match matrices, rhs.vector? with
  | some matrices, some xs => dense matrices xs
  | _, _ => arrays blocks rhs

def shown (f : LinearFactor α) : String :=
  s!"JacobianFactor(keys={Key.shownList f.keys}, rows={f.rows})"

variable [Scalar α]

def ofGiven (g : Given α) : Except Error (LinearFactor α) := do
  let rhs ← Tensor.ofGiven (g.field "b")
  let rhs := rhs.atLeastVector
  let blocks ← (Table.ofRows (g.field "blocks").pairs).mapM fun row => do
    let block ← Tensor.ofGiven row.2
    let block := block.atLeastMatrix
    checkRows row.1 block.outerLength rhs.outerLength
    return (row.1, block)
  return ofArrays blocks rhs

/-- What matrices applied to a step give beyond a vector. -/
def denseResidual (blocks : Table (Mat α)) (rhs : Vec α) (delta : Delta α) :
    Except Error (Vec α) :=
  blocks.foldlM (fun r row => do
    let x ← delta.get row.1
    let product ← row.2.mulVec? x
    return Vec.add r product) (Vec.neg rhs)

/-- What the blocks applied to a step give beyond the right-hand side. -/
def residual (f : LinearFactor α) (delta : Delta α) : Except Error (Tensor α) :=
  match f with
  | dense blocks rhs => (denseResidual blocks rhs delta).map .ofVector
  | arrays blocks rhs =>
    blocks.foldlM (fun r row => do
      let x ← delta.get row.1
      let product ← row.2.mulVec x
      r.addTo product) (rhs.map fun x => -x)

def cost (f : LinearFactor α) (delta : Delta α) : Except Error α := do
  let r ← f.residual delta
  let sq ← r.normSq
  return 0.5 * sq

theorem cost_dense (blocks : Table (Mat α)) (rhs : Vec α) (delta : Delta α) :
    (dense blocks rhs).cost delta =
      (denseResidual blocks rhs delta).map fun r => 0.5 * Vec.normSq r := by
  simp only [cost, residual]
  cases denseResidual blocks rhs delta <;> rfl

def sumSq (f : LinearFactor α) : α :=
  Vec.sum (f.blockArrays.map fun row => Vec.sum (row.2.data.map Scalar.sq))

/-- The factor that pulls the step of one variable toward zero. -/
def damping (sigma : α) (key : Key) (dim : Nat) : LinearFactor α :=
  dense [(key, (Mat.identity dim).scale sigma)] (Vec.zeros dim)

/-- The factor that pulls the step of one variable toward zero, with the entries of the unit
    matrix weighed by an array. -/
def dampingOf (sigmas : Tensor α) (key : Key) (dim : Nat) : Except Error (LinearFactor α) := do
  let block ← Tensor.combine (· * ·) sigmas (Mat.identity dim).toTensor
  let block := block.atLeastMatrix
  checkRows key block.outerLength dim
  return ofArrays [(key, block)] (.ofVector (Vec.zeros dim))

end LinearFactor

/-- The first column of each variable, and the number of all columns. -/
def columnOffsets (dims : Table Nat) (keys : List Key) : Except Error (Table Nat × Nat) :=
  keys.foldlM (fun state key => do
    let dim ← dims.find key
    return (state.1.set key state.2, state.2 + dim)) ([], 0)

end LeastSquares
