/-
  LeastSquares/Mat.lean
  =====================
  **Matrices, held by rows.**

  A matrix has a width of its own, because a matrix without rows has one too.  A single
  number counts as one row of one column, and a vector as one row.
-/
import LeastSquares.Tensor

namespace LeastSquares

/-- A matrix: its rows, all of one width. -/
structure Mat (α : Type) where
  width : Nat
  /-- The rows, from top to bottom. -/
  rows : List (Vec α)
deriving Repr

namespace Mat

variable {α : Type}

def height (m : Mat α) : Nat := m.rows.length

/-- The matrix of an array of at most two axes. -/
def ofTensor? (t : Tensor α) : Option (Mat α) :=
  match t.shape with
  | [] => some ⟨1, [t.data]⟩
  | [n] => some ⟨n, [t.data]⟩
  | [m, n] => some ⟨n, Tensor.cut n t.data m⟩
  | _ => none

/-- The matrix of an array of at most two axes; one of more axes is refused. -/
def ofTensor (t : Tensor α) : Except Error (Mat α) :=
  match ofTensor? t with
  | some m => .ok m
  | none => .error .shapeMismatch

def entries (m : Mat α) : List α := m.rows.flatten

def toTensor (m : Mat α) : Tensor α := ⟨[m.height, m.width], m.entries⟩

/-- The columns from `start` on, `count` of them. -/
def columns (m : Mat α) (start count : Nat) : Mat α :=
  ⟨count, m.rows.map fun row => (row.drop start).take count⟩

def top (m : Mat α) (count : Nat) : Mat α := ⟨m.width, m.rows.take count⟩

def below (m : Mat α) (count : Nat) : Mat α := ⟨m.width, m.rows.drop count⟩

def map (f : α → α) (m : Mat α) : Mat α := ⟨m.width, m.rows.map (·.map f)⟩

/-- Combine two matrices entry by entry, stretching a single row or a single column. -/
def combine {β : Type} (f : α → α → β) (a b : Mat α) : Except Error (Mat β) := do
  let width ← commonLength a.width b.width
  let height ← commonLength a.height b.height
  let row := fun x y => List.zipWith f (stretch width x) (stretch width y)
  return ⟨width, List.zipWith row (stretch height a.rows) (stretch height b.rows)⟩

variable [Scalar α]

def identity (n : Nat) : Mat α :=
  ⟨n, (List.range n).map fun i => (List.range n).map fun j => if i = j then 1 else 0⟩

def scale (c : α) (m : Mat α) : Mat α := m.map fun x => c * x

def neg (m : Mat α) : Mat α := m.map fun x => -x

def mulVec (m : Mat α) (x : Vec α) : Vec α := m.rows.map fun row => Vec.dot row x

/-- The product of a matrix and a vector, which has to have its width. -/
def mulVec? (m : Mat α) (x : Vec α) : Except Error (Vec α) :=
  if m.width = x.length then .ok (m.mulVec x) else .error .shapeMismatch

/-- The product of the transposed matrix and a vector: the rows weighted by the vector. -/
def transposeMulVec (m : Mat α) (y : Vec α) : Vec α :=
  (m.rows.zip y).foldl (fun acc entry => Vec.add acc (Vec.scale entry.2 entry.1))
    (Vec.zeros m.width)

def gram (m : Mat α) : Mat α :=
  ⟨m.width, (List.range m.width).map fun i => m.transposeMulVec (m.rows.map (·.getD i 0))⟩

def diagonal (m : Mat α) : Vec α := m.rows.mapIdx fun i row => row.getD i 0

end Mat

end LeastSquares
