/-
  LeastSquares/Linear/SingularValues.lean
  =======================================
  **Singular values by plane rotations.**

  Rotating two vectors in the plane they span, so that they become orthogonal, does not change
  the singular values of the matrix they are rows of.  Sweeping over all pairs again and again
  makes all rows orthogonal, and their lengths are then the singular values.  Of a matrix with
  more rows than columns the columns are taken instead, so there are as many values as the
  smaller of height and width.  Very large and very small entries are measured in units of the
  greatest, because the rotations multiply entries.
-/
import LeastSquares.Mat

namespace LeastSquares

namespace SingularValues

variable {α : Type} [Scalar α]

/-- Two vectors count as orthogonal when their inner product is at most this fraction of the
    product of their lengths. -/
def orthogonality : α := 1e-15

/-- Rotate two vectors so that they become orthogonal. -/
def rotate (u v : Vec α) : Vec α × Vec α :=
  let a := Vec.normSq u
  let b := Vec.normSq v
  let c := Vec.dot u v
  if Scalar.abs c ≤ orthogonality * Scalar.sqrt (a * b) then (u, v)
  else
    let slope := (b - a) / (2.0 * c)
    let size := 1 / (Scalar.abs slope + Scalar.sqrt (1 + Scalar.sq slope))
    let tangent := if slope < 0 then -size else size
    let cosine := 1 / Scalar.sqrt (1 + Scalar.sq tangent)
    let sine := cosine * tangent
    (Vec.sub (Vec.scale cosine u) (Vec.scale sine v),
      Vec.add (Vec.scale sine u) (Vec.scale cosine v))

def rotateAll (u : Vec α) : List (Vec α) → Vec α × List (Vec α)
  | [] => (u, [])
  | v :: vs =>
    let (u, v) := rotate u v
    let (u, vs) := rotateAll u vs
    (u, v :: vs)

/-- Rotate all pairs once; the first argument bounds the number of vectors. -/
def sweep : Nat → List (Vec α) → List (Vec α)
  | count + 1, u :: vs =>
    let (u, vs) := rotateAll u vs
    u :: sweep count vs
  | _, vectors => vectors

def sweeps (vectors : List (Vec α)) : Nat → List (Vec α)
  | 0 => vectors
  | times + 1 => sweeps (sweep vectors.length vectors) times

def columnsOf (m : Mat α) : List (Vec α) :=
  (List.range m.width).map fun j => m.rows.map (·.getD j 0)

def sweepCount : Nat := 30

/-- The unit in which the entries are measured: one, unless the greatest entry is so large or so
    small that products of entries could be lost. -/
def unitFor (greatest : α) : α :=
  if greatest ≤ 0 then 1
  else if greatest < 1e-50 then greatest
  else if 1e50 < greatest then greatest
  else 1

/-- The singular values of a matrix, the greatest first. -/
def ofMat (m : Mat α) : List α :=
  let unit := unitFor ((Vec.maxAbs? m.entries).getD 0)
  let m := m.map (· / unit)
  let vectors := if m.height ≤ m.width then m.rows else columnsOf m
  ((sweeps vectors sweepCount).map fun v => unit * Vec.norm v).mergeSort fun a b => b ≤ a

end SingularValues

end LeastSquares
