/-
  LeastSquares/Vec.lean
  =====================
  **Vectors, and how operands of different lengths are combined.**

  A vector is the list of its components.  An elementwise operation takes two vectors of one
  length, or a vector and a single component that is repeated; any other pair of lengths is
  refused.
-/
import LeastSquares.Scalar
import LeastSquares.Error

namespace LeastSquares

abbrev Vec (α : Type) := List α

/-! ### Sums of lengths -/

def total : List Nat → Nat
  | [] => 0
  | n :: ns => n + total ns

/-- The lengths of several lists make up the length of all of them together. -/
theorem total_map_length {β : Type} (xss : List (List β)) :
    total (xss.map List.length) = xss.flatten.length := by
  induction xss with
  | nil => rfl
  | cons xs xss ih => simp [total, ih]

/-! ### Stretching -/

/-- The common length of two operands: equal, or one of them one. -/
def commonLength (m n : Nat) : Except Error Nat :=
  if m = n then .ok m
  else if m = 1 then .ok n
  else if n = 1 then .ok m
  else .error .shapeMismatch

/-- Repeat a single item to a length; a longer list stays as it is. -/
def stretch {β : Type} (length : Nat) : List β → List β
  | [x] => List.replicate length x
  | xs => xs

/-- Combine two lists item by item, after stretching them to their common length. -/
def combine {β γ δ : Type} (f : β → γ → δ) (xs : List β) (ys : List γ) :
    Except Error (List δ) :=
  (commonLength xs.length ys.length).map fun n => List.zipWith f (stretch n xs) (stretch n ys)

theorem combine_of_length_eq {β γ δ : Type} (f : β → γ → δ) (xs : List β) (ys : List γ)
    (h : xs.length = ys.length) : combine f xs ys = .ok (List.zipWith f xs ys) := by
  have stretched : ∀ {ε : Type} (zs : List ε), stretch zs.length zs = zs := by
    intro ε zs
    match zs with
    | [] => rfl
    | [z] => rfl
    | _ :: _ :: _ => rfl
  have hy := stretched ys
  rw [← h] at hy
  simp [combine, commonLength, Except.map, h]
  rw [← h, stretched xs, hy]

namespace Vec

variable {α : Type} [Scalar α]

/-! ### Arithmetic of vectors of one length -/

def zeros (n : Nat) : Vec α := List.replicate n 0

/-- The sum of the components, from the first to the last. -/
def sum (xs : Vec α) : α := xs.foldl (· + ·) 0

def dot (xs ys : Vec α) : α := sum (List.zipWith (· * ·) xs ys)

def normSq (xs : Vec α) : α := dot xs xs

def norm (xs : Vec α) : α := Scalar.sqrt (normSq xs)

def add (xs ys : Vec α) : Vec α := List.zipWith (· + ·) xs ys

def sub (xs ys : Vec α) : Vec α := List.zipWith (· - ·) xs ys

def neg (xs : Vec α) : Vec α := xs.map fun x => -x

def scale (c : α) (xs : Vec α) : Vec α := xs.map fun x => c * x

/-- The greatest of the sizes of the components, if there is one; a NaN is greater than
    anything. -/
def maxAbs? (xs : Vec α) : Option α :=
  match xs with
  | [] => none
  | x :: rest => some (rest.foldl (fun m y => Scalar.maximum m (Scalar.abs y)) (Scalar.abs x))

/-- The Euclidean length, with the components measured in units of the greatest, so that no
    square is too large or too small. -/
def scaledNorm (xs : Vec α) : α :=
  match maxAbs? xs with
  | none => 0
  | some unit =>
    if Scalar.isZero unit || !Scalar.isFinite unit then unit
    else unit * norm (xs.map (· / unit))

def isFinite (xs : Vec α) : Bool := xs.all Scalar.isFinite

/-- Add to one component, if there is one at the place. -/
def addAt (xs : Vec α) (place : Nat) (h : α) : Vec α := xs.modify place (· + h)

end Vec

end LeastSquares
