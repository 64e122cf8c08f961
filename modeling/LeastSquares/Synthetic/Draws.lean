/-
  LeastSquares/Synthetic/Draws.lean
  =================================
  **Random numbers that are drawn one after another.**

  A source gives a number for each draw, or fails at it.  A draw that takes place is counted; a
  draw that does not take place is never looked at.  Numbers are drawn for all places of an
  array at once, and only then brought into its shape and scaled.
-/
import LeastSquares.Tensor
import LeastSquares.Values

namespace LeastSquares

/-- A source of random numbers, with the number of draws so far. -/
structure Draws (α : Type) where
  /-- The numbers, by the order of the draws. -/
  source : Nat → Except Error α
  taken : Nat

abbrev Drawing (α β : Type) := StateT (Draws α) (Except Error) β

namespace Draws

variable {α : Type}

/-- The source that repeats given numbers; of none nothing can be drawn. -/
def repeating [Scalar α] (numbers : Array (Given α)) : Draws α :=
  ⟨fun place =>
    match numbers[place % numbers.size]? with
    | some given => given.toEntry
    | none => .error .divisionByZero, 0⟩

def next : Drawing α α := do
  let d ← get
  let x ← d.source d.taken
  set { d with taken := d.taken + 1 }
  return x

/-- A draw gives the number of the source and counts. -/
theorem next_run (d : Draws α) (x : α) (h : d.source d.taken = .ok x) :
    next.run d = .ok (x, { d with taken := d.taken + 1 }) := by
  change (((d.source d.taken).bind fun x => .ok (x, d)).bind fun drawn =>
    .ok (drawn.1, { d with taken := d.taken + 1 })) = _
  rw [h]
  rfl

def many (count : Nat) : Drawing α (Vec α) := (List.replicate count ()).mapM fun _ => next

variable [Scalar α]

/-! ### Sizes -/

/-- The numbers that can be drawn at once.  This bound is of our own making: a generator goes on until
    the memory is used up, and beyond so many numbers it counts as used up here. -/
def mostAtOnce : Nat := Nat.pow 10 7

def fitting (n : Int) : Except Error Int :=
  if -Int.ofNat (Nat.pow 2 63) ≤ n ∧ n < Int.ofNat (Nat.pow 2 63) then .ok n
  else .error .overflow

def whole (x : α) : Int :=
  let size := Scalar.abs x
  let above := Scalar.ceilNat size
  let below := if size < Scalar.ofNat above then above - 1 else above
  if x < 0 then -below else below

/-- The size along one axis as it counts for the number of draws: a number loses its fraction,
    and a text may spell an integer. -/
def axisSize : Given α → Except Error Int
  | .integer n => fitting n
  | .flag b => .ok (if b then 1 else 0)
  | .real x =>
    if !Scalar.isNumber x then .error .notNumeric
    else if Scalar.ofNat (Nat.pow 2 63) ≤ Scalar.abs x then .error .overflow
    else .ok (whole x)
  | .text s =>
    match Decimal.spelledInteger? s with
    | some n => fitting n
    | none => .error .notNumeric
  | _ => .error .badArguments

/-- The product of the sizes of axes, in signed machine words. -/
def wordProduct (sizes : List Int) : Int :=
  let word : Int := Int.ofNat (Nat.pow 2 64)
  let half : Int := Int.ofNat (Nat.pow 2 63)
  sizes.foldl (fun product n => (product * n + half) % word - half) 1

/-- The number of draws for an array of a size, which may be a list. -/
def countFor (size : Given α) : Except Error Nat := do
  let t ← Tensor.ofNested size
  let sizes ← t.data.mapM axisSize
  let count := wordProduct sizes
  if count < 0 then throw .negativeSize
  if mostAtOnce < count.toNat then throw .outOfMemory
  return count.toNat

/-! ### Arrays -/

/-- An array of numbers of a size, which is taken literally once the numbers are drawn. -/
def ofSize (size : Given α) : Drawing α (Tensor α) := do
  let count ← countFor size
  let numbers ← many count
  let lengths ← size.lengths
  Tensor.reshape (.ofVector numbers) lengths

/-- Normal noise of a size with a standard deviation, which may be an array. -/
def normal (sigma size : Given α) : Drawing α (Tensor α) := do
  let z ← ofSize size
  Tensor.scaled sigma z

def normalLike (sigma : Given α) : Drawing α (Tensor α) := do
  let t ← Tensor.ofNested sigma
  let z ← many (Tensor.places t.shape)
  Tensor.scaled sigma ⟨t.shape, z⟩

def normalVec (sigmas : Vec α) : Drawing α (Vec α) := do
  let z ← many sigmas.length
  return List.zipWith (fun sigma x => sigma * x) sigmas z

/-- So many points in a square, each with both coordinates between zero and a bound, which is
    looked at when all are drawn. -/
def uniformPoints (bound count : Given α) : Drawing α (List (Vec α)) := do
  let t ← ofSize (.list [count, .integer 2])
  let bound ← bound.toNumber
  return t.parts.map fun point => point.data.map fun u => bound * Scalar.floorMod u 1

/-- Every variable moved by normal noise with a standard deviation, which may be an array as long
    as the result is a vector. -/
def perturb (values : Values α) (sigma : Given α) : Drawing α (Values α) := do
  let entries ← values.entries.mapM fun row => do
    let z ← many row.2.length
    let noise ← Tensor.scaled sigma (.ofVector z)
    let moved ← Tensor.combine (· + ·) (.ofVector row.2) noise
    let xs ← moved.vectorFor row.1
    return (row.1, xs)
  return ⟨entries⟩

end Draws

end LeastSquares
