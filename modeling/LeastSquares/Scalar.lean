/-
  LeastSquares/Scalar.lean
  ========================
  **The arithmetic that every algorithm of the library is written over.**

  An algorithm here is stated once, over any carrier that has the four operations, an
  order that can be tested, and a handful of elementary functions.  Doubles are the
  carrier it is run at; an exact field is the carrier it is reasoned about.  Comparisons
  are used exactly as an algorithm writes them, so a carrier with a value that compares
  with nothing (a NaN) follows the branch that the written comparison gives it.

  The derived operations below need only the order and the ring operations: which of
  them lets a NaN through is said in each doc comment.
-/
namespace LeastSquares

/-- A carrier of the arithmetic: ring operations, decidable comparisons, decimal literals
    and the elementary functions that residuals and losses use. -/
class Scalar (α : Type) extends Zero α, One α, Add α, Sub α, Mul α, Div α, Neg α, LT α, LE α,
    OfScientific α where
  decidableLT : DecidableLT α
  decidableLE : DecidableLE α
  sqrt : α → α
  sin : α → α
  cos : α → α
  exp : α → α
  log1p : α → α
  pi : α
  /-- The remainder of a division rounded to the floor: it has the sign of the divisor. -/
  floorMod : α → α → α
  /-- The least natural number that is at least the argument. -/
  ceilNat : α → Nat

namespace Scalar

attribute [reducible] Scalar.decidableLT Scalar.decidableLE
attribute [instance] Scalar.decidableLT Scalar.decidableLE

variable {α : Type} [Scalar α]

/-! ### Numbers from naturals and integers -/

def ofNat (n : Nat) : α := OfScientific.ofScientific n false 0

def ofInt : Int → α
  | .ofNat n => ofNat n
  | .negSucc n => -ofNat (n + 1)

/-! ### Derived operations -/

/-- A number is zero when it is neither above nor below zero; a NaN is not. -/
def isZero (x : α) : Bool := decide (x ≤ 0) && decide (0 ≤ x)

/-- A value is a number when it compares with itself; a NaN does not. -/
def isNumber (x : α) : Bool := decide (x ≤ x)

/-- A value is finite when its difference with itself is a number. -/
def isFinite (x : α) : Bool := isNumber (x - x)

def sq (x : α) : α := x * x

/-- The absolute value; a NaN stays one, and zero loses its sign. -/
def abs (x : α) : α := if x ≤ 0 then 0 - x else x

/-- The larger of two values, and a NaN when either is one. -/
def maximum (x y : α) : α := if x ≤ y then y else if y ≤ x then x else x + y

/-- The larger of two values, where a NaN on the right is passed over. -/
def largerOf (x y : α) : α := if x < y then y else x

/-- Two values compare as equal; a NaN equals nothing. -/
def same (x y : α) : Bool := decide (x ≤ y) && decide (y ≤ x)

/-- Two values agree up to an absolute and a relative tolerance, the latter taken of the
    second value, which has to be finite; equal infinities agree, a NaN agrees with nothing. -/
def close (absolute relative x y : α) : Bool :=
  (decide (abs (x - y) ≤ absolute + relative * abs y) && isFinite y) || same x y

end Scalar

end LeastSquares
