/-
  LeastSquares/Scalar/Double.lean
  ===============================
  **Doubles as a carrier of the arithmetic.**

  Every operation is the one of the format, correctly rounded.  The remainder is computed
  exactly on the binary parts of its operands, because a reduced angle must not depend on
  how often a full turn was taken away; the logarithm of one more than a small number keeps
  the digits that the addition loses.
-/
import LeastSquares.Scalar

namespace LeastSquares

namespace Double

/-! ### The parts of a double -/

/-- The parts of a finite double: its size is `mantissa * 2 ^ exponent`. -/
structure Parts where
  negative : Bool
  /-- The integer mantissa, below `2 ^ 53`. -/
  mantissa : Nat
  exponent : Int
deriving DecidableEq, Repr

def parts (x : Float) : Parts :=
  let bits : Nat := x.toBits.toNat
  let fraction : Nat := bits % Nat.pow 2 52
  let biased : Nat := bits / Nat.pow 2 52 % Nat.pow 2 11
  let negative := decide (Nat.pow 2 63 ≤ bits)
  if biased = 0 then ⟨negative, fraction, -1074⟩
  else ⟨negative, Nat.pow 2 52 + fraction, (biased : Int) - 1075⟩

/-- The double `± mantissa * 2 ^ exponent`. -/
def Parts.toFloat (p : Parts) : Float :=
  let size := Float.scaleB (Float.ofNat p.mantissa) p.exponent
  if p.negative then -size else size

def infinity : Float := 1.0 / 0.0

def nan : Float := 0.0 / 0.0

def isFinite (x : Float) : Bool := x.toBits.toNat / Nat.pow 2 52 % Nat.pow 2 11 != 2047

/-! ### Remainder and logarithm -/

/-- The remainder of a division rounded toward zero, computed exactly: both operands are
    integer multiples of the smaller of their last bits. -/
def truncatedMod (x y : Float) : Float :=
  if !isFinite x || y == 0.0 || y != y then nan
  else if !isFinite y then x
  else
    let p := parts x
    let q := parts y
    let unit := min p.exponent q.exponent
    let dividend := p.mantissa * Nat.pow 2 (p.exponent - unit).toNat
    let divisor := q.mantissa * Nat.pow 2 (q.exponent - unit).toNat
    Parts.toFloat ⟨p.negative, dividend % divisor, unit⟩

/-- The remainder of a division rounded to the floor: the truncated one, moved by one
    divisor when the signs differ. -/
def floorMod (x y : Float) : Float :=
  let rest := truncatedMod x y
  if rest == 0.0 then (if y < 0.0 then -0.0 else 0.0)
  else if decide (rest < 0.0) != decide (y < 0.0) then rest + y
  else rest

/-- The logarithm of `1 + x`, corrected by the rounding error of the sum. -/
def log1p (x : Float) : Float :=
  let sum := 1.0 + x
  if sum == 1.0 then x
  else if sum == infinity then sum
  else Float.log sum * (x / (sum - 1.0))

/-- The least natural number that is at least `x`; none is found below a NaN. -/
def ceilNat (x : Float) : Nat := x.ceil.toUInt64.toNat

end Double

instance : Scalar Float where
  zero := 0.0
  one := 1.0
  decidableLT := fun x y => inferInstanceAs (Decidable (x < y))
  decidableLE := fun x y => inferInstanceAs (Decidable (x ≤ y))
  sqrt := Float.sqrt
  sin := Float.sin
  cos := Float.cos
  exp := Float.exp
  log1p := Double.log1p
  pi := 3.141592653589793
  floorMod := Double.floorMod
  ceilNat := Double.ceilNat

end LeastSquares
