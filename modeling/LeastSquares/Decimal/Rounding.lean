/-
  LeastSquares/Decimal/Rounding.lean
  ==================================
  **Doubles rounded to a number of digits.**

  A number is rounded to so many significant digits, but to no more than so many decimals.
  The rounding is that of the exact value of the double; a tie goes to the even neighbour.
-/
import LeastSquares.Decimal.Shortest

namespace LeastSquares

namespace Decimal

/-- How far a number is rounded. -/
structure Precision where
  /-- The number of significant digits that are kept. -/
  digits : Nat
  decimals : Nat
deriving DecidableEq, Repr

/-- The integer nearest to a rational that is not negative; a tie goes to the even one. -/
def nearestEven (x : Rat) : Nat :=
  let low := x.floor.toNat
  let twice := (x - (low : Rat)) * 2
  if twice < 1 then low
  else if 1 < twice then low + 1
  else if low % 2 = 0 then low else low + 1

def Precision.round (p : Precision) (x : Rat) : Digits :=
  let place := max (-(p.decimals : Int)) (leadingPlace x - (p.digits : Int) + 1)
  ⟨nearestEven (x / power 10 place), place⟩

/-- The text of a finite double that is rounded: an integer with an exponent. -/
def Precision.text (p : Precision) (x : Float) : String :=
  let parts := Double.parts x
  if parts.mantissa = 0 then "0.0"
  else
    let d := p.round ((parts.mantissa : Rat) * power 2 parts.exponent)
    if d.coefficient = 0 then "0.0"
    else
      let size := toString d.coefficient ++ "e" ++ toString d.exponent
      if parts.negative then "-" ++ size else size

end Decimal

end LeastSquares
