/-
  LeastSquares/Decimal/Shortest.lean
  ==================================
  **The shortest decimal that reads back as a given double.**

  A double stands for every real that rounds to it: an interval around its value whose ends
  belong to it when its mantissa is even.  Among the decimals in that interval the one with
  the fewest digits is written, and of those the one nearest to the value.  For each number of
  digits the two neighbours of the value on that decimal grid are tried, in exact rational
  arithmetic; seventeen digits always suffice.
-/
import LeastSquares.Scalar.Double

namespace LeastSquares

namespace Decimal

/-! ### Powers and decimal places -/

def power (base : Nat) (e : Int) : Rat :=
  if 0 ≤ e then ((base.pow e.toNat : Nat) : Rat) else 1 / ((base.pow (-e).toNat : Nat) : Rat)

def digitCount (n : Nat) : Nat := (Nat.toDigits 10 n).length

/-- The place of the first digit of a positive rational: the `k` with
    `10 ^ k ≤ x < 10 ^ (k + 1)`. -/
def leadingPlace (x : Rat) : Int :=
  let guess : Int := digitCount x.num.natAbs - digitCount x.den
  if power 10 guess ≤ x then guess else guess - 1

/-! ### The interval of a double -/

/-- A positive double with the reals that round to it. -/
structure Rounded where
  value : Rat
  /-- The least real that rounds to it, or the bound of those. -/
  lower : Rat
  /-- The greatest real that rounds to it, or the bound of those. -/
  upper : Rat
  /-- The bounds round to it themselves. -/
  closed : Bool

/-- The rounding interval of `mantissa * 2 ^ exponent`: half a unit of the last bit on each
    side, and a quarter below a power of two. -/
def Rounded.ofParts (p : Double.Parts) : Rounded :=
  let unit := power 2 p.exponent
  let below := if p.mantissa = Nat.pow 2 52 ∧ p.exponent ≠ -1074 then unit / 4 else unit / 2
  let value := (p.mantissa : Rat) * unit
  ⟨value, value - below, value + unit / 2, p.mantissa % 2 = 0⟩

/-- A real rounds to the double. -/
def Rounded.holds (r : Rounded) (x : Rat) : Bool :=
  if r.closed then r.lower ≤ x && x ≤ r.upper else r.lower < x && x < r.upper

/-! ### The search -/

/-- A positive decimal `coefficient * 10 ^ exponent`. -/
structure Digits where
  /-- The digits, read as one number. -/
  coefficient : Nat
  exponent : Int
deriving DecidableEq, Repr

def Digits.value (d : Digits) : Rat := (d.coefficient : Rat) * power 10 d.exponent

/-- The neighbour of the value with `count` digits that reads back, if there is one; of two
    the nearer, of two equally near the even one. -/
def Rounded.onGrid (r : Rounded) (count : Nat) : Option Digits :=
  let exponent := leadingPlace r.value - (count - 1 : Nat)
  let low : Digits := ⟨(r.value / power 10 exponent).floor.toNat, exponent⟩
  let high : Digits := ⟨low.coefficient + 1, exponent⟩
  match r.holds low.value, r.holds high.value with
  | true, false => some low
  | false, true => some high
  | false, false => none
  | true, true =>
    let fromLow := r.value - low.value
    let fromHigh := high.value - r.value
    if fromLow < fromHigh then some low
    else if fromHigh < fromLow then some high
    else if low.coefficient % 2 = 0 then some low else some high

/-- Try the grids with `count`, `count + 1`, … digits. -/
def Rounded.search (r : Rounded) (count : Nat) : Nat → Digits
  | 0 => ⟨0, 0⟩
  | fuel + 1 => (r.onGrid count).getD (r.search (count + 1) fuel)

def Digits.strip : Nat → Digits → Digits
  | 0, d => d
  | fuel + 1, d =>
    if d.coefficient % 10 = 0 then strip fuel ⟨d.coefficient / 10, d.exponent + 1⟩ else d

def shortest (p : Double.Parts) : Digits :=
  let found := (Rounded.ofParts p).search 1 17
  found.strip (digitCount found.coefficient - 1)

/-! ### Writing -/

/-- Where a number changes from positional to exponent form, and how an exponent is
    written. -/
structure Layout where
  /-- The least place of the first digit that is written positionally. -/
  lowest : Int
  /-- The greatest place of the first digit that is written positionally. -/
  highest : Int
  exponentDigits : Nat

/-- Numbers are positional from `0.0001` up to sixteen digits before the point; an exponent has
    a sign and at least two digits. -/
def plain : Layout := ⟨-4, 15, 2⟩

/-- Zeros in front of a text, up to a length. -/
def padLeft (length : Nat) (text : String) : String :=
  String.ofList (List.replicate (length - text.length) '0') ++ text

/-- Write a decimal: with a point and at least one digit on each side of it, or with one digit
    before the point and an exponent. -/
def Layout.write (style : Layout) (d : Digits) : String :=
  let digits := Nat.toDigits 10 d.coefficient
  let place := d.exponent + digits.length - 1
  if style.lowest ≤ place ∧ place ≤ style.highest then
    if 0 ≤ d.exponent then
      String.ofList (digits ++ List.replicate d.exponent.toNat '0') ++ ".0"
    else if 0 ≤ place then
      let before := (place + 1).toNat
      String.ofList (digits.take before) ++ "." ++ String.ofList (digits.drop before)
    else
      "0." ++ String.ofList (List.replicate (-place - 1).toNat '0' ++ digits)
  else
    let head := String.ofList (digits.take 1)
    let tail := digits.drop 1
    let point := if tail.isEmpty then "" else "." ++ String.ofList tail
    let sign := if place < 0 then "-" else "+"
    head ++ point ++ "e" ++ sign ++ padLeft style.exponentDigits (toString place.natAbs)

/-- The text of a double: its shortest decimal, or the name of a value that has none. -/
def text (x : Float) : String :=
  if x != x then "nan"
  else
    let p := Double.parts x
    let size :=
      if !Double.isFinite x then "inf"
      else if p.mantissa = 0 then "0.0"
      else plain.write (shortest p)
    if p.negative then "-" ++ size else size

end Decimal

end LeastSquares
