/-
  LeastSquares/Decimal/Reading.lean
  =================================
  **Numbers that are given as text.**

  A setting may arrive as text.  A real number is an optional sign, digits with at most one
  point among them, and an optional exponent; the names of infinity and of the value that
  compares with nothing are read in any case of letters, as the quotients of one and of zero
  by zero.  An integer is a sign and digits, where zeros in front and a fractional part of
  zeros are dropped.  Characters may be grouped by single underscores; an entry of an array may
  be spelled too, with its digits grouped so and in any script.
-/
import LeastSquares.Scalar
import LeastSquares.Text

namespace LeastSquares

namespace Decimal

/-! ### Surroundings -/

def isBlank (c : Char) : Bool :=
  let n := c.toNat
  n == 0x20 || (0x09 ≤ n && n ≤ 0x0d) || n == 0x85 || n == 0xa0 || n == 0x1680 ||
    (0x2000 ≤ n && n ≤ 0x200a) || n == 0x2028 || n == 0x2029 || n == 0x202f || n == 0x205f ||
    n == 0x3000

def trim (cs : List Char) : List Char :=
  ((cs.dropWhile isBlank).reverse.dropWhile isBlank).reverse

/-- Remove single underscores between other characters; an underscore at an end or beside
    another one makes the text unreadable. -/
def ungroup : List Char → Option (List Char)
  | [] => some []
  | ['_'] => none
  | '_' :: '_' :: _ => none
  | '_' :: rest => ungroup rest
  | c :: rest => (ungroup rest).map (c :: ·)

/-- Underscores may not come first either. -/
def ungrouped (cs : List Char) : Option (List Char) :=
  if cs.head? = some '_' then none else ungroup cs

def digitsValue (cs : List Char) : Nat :=
  cs.foldl (fun n c => 10 * n + (c.toNat - '0'.toNat)) 0

/-- Split off a leading sign; `true` stands for minus. -/
def signed : List Char → Bool × List Char
  | '-' :: rest => (true, rest)
  | '+' :: rest => (false, rest)
  | cs => (false, cs)

/-! ### Real numbers -/

/-- An exponent: nothing, or `e` with a signed integer. -/
def exponent? : List Char → Option Int
  | [] => some 0
  | c :: rest =>
    if c = 'e' ∨ c = 'E' then
      let (negative, digits) := signed rest
      if digits.isEmpty ∨ !digits.all Char.isDigit then none
      else
        let size : Int := digitsValue digits
        some (if negative then -size else size)
    else none

variable {α : Type} [Scalar α]

/-- The greatest size of an exponent that is computed with; numbers beyond it count as infinite
    or as zero. -/
def exponentBound : Int := 400

/-- The number `coefficient * 10 ^ shift`, where the digits of the coefficient are given without
    zeros in front.  With so many digits it lies between two powers of ten, so that no more than
    these has to be known of a number that is too large or too small. -/
def scaled (digits : List Char) (shift : Int) : α :=
  let magnitude := shift + digits.length
  if digits.isEmpty ∨ magnitude < -exponentBound then 0
  else if exponentBound < magnitude then 1 / 0
  else if 0 ≤ shift then
    OfScientific.ofScientific (digitsValue digits * Nat.pow 10 shift.toNat) false 0
  else OfScientific.ofScientific (digitsValue digits) true (-shift).toNat

def unsigned? (cs : List Char) : Option α :=
  let whole := cs.takeWhile Char.isDigit
  let afterWhole := cs.dropWhile Char.isDigit
  let fraction := match afterWhole with
    | '.' :: rest => rest.takeWhile Char.isDigit
    | _ => []
  let rest := match afterWhole with
    | '.' :: rest => rest.dropWhile Char.isDigit
    | _ => afterWhole
  if whole.isEmpty ∧ fraction.isEmpty then none
  else
    let digits := (whole ++ fraction).dropWhile (· = '0')
    (exponent? rest).map fun e => scaled digits (e - fraction.length)

/-- The named values, in lower case. -/
def named? (cs : List Char) : Option α :=
  let name := String.ofList (cs.map Char.toLower)
  if name = "inf" ∨ name = "infinity" then some (1 / 0)
  else if name = "nan" then some (0 / 0)
  else none

def signedReal? (cs : List Char) : Option α :=
  let (negative, rest) := signed cs
  let size := (named? rest).or (unsigned? rest)
  size.map fun x => if negative then -x else x

/-- A real number that is given as text: without the blanks around it, or else, blanks and all,
    without its groups. -/
def real? (text : String) : Option α :=
  (signedReal? (trim text.toList)).or ((ungrouped text.toList).bind signedReal?)

/-- Remove underscores that stand between two digits; anywhere else one makes the text
    unreadable.  The first argument tells whether a digit stands before the rest. -/
def betweenDigits (afterDigit : Bool) : List Char → Option (List Char)
  | [] => some []
  | '_' :: rest =>
    if afterDigit && rest.head?.any Char.isDigit then betweenDigits false rest else none
  | c :: rest => (betweenDigits c.isDigit rest).map (c :: ·)

/-- A character beyond the first 127 as it counts in a number: a blank as a space, a digit of any
    script as a digit from `0` to `9`. -/
def commonChar? (c : Char) : Option Char :=
  if c.toNat < 127 then some c
  else if isBlank c then some ' '
  else (Text.scriptDigit? c).map Text.digit

/-- A real number that an entry of an array spells, in the digits of any script: digits may be
    grouped, inside blanks. -/
def spelled? (text : String) : Option α := do
  let cs ← text.toList.mapM commonChar?
  let cs ← betweenDigits false (trim cs)
  signedReal? cs

/-! ### Integers -/

inductive Unreadable where
  | spelling
  | length
deriving DecidableEq, Repr

def mostCharacters : Nat := 4300

/-- A sign or nothing, and digits, in any number. -/
def signedDigits? (cs : List Char) : Option Int :=
  let (negative, digits) := signed cs
  if digits.isEmpty ∨ !digits.all Char.isDigit then none
  else
    let size : Int := digitsValue digits
    some (if negative then -size else size)

/-- An integer in its plain form: digits of which the first is zero only when it is the only
    one, after a minus sign or nothing. -/
def plainInteger? (cs : List Char) : Option Int :=
  let digits := if cs.head? = some '-' then cs.tail else cs
  if cs.head? = some '+' ∨ (digits.head? = some '0' ∧ 1 < digits.length) then none
  else signedDigits? cs

def isTooLong (cs : List Char) : Bool :=
  let (sign, digits) := cs.span (· = '-')
  let digits := if digits.head? = some '0' then [] else digits.takeWhile Char.isDigit
  sign.length ≤ 1 && mostCharacters < sign.length + digits.length

/-- What follows zeros and underscores, the last of which is given: another digit or a minus
    sign starts the number anew, a point belongs to the last zero, and when nothing follows the
    last character stays. -/
def afterZero (last : Char) : List Char → Option (List Char)
  | [] => some [last]
  | c :: rest =>
    if c = '0' ∨ c = '_' then afterZero c rest
    else if c.isDigit ∨ c = '-' then some (c :: rest)
    else if c = '.' then some (last :: c :: rest)
    else none

def withoutZeros : List Char → Option (List Char)
  | [] => none
  | c :: rest =>
    if c = '0' then afterZero c rest
    else if c.isDigit ∨ c = '-' then some (c :: rest)
    else none

/-- Drop a point that zeros follow and nothing else; a point at the end stays. -/
def withoutFraction (cs : List Char) : List Char :=
  let fraction := (cs.dropWhile (· ≠ '.')).drop 1
  if !fraction.isEmpty && fraction.all (· = '0') then cs.takeWhile (· ≠ '.') else cs

/-- Remove zeros in front, a fraction of zeros and the groups of a number without a sign. -/
def cleanedDigits (cs : List Char) : Option (List Char) :=
  (withoutZeros cs).bind fun cs => ungrouped (withoutFraction cs)

/-- Bring a text into the plain form of an integer: a plus sign is dropped and a minus sign is
    set aside while the digits behind it are cleaned. -/
def cleaned (cs : List Char) : Option (List Char) :=
  match trim cs with
  | '+' :: '-' :: _ => none
  | '+' :: rest => cleanedDigits rest
  | '-' :: rest => (cleanedDigits rest).map ('-' :: ·)
  | cs => cleanedDigits cs

/-- An integer that is given as text.  Its length counts only in plain form: a text that has to
    be cleaned and is too long then spells none. -/
def integer (text : String) : Except Unreadable Int :=
  let cs := text.toList
  if isTooLong cs then .error .length
  else
    match plainInteger? cs with
    | some n => .ok n
    | none =>
      match (cleaned cs).bind fun cs => if isTooLong cs then none else plainInteger? cs with
      | some n => .ok n
      | none => .error .spelling

/-- An integer that a length spells, in the digits of any script: digits may be grouped, inside
    blanks, and there may not be too many of them. -/
def spelledInteger? (text : String) : Option Int := do
  let cs ← text.toList.mapM commonChar?
  let digits ← betweenDigits false (trim cs)
  let n ← signedDigits? digits
  if mostCharacters < (digits.filter Char.isDigit).length then none else return n

end Decimal

end LeastSquares
