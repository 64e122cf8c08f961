/-
  LeastSquares/Text.lean
  ======================
  **How texts are quoted, capitalised and read as digits.**

  Errors show texts in quotes, the names of settings are compared in capital letters, and a number
  may be spelled in the digits of any script.  What is known about characters comes from the
  Unicode character database (version 14).
-/
import LeastSquares.Text.Printable

namespace LeastSquares

namespace Text

/-! ### Quotes

A text stands in single quotes, unless it holds a single quote and no double one.  The quote in use
and the backslash are escaped by a backslash; a tab, a line feed and a carriage return have escapes
of their own; any other character that is not printable is written as its code point in two, four
or eight hexadecimal digits. -/

/-- A number in lower-case hexadecimal digits, with zeros in front up to a width. -/
def hexadecimal (width n : Nat) : List Char :=
  let digits := Nat.toDigits 16 n
  List.replicate (width - digits.length) '0' ++ digits

def escape (quote c : Char) : List Char :=
  if c = quote ∨ c = '\\' then ['\\', c]
  else if c = '\n' then ['\\', 'n']
  else if c = '\r' then ['\\', 'r']
  else if c = '\t' then ['\\', 't']
  else if isPrintable c then [c]
  else if c.toNat < 0x100 then '\\' :: 'x' :: hexadecimal 2 c.toNat
  else if c.toNat < 0x10000 then '\\' :: 'u' :: hexadecimal 4 c.toNat
  else '\\' :: 'U' :: hexadecimal 8 c.toNat

def quoteFor (cs : List Char) : Char :=
  if cs.contains '\'' && !cs.contains '"' then '"' else '\''

def quoted (text : String) : String :=
  let cs := text.toList
  let quote := quoteFor cs
  String.ofList (quote :: (cs.flatMap (escape quote) ++ [quote]))

/-- Texts between brackets, separated by commas. -/
def bracketed (items : List String) : String :=
  "[" ++ ", ".intercalate items ++ "]"

/-- A tuple of natural numbers: a single one is followed by a comma. -/
def tuple : List Nat → String
  | [n] => "(" ++ toString n ++ ",)"
  | ns => "(" ++ ", ".intercalate (ns.map toString) ++ ")"

/-! ### Capital letters

The capital of a letter from `a` to `z` is the letter from `A` to `Z`.  A few other letters have
capitals of this kind too: the dotless i, the long s and the sharp s, and the letters that are
written as one sign.  Every other letter stays as it is, because its capital is no text of letters
from `A` to `Z`, and only such texts are compared with. -/

/-- The letters beyond `a` to `z` whose capitals are letters from `A` to `Z`, with these. -/
def rareCapitals : List (Char × String) :=
  [('ß', "SS"), ('ı', "I"), ('ſ', "S"), ('ﬀ', "FF"), ('ﬁ', "FI"), ('ﬂ', "FL"), ('ﬃ', "FFI"),
    ('ﬄ', "FFL"), ('ﬅ', "ST"), ('ﬆ', "ST")]

/-- The capital of a letter, which may be several letters. -/
def capital (c : Char) : String := (rareCapitals.lookup c).getD c.toUpper.toString

def capitals (text : String) : String := String.join (text.toList.map capital)

/-! ### Decimal digits

A script with decimal digits has ten of them in a row, from zero to nine, so that the value of a
digit is its distance from the zero of its script. -/

/-- The zeros of the scripts beyond the first 128 characters, in ascending order. -/
def scriptZeros : List Nat := [
  0x660, 0x6f0, 0x7c0, 0x966, 0x9e6, 0xa66, 0xae6, 0xb66, 0xbe6, 0xc66, 0xce6, 0xd66, 0xde6,
  0xe50, 0xed0, 0xf20, 0x1040, 0x1090, 0x17e0, 0x1810, 0x1946, 0x19d0, 0x1a80, 0x1a90, 0x1b50,
  0x1bb0, 0x1c40, 0x1c50, 0xa620, 0xa8d0, 0xa900, 0xa9d0, 0xa9f0, 0xaa50, 0xabf0, 0xff10,
  0x104a0, 0x10d30, 0x11066, 0x110f0, 0x11136, 0x111d0, 0x112f0, 0x11450, 0x114d0, 0x11650,
  0x116c0, 0x11730, 0x118e0, 0x11950, 0x11c50, 0x11d50, 0x11da0, 0x16a60, 0x16ac0, 0x16b50,
  0x1d7ce, 0x1d7d8, 0x1d7e2, 0x1d7ec, 0x1d7f6, 0x1e140, 0x1e2f0, 0x1e950, 0x1fbf0]

/-- The value of a digit of a script beyond the first 128 characters. -/
def scriptDigit? (c : Char) : Option Nat :=
  (scriptZeros.find? fun first => first ≤ c.toNat ∧ c.toNat < first + 10).map fun first =>
    c.toNat - first

/-- The digit from `0` to `9` of a value below ten. -/
def digit (value : Nat) : Char := Char.ofNat ('0'.toNat + value)

end Text

end LeastSquares
