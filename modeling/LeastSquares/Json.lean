/-
  LeastSquares/Json.lean
  ======================
  **Problems and answers as they are exchanged: JSON texts.**

  What is read is plain data: integers are kept apart from other numbers, and the fields of an
  object keep their order; of several fields of one name the last one counts, at the place of
  the first.  Three bare names stand for the numbers that have no digits.  The reader takes one
  value from the front of a text and gives back the rest.  What is written has numbers whose
  text is already chosen.
-/
import LeastSquares.Decimal.Reading
import LeastSquares.Decimal.Shortest
import LeastSquares.Given

namespace LeastSquares

namespace Json

/-! ### Reading -/

def isBlank (c : Char) : Bool := c = ' ' || c = '\n' || c = '\t' || c = '\r'

def skip (cs : List Char) : List Char := cs.dropWhile isBlank

def hexDigit (c : Char) : Nat :=
  if c.isDigit then c.toNat - 48
  else if 'a' ≤ c ∧ c ≤ 'f' then c.toNat - 87
  else c.toNat - 55

def hexUnit (cs : List Char) : Nat := (cs.take 4).foldl (fun n c => 16 * n + hexDigit c) 0

/-- The character of one escaped unit of sixteen bits, or of two that make a pair, and the
    rest; a unit that stands alone where it should not is replaced. -/
def readUnit (cs : List Char) : Char × List Char :=
  let n := hexUnit cs
  let rest := cs.drop 4
  if n < 0xD800 ∨ 0xE000 ≤ n then (Char.ofNat n, rest)
  else
    match rest with
    | '\\' :: 'u' :: low =>
      let m := hexUnit low
      if n < 0xDC00 ∧ 0xDC00 ≤ m ∧ m < 0xE000 then
        (Char.ofNat (0x10000 + (n - 0xD800) * 0x400 + (m - 0xDC00)), low.drop 4)
      else ('\uFFFD', rest)
    | _ => ('\uFFFD', rest)

def escaped (c : Char) : Char :=
  match c with
  | 'n' => '\n'
  | 't' => '\t'
  | 'r' => '\r'
  | 'b' => Char.ofNat 8
  | 'f' => Char.ofNat 12
  | c => c

/-- Read a text up to its closing quote; the first argument bounds its length. -/
def readText : Nat → List Char → List Char → Option (String × List Char)
  | 0, _, _ => none
  | _, _, [] => none
  | fuel + 1, seen, c :: rest =>
    if c = '"' then some (String.ofList seen.reverse, rest)
    else if c = '\\' then
      match rest with
      | 'u' :: unit =>
        let (c, rest) := readUnit unit
        readText fuel (c :: seen) rest
      | c :: rest => readText fuel (escaped c :: seen) rest
      | [] => none
    else readText fuel (c :: seen) rest

/-- The characters that only numbers other than integers have. -/
def isFractional (c : Char) : Bool := c = '.' || c = 'e' || c = 'E'

def isNumeric (c : Char) : Bool := c.isDigit || c = '+' || c = '-' || isFractional c

/-- The number that a text spells: an integer unless it has a point or an exponent. -/
def readNumber (text : List Char) : Option (Given Float) :=
  if text.any isFractional then (Decimal.signedReal? text).map .real
  else (Decimal.signedDigits? text).map .integer

/-- A word without quotes, and what is left behind it. -/
def readWord (cs : List Char) : Option (Given Float × List Char) :=
  let rest := cs.dropWhile Char.isAlpha
  match String.ofList (cs.takeWhile Char.isAlpha) with
  | "null" => some (.null, rest)
  | "true" => some (.flag true, rest)
  | "false" => some (.flag false, rest)
  | "NaN" => some (.real Double.nan, rest)
  | "Infinity" => some (.real Double.infinity, rest)
  | _ => none

def enter (fields : List (String × Given Float)) (name : String) (value : Given Float) :
    List (String × Given Float) :=
  match fields with
  | [] => [(name, value)]
  | field :: rest =>
    if field.1 = name then (name, value) :: rest else field :: enter rest name value

mutual

/-- Read one value; the first argument bounds the number of steps. -/
def readValue : Nat → List Char → Option (Given Float × List Char)
  | 0, _ => none
  | fuel + 1, cs =>
    match skip cs with
    | '"' :: rest => (readText fuel [] rest).map fun read => (.text read.1, read.2)
    | '[' :: rest => readItems fuel [] rest
    | '\x7b' :: rest => readFields fuel [] rest
    | '-' :: 'I' :: rest =>
      (readWord ('I' :: rest)).map fun read => (.real (-Double.infinity), read.2)
    | cs =>
      (readWord cs).or
        ((readNumber (cs.takeWhile isNumeric)).map fun n => (n, cs.dropWhile isNumeric))

def readItems : Nat → List (Given Float) → List Char → Option (Given Float × List Char)
  | 0, _, _ => none
  | fuel + 1, seen, cs =>
    match skip cs with
    | ']' :: rest => some (.list seen.reverse, rest)
    | ',' :: rest => readItems fuel seen rest
    | cs =>
      match readValue fuel cs with
      | some (value, rest) => readItems fuel (value :: seen) rest
      | none => none

def readFields : Nat → List (String × Given Float) → List Char → Option (Given Float × List Char)
  | 0, _, _ => none
  | fuel + 1, seen, cs =>
    match skip cs with
    | '\x7d' :: rest => some (.record seen, rest)
    | ',' :: rest => readFields fuel seen rest
    | '"' :: rest =>
      match readText fuel [] rest with
      | some (name, rest) =>
        match readValue fuel ((skip rest).drop 1) with
        | some (value, rest) => readFields fuel (enter seen name value) rest
        | none => none
      | none => none
    | _ => none

end

def read (text : String) : Option (Given Float) :=
  let cs := text.toList
  (readValue (3 * cs.length + 3) cs).map Prod.fst

end Json

/-! ### Writing -/

inductive Json where
  | null
  | flag (value : Bool)
  | int (value : Int)
  | real (value : Float)
  | str (text : String)
  | arr (items : List Json)
  | obj (fields : List (String × Json))
  /-- A number whose text is given. -/
  | num (text : String)

namespace Json

instance : Inhabited Json := ⟨null⟩

def writeChar (c : Char) : String :=
  if c = '"' then "\\\""
  else if c = '\\' then "\\\\"
  else if c.toNat < 0x20 then "\\u" ++ String.ofList (Text.hexadecimal 4 c.toNat)
  else c.toString

def writeText (text : String) : String :=
  "\"" ++ String.join (text.toList.map writeChar) ++ "\""

/-- The name of a number that has no digits, in quotes, or the given text of another; zero has
    no sign. -/
def writeReal (digits : Float → String) (x : Float) : String :=
  if x != x then "\"NaN\""
  else if !Double.isFinite x then if x < 0.0 then "\"-Infinity\"" else "\"Infinity\""
  else if x == 0.0 then "0.0"
  else digits x

mutual

def write : Json → String
  | null => "null"
  | flag value => if value then "true" else "false"
  | int value => toString value
  | real value => writeReal Decimal.text value
  | str text => writeText text
  | arr items => "[" ++ ",".intercalate (writeItems items) ++ "]"
  | obj fields => "\x7b" ++ ",".intercalate (writeFields fields) ++ "\x7d"
  | num text => text

def writeItems : List Json → List String
  | [] => []
  | item :: rest => write item :: writeItems rest

def writeFields : List (String × Json) → List String
  | [] => []
  | (name, value) :: rest => (writeText name ++ ":" ++ write value) :: writeFields rest

end

end Json

end LeastSquares
