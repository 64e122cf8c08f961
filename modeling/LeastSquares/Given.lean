/-
  LeastSquares/Given.lean
  =======================
  **Values as they are given: plain data, not yet read.**

  Problems and settings arrive as numbers, texts, truth values, lists and records of them, and
  what a value means depends on where it stands.  An entry of an array may be missing, and
  counts then as the value that compares with nothing; a bare number may not.  Three texts name
  the numbers that have no digits.  An integer may be of any size, and is refused only where it
  has to become a number of the carrier that is too large for it.
-/
import LeastSquares.Decimal.Reading
import LeastSquares.Error

namespace LeastSquares

inductive Given (α : Type) where
  | null
  | flag (value : Bool)
  | integer (value : Int)
  | real (value : α)
  | text (value : String)
  | list (items : List (Given α))
  | record (fields : List (String × Given α))

namespace Given

variable {α : Type}

instance : Inhabited (Given α) := ⟨null⟩

/-! ### Texts -/

mutual

/-- A value as messages show it: a text stands in quotes. -/
def shown (number : α → String) : Given α → String
  | null => "None"
  | flag value => if value then "True" else "False"
  | integer value => toString value
  | real value => number value
  | text value => Text.quoted value
  | list items => Text.bracketed (shownItems number items)
  | record fields => "\x7b" ++ ", ".intercalate (shownFields number fields) ++ "\x7d"

def shownItems (number : α → String) : List (Given α) → List String
  | [] => []
  | item :: rest => shown number item :: shownItems number rest

def shownFields (number : α → String) : List (String × Given α) → List String
  | [] => []
  | (name, value) :: rest =>
    (Text.quoted name ++ ": " ++ shown number value) :: shownFields number rest

end

/-- A value as plain text: a text stands for itself. -/
def plain (number : α → String) : Given α → String
  | text value => value
  | other => other.shown number

/-! ### Parts -/

def get? (g : Given α) (name : String) : Option (Given α) :=
  match g with
  | record fields => fields.lookup name
  | _ => none

/-- The field of a name, unless it is null. -/
def some? (g : Given α) (name : String) : Option (Given α) :=
  match g.get? name with
  | some null => none
  | other => other

/-- The field of a name; null when there is none. -/
def field (g : Given α) (name : String) : Given α := (g.get? name).getD null

/-- The items of a list; none when the value is no list. -/
def items : Given α → List (Given α)
  | list items => items
  | _ => []

/-- The fields of a record; none when the value is no record. -/
def fields : Given α → List (String × Given α)
  | record fields => fields
  | _ => []

/-- The arguments that a field holds by their names: those of a record, and none when there is no
    such field. -/
def arguments (g : Given α) (name : String) : Except Error (List (String × Given α)) :=
  match g.some? name with
  | none => .ok []
  | some (record fields) => .ok fields
  | some _ => .error .badArguments

/-- The text of a text; empty when the value is none. -/
def str : Given α → String
  | text value => value
  | _ => ""

def key : Given α → Key
  | integer n => .number n
  | other => .name other.str

def keys (g : Given α) : List Key := g.items.map key

def pairs (g : Given α) : List (Key × Given α) :=
  g.items.map fun pair =>
    match pair.items with
    | name :: value :: _ => (name.key, value)
    | _ => (.name "", null)

def ofVector (xs : List α) : Given α := list (xs.map real)

/-! ### Integers -/

/-- An integer, or a truth value as one or zero. -/
def toInt : Given α → Except Error Int
  | integer n => .ok n
  | flag b => .ok (if b then 1 else 0)
  | _ => .error .badArguments

/-- The length of an axis, for which no truth value stands. -/
def toLength : Given α → Except Error Int
  | integer n => .ok n
  | _ => .error .badArguments

def mostAxes : Nat := 64

/-- The lengths of the axes of an array: of one axis by a single integer, of none by an empty
    list or text. -/
def lengths : Given α → Except Error (List Int)
  | list items => if mostAxes < items.length then .error .tooManyAxes else items.mapM toLength
  | text s =>
    if s = "" then .ok []
    else .error (if mostAxes < s.length then .tooManyAxes else .badArguments)
  | other => other.toLength.map fun n => [n]

/-- An integer fits into a machine word, with its sign or without one. -/
def isWord (n : Int) : Bool := -Int.ofNat (Nat.pow 2 63) ≤ n && n < Int.ofNat (Nat.pow 2 64)

def isText : Given α → Bool
  | text _ => true
  | _ => false

def isFlag : Given α → Bool
  | flag _ => true
  | _ => false

/-- A value that is neither a text nor a number that machines compute with: the parts of an
    array with such a part are looked at one by one. -/
def isForeign : Given α → Bool
  | null => true
  | integer n => !isWord n
  | record _ => true
  | _ => false

variable [Scalar α]

/-! ### Numbers -/

def named? (name : String) : Option α :=
  if name = "NaN" then some (0 / 0)
  else if name = "Infinity" then some (1 / 0)
  else if name = "-Infinity" then some (-(1 / 0))
  else none

mutual

def withNumbers : Given α → Given α
  | text name =>
    match named? name with
    | some x => real x
    | none => text name
  | list items => list (itemsWithNumbers items)
  | record fields => record (fieldsWithNumbers fields)
  | other => other

def itemsWithNumbers : List (Given α) → List (Given α)
  | [] => []
  | item :: rest => withNumbers item :: itemsWithNumbers rest

def fieldsWithNumbers : List (String × Given α) → List (String × Given α)
  | [] => []
  | (name, value) :: rest => (name, withNumbers value) :: fieldsWithNumbers rest

end

/-- An integer as a number of the carrier, which has to be finite. -/
def ofInteger (n : Int) : Except Error α :=
  let x : α := Scalar.ofInt n
  if Scalar.isFinite x then .ok x else .error .overflow

/-- A bare number; anything else is of no use in arithmetic. -/
def toNumber : Given α → Except Error α
  | flag b => .ok (if b then 1 else 0)
  | integer n => ofInteger n
  | real x => .ok x
  | text name =>
    match named? name with
    | some x => .ok x
    | none => .error .badArguments
  | _ => .error .badArguments

/-- A number, or a text that spells one. -/
def toReal : Given α → Except Error α
  | text s =>
    match Decimal.spelled? s with
    | some x => .ok x
    | none => .error .notNumeric
  | other => other.toNumber

/-- An argument of an elementary function: a bare number, where an integer has to fit into a
    machine word. -/
def toArgument : Given α → Except Error α
  | integer n => if isWord n then ofInteger n else .error .badArguments
  | other => other.toNumber

/-- The number that an entry of an array stands for; nothing counts as the value that compares
    with nothing. -/
def toEntry : Given α → Except Error α
  | null => .ok (0 / 0)
  | other => other.toReal

/-- A value holds when it is neither false nor nothing, zero or empty. -/
def holds : Given α → Bool
  | null => false
  | flag b => b
  | integer n => n ≠ 0
  | real x => !Scalar.isZero x
  | text s => s ≠ ""
  | list items => !items.isEmpty
  | record fields => !fields.isEmpty

end Given

end LeastSquares
