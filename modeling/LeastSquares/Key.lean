/-
  LeastSquares/Key.lean
  =====================
  **The names of variables.**

  A variable is named by a text or by an integer of any size; the text `1` and the integer `1`
  are different names.
-/
import LeastSquares.Text

namespace LeastSquares

inductive Key where
  | name (text : String)
  | number (value : Int)
deriving DecidableEq, Repr

namespace Key

/-- A key as messages show it: a text stands in quotes. -/
def shown : Key → String
  | .name text => Text.quoted text
  | .number value => toString value

/-- Keys as messages show them, in order. -/
def shownList (keys : List Key) : String := Text.bracketed (keys.map shown)

def shownSorted (keys : List Key) : List String := (keys.map shown).mergeSort (· ≤ ·)

end Key

end LeastSquares
