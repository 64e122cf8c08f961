/-
  LeastSquares/Setting.lean
  =========================
  **How single settings are read.**

  Read as a real number or as an integer a setting may be a number, a truth value, which counts
  as one or zero, or a text that spells a number.  A limit on a number is looked at after it is
  read.
-/
import LeastSquares.Decimal.Reading
import LeastSquares.Given

namespace LeastSquares

namespace Setting

variable {α : Type}

/-! ### Limits and outcomes -/

inductive Limit where
  | free
  /-- The number has to be above zero. -/
  | positive
  /-- The number has to be at least zero. -/
  | nonnegative
  /-- The number may not be at most one. -/
  | notAtMostOne
deriving DecidableEq, Repr

/-- The outcome of reading one field: a value, or what is wrong. -/
abbrev Reading (β : Type) := Except (List Issue) β

def Reading.issues {β : Type} : Reading β → List Issue
  | .ok _ => []
  | .error issues => issues

/-- Read a field by its name, or take its default. -/
def field {β : Type} (fields : List (String × Given α)) (path : List String) (name : String)
    (default : β) (read : Given α → Except IssueKind β) : Reading β :=
  match fields.lookup name with
  | none => .ok default
  | some given =>
    match read given with
    | .ok value => .ok value
    | .error kind => .error [⟨path ++ [name], kind⟩]

/-- The value that is read when nothing is wrong in any field. -/
def whenClean {β : Type} (issues : List Issue) (value : Reading β) : Reading β :=
  if issues.isEmpty then value else .error issues

/-! ### Choices and numbers -/

/-- Read a choice by its name; anything else is refused. -/
def toChoice {β : Type} (named? : String → Option β) (refusal : IssueKind) :
    Given α → Except IssueKind β
  | .text name =>
    match named? name with
    | some choice => .ok choice
    | none => .error refusal
  | _ => .error refusal

def positiveNat (n : Int) : Except IssueKind Nat :=
  if 0 < n then .ok n.toNat else .error .greaterThan

variable [Scalar α]

/-- Read a setting as a real number; an integer may not be too large for one. -/
def toReal : Given α → Except IssueKind α
  | .flag value => .ok (if value then 1 else 0)
  | .integer value =>
    match Given.ofInteger value with
    | .ok x => .ok x
    | .error _ => .error .floatType
  | .real value => .ok value
  | .text value =>
    match Decimal.real? value with
    | some x => .ok x
    | none => .error .floatParsing
  | _ => .error .floatType

/-- The integer that a real number is equal to, if it is one below `2 ^ 63` in size. -/
def wholeOf (x : α) : Except IssueKind Int :=
  if !Scalar.isFinite x then .error .finiteNumber
  else
    let size := Scalar.ceilNat (Scalar.abs x)
    if Scalar.ofNat (Nat.pow 2 63) ≤ Scalar.abs x then .error .intParsingSize
    else if !Scalar.same (Scalar.ofNat size) (Scalar.abs x) then .error .intFromFloat
    else .ok (if x < 0 then -(size : Int) else size)

def toInteger : Given α → Except IssueKind Int
  | .flag value => .ok (if value then 1 else 0)
  | .integer value => .ok value
  | .real value => wholeOf value
  | .text value =>
    match Decimal.integer value with
    | .ok n => .ok n
    | .error .spelling => .error .intParsing
    | .error .length => .error .intParsingSize
  | _ => .error .intType

def Limit.check (limit : Limit) (x : α) : Except IssueKind α :=
  match limit with
  | free => .ok x
  | positive => if 0 < x then .ok x else .error .greaterThan
  | nonnegative => if 0 ≤ x then .ok x else .error .greaterThanEqual
  | notAtMostOne => if x ≤ 1 then .error .factorTooSmall else .ok x

def toLimited (limit : Limit) (given : Given α) : Except IssueKind α := do
  let x ← toReal given
  limit.check x

def toCount (given : Given α) : Except IssueKind Nat := do
  let n ← toInteger given
  positiveNat n

end Setting

end LeastSquares
