/-
  LeastSquares/Convergence.lean
  =============================
  **When the decrease of the cost ends an optimization.**

  An optimization ends when the cost has come down to a bound, when it has gone up, or when it
  has gone down by too little: by less than an absolute threshold, or by less than a fraction
  of the cost before.
-/
import LeastSquares.Event
import LeastSquares.Parameters

namespace LeastSquares

namespace Convergence

variable {α : Type} [Scalar α]

structure Thresholds (α : Type) where
  relativeDecrease : α
  absoluteDecrease : α
  sumError : α

def Thresholds.ofParameters (p : Parameters α) : Thresholds α :=
  ⟨p.relativeDecrease, p.absoluteDecrease, p.sumError⟩

/-- Decide whether the change of the cost from `old` to `new` ends the optimization, and report
    why, in more detail from the first level of verbosity on. -/
def check (t : Thresholds α) (old new : α) (verbosity : Int) :
    Except Error Bool × List (Report α) :=
  let level : Level := if (Verbosity.error.level : Int) ≤ verbosity then .info else .debug
  let decrease := old - new
  let relative := decrease / old
  if new ≤ t.sumError then (.ok true, [⟨level, .costReached new t.sumError⟩])
  else if decrease < 0 then (.ok true, [⟨.warning, .costIncreased old new⟩])
  else if decrease < t.absoluteDecrease then
    (.ok true, [⟨level, .absoluteDecreaseSmall decrease t.absoluteDecrease⟩])
  else if Scalar.isZero old then (.error .divisionByZero, [])
  else if relative < t.relativeDecrease then
    (.ok true, [⟨level, .relativeDecreaseSmall relative t.relativeDecrease⟩])
  else (.ok false, [])

/-! ### Values as they are given -/

/-- A level of verbosity, which need not be an integer. -/
def verbosityOf (given : Given α) : Except Error Int :=
  match given.withNumbers with
  | .real x => .ok (if Scalar.ofNat Verbosity.error.level ≤ x then Verbosity.error.level else 0)
  | other => other.toInt

/-- The decision on values as they are given, each of which is read when it is looked at. -/
def ofGiven (thresholds : Thresholds (Given α)) (old new verbosity : Given α) :
    Except Error (Except Error Bool × List (Report α)) := do
  let verbosity ← verbosityOf verbosity
  let new ← new.toNumber
  let sum ← thresholds.sumError.toNumber
  if new ≤ sum then return check ⟨0, 0, sum⟩ 0 new verbosity
  let old ← old.toNumber
  if old - new < 0 then return check ⟨0, 0, sum⟩ old new verbosity
  let absolute ← thresholds.absoluteDecrease.toNumber
  if old - new < absolute ∨ Scalar.isZero old then
    return check ⟨0, absolute, sum⟩ old new verbosity
  let relative ← thresholds.relativeDecrease.toNumber
  return check ⟨relative, absolute, sum⟩ old new verbosity

theorem ofGiven_reals (t : Thresholds α) (old new : α) (verbosity : Int) :
    ofGiven ⟨.real t.relativeDecrease, .real t.absoluteDecrease, .real t.sumError⟩ (.real old)
      (.real new) (.integer verbosity) = .ok (check t old new verbosity) := by
  simp only [ofGiven, verbosityOf, Given.withNumbers, Given.toInt, Given.toNumber, bind,
    Except.bind, pure, Except.pure]
  split
  · next h => simp [check, h]
  · next h =>
    split
    · next hd => simp [check, h, hd]
    · next hd =>
      split
      · next ha =>
        rcases ha with ha | ha
        · simp [check, h, hd, ha]
        · by_cases hb : old - new < t.absoluteDecrease <;> simp [check, h, hd, ha, hb]
      · rfl

end Convergence

end LeastSquares
