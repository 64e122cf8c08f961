/-
  LeastSquares/Linear/ConjugateGradient.lean
  ==========================================
  **The preconditioned conjugate gradient iteration.**

  The iteration starts at zero.  It stops when the residual is shorter than the tolerance, or
  after a given number of steps; in the last case the residual is not looked at again.
-/
import LeastSquares.Vec

namespace LeastSquares

structure Iterate (α : Type) where
  solution : Vec α
  steps : Nat
  converged : Bool
deriving Repr

structure GradientState (α : Type) where
  solution : Vec α
  residual : Vec α
  /-- The last direction with its inner product, once there is one. -/
  last : Option (Vec α × α)

namespace ConjugateGradient

variable {α : Type} [Scalar α]

/-- One step: a new direction, conjugate to the last one, and the minimum along it. -/
def step (apply precondition : Vec α → Vec α) (s : GradientState α) : GradientState α :=
  let z := precondition s.residual
  let rho := Vec.dot s.residual z
  let direction := match s.last with
    | none => z
    | some (p, previous) => Vec.add (Vec.scale (rho / previous) p) z
  let image := apply direction
  let length := rho / Vec.dot direction image
  ⟨Vec.add s.solution (Vec.scale length direction),
    Vec.sub s.residual (Vec.scale length image), some (direction, rho)⟩

/-- Iterate until the residual is shorter than the tolerance, at most a number of times. -/
def iterate (apply precondition : Vec α → Vec α) (tolerance : α) :
    Nat → Nat → GradientState α → Iterate α
  | 0, taken, s => ⟨s.solution, taken, false⟩
  | left + 1, taken, s =>
    if Vec.norm s.residual < tolerance then ⟨s.solution, taken, true⟩
    else iterate apply precondition tolerance left (taken + 1) (step apply precondition s)

/-- Solve a symmetric positive definite system up to an absolute tolerance or one relative to
    the right-hand side, whichever is greater. -/
def solve (apply precondition : Vec α → Vec α) (rhs : Vec α) (absolute relative : α)
    (maxIterations : Nat) : Iterate α :=
  let size := Vec.norm rhs
  if Scalar.isZero size then ⟨rhs, 0, true⟩
  else
    iterate apply precondition (Scalar.largerOf absolute (relative * size)) maxIterations 0
      ⟨Vec.zeros rhs.length, rhs, none⟩

end ConjugateGradient

end LeastSquares
