/-
  LeastSquares/Synthetic/PoseChain.lean
  =====================================
  **Chains of planar poses with measured motions.**

  Each pose is one and the same step away from the one before.  The first pose is known, the
  motion from each pose to the next is measured with noise, and so may be the motion from the
  last pose back to the first.
-/
import LeastSquares.Synthetic.Problem

namespace LeastSquares

structure PoseChain (α : Type) where
  count : Given α
  step : Given α
  sigmas : Given α
  initialNoise : Given α
  loopClosure : Bool

namespace PoseChain

variable {α : Type} [Scalar α]

def ofCount (count : Given α) : PoseChain α := {
  count := count
  step := .ofVector [1.0, 0.0, 0.2]
  sigmas := .ofVector [0.05, 0.05, 0.02]
  initialNoise := .real 0.1
  loopClosure := true }

def ofGiven (args : Given α) : Except Error (PoseChain α) := do
  Problem.checkNames args "n_poses" ["step", "odometry_sigmas", "initial_noise", "loop_closure"]
  let usual := ofCount (args.field "n_poses")
  return {
    count := usual.count
    step := Problem.argument args "step" usual.step
    sigmas := Problem.argument args "odometry_sigmas" usual.sigmas
    initialNoise := Problem.argument args "initial_noise" usual.initialNoise
    loopClosure := (args.get? "loop_closure").elim usual.loopClosure Given.holds }

/-- The true poses from one on, each a step after the one before. -/
def posesFrom (step : Tensor α) (pose : Pose2 α) : Nat → Except Error (List (Pose2 α))
  | 0 => .ok []
  | count + 1 => do
    let motion ← Pose2.ofTensor "b" step
    let rest ← posesFrom step (Pose2.compose pose motion) count
    return pose :: rest

def measureMotion (noise : Noise α) (g : Graph α) (first second : Key × Pose2 α) :
    Drawing α (Graph α) := do
  let errors ← Draws.normalVec noise.sigmas
  let measured ← combine (· + ·) (Pose2.between first.2 second.2).toVec errors
  Problem.addFactor g
    (Factor.poseBetween first.1 second.1 (.ofVector measured) (some noise) none)

def problem (chain : PoseChain α) : Drawing α (Problem α) := do
  Problem.checkLeast chain.count 2 .fewPoses
  let step ← Tensor.ofGiven chain.step
  let noise ← Noise.diagonal chain.sigmas
  let count ← chain.count.toInt
  let poses ← posesFrom step Pose2.origin count.toNat
  let poses := Problem.named "x" poses
  let truth : Values α := ⟨poses.map fun entry => (entry.1, entry.2.toVec)⟩
  let anchor ← Noise.isotropic 3 Problem.anchorSigma
  let anchored ← Problem.addFactor Graph.empty
    (Factor.posePrior (Problem.member "x" 0) (.ofVector Pose2.origin.toVec) (some anchor) none)
  let chained ← (poses.zip poses.tail).foldlM
    (fun g pair => measureMotion noise g pair.1 pair.2) anchored
  let closed ← (match poses.getLast?, poses.head? with
    | some last, some first =>
      if chain.loopClosure ∧ 2 < poses.length then measureMotion noise chained last first
      else pure chained
    | _, _ => pure chained)
  let initial ← Draws.perturb truth chain.initialNoise
  return ⟨closed, truth, initial⟩

end PoseChain

end LeastSquares
