/-
  LeastSquares/Synthetic/RangeNetwork.lean
  ========================================
  **Points in the plane with measured distances.**

  Some points, the anchors, have known positions.  Every other point is connected to every
  anchor, and to the points that are nearest to it, but no pair is connected twice.
-/
import LeastSquares.Synthetic.Problem

namespace LeastSquares

structure RangeNetwork (α : Type) where
  points : Given α
  anchors : Given α
  extent : Given α
  rangeSigma : Given α
  initialNoise : Given α
  neighbours : Given α

namespace RangeNetwork

variable {α : Type} [Scalar α]

def ofPoints (points : Given α) : RangeNetwork α := {
  points := points
  anchors := .integer 3
  extent := .real 10.0
  rangeSigma := .real 0.01
  initialNoise := .real 0.5
  neighbours := .integer 3 }

def ofGiven (args : Given α) : Except Error (RangeNetwork α) := do
  Problem.checkNames args "n_points"
    ["n_anchors", "extent", "range_sigma", "initial_noise", "neighbours"]
  let usual := ofPoints (args.field "n_points")
  return {
    points := usual.points
    anchors := Problem.argument args "n_anchors" usual.anchors
    extent := Problem.argument args "extent" usual.extent
    rangeSigma := Problem.argument args "range_sigma" usual.rangeSigma
    initialNoise := Problem.argument args "initial_noise" usual.initialNoise
    neighbours := Problem.argument args "neighbours" usual.neighbours }

def distance (p q : Vec α) : α := Vec.norm (Vec.sub p q)

/-- The order of distances, where what is no number comes last. -/
def notAfter (x y : α) : Bool := decide (x ≤ y) || !Scalar.isNumber y

/-- The indices of points by their distances, without the first of them. -/
def nearest (distances : List α) (count : Int) : List Nat :=
  let ranked := (distances.zipIdx.mergeSort fun a b => notAfter a.1 b.1).map (·.2)
  let stop := if count + 1 < 0 then ranked.length - (-(count + 1)).toNat else (count + 1).toNat
  (ranked.take stop).drop 1

/-- Measure a distance with noise, which has to be a single number. -/
def measureRange (noise : Noise α) (sigma : Given α) (g : Graph α) (first second : Key)
    (distance : α) : Drawing α (Graph α) := do
  let error ← Draws.normalLike sigma
  let measured := error.map fun e => distance + e
  let value : Given α := match measured.shape, measured.data with
    | [], [x] => .real x
    | _, xs => .ofVector xs
  Problem.addFactor g (Factor.range first second value (some noise) none)

/-- Connect a point to its nearest points, but no pair twice. -/
def connectNearest (network : RangeNetwork α) (noise : Noise α) (points : List (Vec α))
    (state : Graph α × List (Nat × Nat)) (point : Vec α × Nat) :
    Drawing α (Graph α × List (Nat × Nat)) := do
  let distances := points.map fun other => distance other point.1
  let count ← network.neighbours.toInt
  (nearest distances count).foldlM (fun state other => do
    let pair := (min point.2 other, max point.2 other)
    if state.2.elem pair then return state
    else
      let g ← measureRange noise network.rangeSigma state.1 (Problem.member "p" pair.1)
        (Problem.member "p" pair.2) (distances.getD other 0)
      return (g, state.2 ++ [pair])) state

def problem (network : RangeNetwork α) : Drawing α (Problem α) := do
  Problem.checkLeast network.anchors 3 .fewAnchors
  let anchors ← Draws.uniformPoints network.extent network.anchors
  let points ← Draws.uniformPoints network.extent network.points
  let anchors := Problem.named "a" anchors
  let members := Problem.named "p" points
  let truth : Values α := ⟨anchors ++ members⟩
  let noise ← Noise.filled (.integer 1) network.rangeSigma
  let tight ← Noise.isotropic 2 Problem.anchorSigma
  let anchored ← anchors.foldlM (fun g anchor =>
    Problem.addFactor g (Factor.prior anchor.1 (.ofVector anchor.2) (some tight) none))
    Graph.empty
  let ranged ← members.foldlM (fun g point =>
    anchors.foldlM (fun g anchor =>
      measureRange noise network.rangeSigma g anchor.1 point.1 (distance point.2 anchor.2)) g)
    anchored
  let connected ← points.zipIdx.foldlM (connectNearest network noise points) (ranged, [])
  let initial ← Draws.perturb truth network.initialNoise
  return ⟨connected.1, truth, initial⟩

end RangeNetwork

end LeastSquares
