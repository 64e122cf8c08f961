/-
  LeastSquares/Proofs/RigidMotions.lean
  =====================================
  **Relative poses do not see where the whole estimate stands.**

  A measured relative pose is compared with one pose as it is seen from another.  A rigid motion
  that is applied to both leaves that view as it was, headings included, so a graph of such
  measurements has the same residuals and the same cost wherever the estimate as a whole is put
  and however it is turned.  Where an evaluation fails, it fails in the same way.
-/
import LeastSquares.Graph
import LeastSquares.Proofs.PlanarPoses
import LeastSquares.Proofs.Steps

namespace LeastSquares

variable {α : Type}

/-! ### Estimates of poses -/

/-- The estimate that a table of poses is. -/
def Values.ofPoses (poses : Table (Pose2 α)) : Values α := ⟨poses.mapEntries Pose2.toVec⟩

/-- The estimate with one motion applied to each of its poses. -/
def Values.transformed [Scalar α] (motion : Pose2 α) (v : Values α) : Except Error (Values α) :=
  (v.entries.mapM fun row =>
    (Pose2.ofVec "b" row.2).map fun pose => (row.1, (motion.compose pose).toVec)).map Values.mk

theorem Pose2.exists_toVec {xs : Vec α} (h : xs.length = 3) : ∃ p : Pose2 α, p.toVec = xs := by
  obtain ⟨x, y, heading, rfl⟩ := List.length_eq_three.mp h
  exact ⟨⟨x, y, heading⟩, rfl⟩

namespace Values

theorem exists_ofPoses {v : Values α} (h : ∀ row ∈ v.entries, row.2.length = 3) :
    ∃ poses, ofPoses poses = v := by
  obtain ⟨entries⟩ := v
  induction entries with
  | nil => exact ⟨[], rfl⟩
  | cons row rest ih =>
    obtain ⟨hrow, hrest⟩ := List.forall_mem_cons.mp h
    obtain ⟨p, hp⟩ := Pose2.exists_toVec hrow
    obtain ⟨poses, hposes⟩ := ih hrest
    have hentries : poses.mapEntries Pose2.toVec = rest := congrArg Values.entries hposes
    refine ⟨(row.1, p) :: poses, congrArg Values.mk ?_⟩
    rw [← hentries, Table.mapEntries, List.map_cons, hp]
    rfl

theorem keys_ofPoses (poses : Table (Pose2 α)) : (ofPoses poses).keys = poses.keys :=
  Table.keys_mapEntries poses Pose2.toVec

variable [Scalar α]

theorem transformed_ofPoses (motion : Pose2 α) (poses : Table (Pose2 α)) :
    (ofPoses poses).transformed motion = .ok (ofPoses (poses.mapEntries motion.compose)) := by
  have hrows : (ofPoses poses).entries.mapM (fun row =>
      (Pose2.ofVec "b" row.2).map fun pose => (row.1, (motion.compose pose).toVec)) =
      .ok (ofPoses (poses.mapEntries motion.compose)).entries := by
    refine mapM_eq_ok_iff.mpr ?_
    simp only [ofPoses, Table.mapEntries, List.map_map, List.forall₂_map_left_iff,
      List.forall₂_map_right_iff]
    exact List.forall₂_same.mpr fun row _ => rfl
  rw [transformed, hrows]
  rfl

end Values

/-! ### Residuals -/

section

variable [Scalar α]

/-- The residual of a relative pose is read off the pose that one variable is seen at from the
    other. -/
theorem Measurement.poseResidual_ofPoses (first second : Key) (pose : Tensor α)
    (poses : Table (Pose2 α)) :
    poseResidual first second pose (Values.ofPoses poses).entries = do
      let a ← poses.find first
      let b ← poses.find second
      let measured ← Pose2.ofTensor "a" pose
      return (Pose2.displacement measured (a.between b)).toVec := by
  simp only [poseResidual, Values.ofPoses, Table.find_mapEntries]
  cases poses.find first with
  | error e => rfl
  | ok a =>
    cases poses.find second with
    | error e => rfl
    | ok b => rfl

end

/-- The measurement is a relative pose. -/
def Measurement.IsPoseBetween (m : Measurement α) : Prop :=
  ∃ first second pose, m = .poseBetween first second pose

variable (motion : Pose2 ℝ) (poses : Table (Pose2 ℝ))

theorem Measurement.residual_moved {m : Measurement ℝ} (hm : m.IsPoseBetween) :
    m.residual (Values.ofPoses (poses.mapEntries motion.compose)).entries =
      m.residual (Values.ofPoses poses).entries := by
  obtain ⟨first, second, pose, rfl⟩ := hm
  simp only [residual, poseResidual_ofPoses, Table.find_mapEntries]
  cases poses.find first with
  | error e => rfl
  | ok a =>
    cases poses.find second with
    | error e => rfl
    | ok b =>
      have hview := Pose2.between_compose motion a b
      simp only [Except.map, bind, Except.bind, hview]

theorem Factor.whitened_moved {f : Factor ℝ} (hf : f.measurement.IsPoseBetween) :
    f.whitened (Values.ofPoses (poses.mapEntries motion.compose)).entries =
      f.whitened (Values.ofPoses poses).entries := by
  simp only [whitened, residual, Measurement.residual_moved motion poses hf]

/-! ### Graphs -/

namespace Graph

/-- Whether an estimate has all the variables depends on its variables only. -/
theorem checkKeys_congr [Scalar α] (g : Graph α) {v w : Values α} (h : v.keys = w.keys) :
    g.checkKeys v = g.checkKeys w := by
  have hcontains : ∀ key, v.contains key = w.contains key := fun key => congrArg (List.elem key) h
  have hfactor : checkFactor v = checkFactor w := by
    funext f
    simp only [checkFactor, hcontains]
  rw [checkKeys, checkKeys, hfactor]

/-- **Rigid motions are invisible to relative poses**: when every factor of a graph is a measured
    relative pose and every variable of the estimate is a pose, the estimate can be moved as a
    whole, and each whitened residual, all of them together and the cost are then what they were. -/
theorem rigid_motion_invisible {g : Graph ℝ} {values : Values ℝ}
    (hfactors : ∀ f ∈ g.factors, f.measurement.IsPoseBetween)
    (hposes : ∀ row ∈ values.entries, row.2.length = 3) (motion : Pose2 ℝ) :
    ∃ moved, values.transformed motion = .ok moved ∧ moved.keys = values.keys ∧
      (∀ f ∈ g.factors, f.whitened moved.entries = f.whitened values.entries) ∧
      g.residuals moved = g.residuals values ∧ g.cost moved = g.cost values := by
  obtain ⟨poses, rfl⟩ := Values.exists_ofPoses hposes
  have hkeys : (Values.ofPoses (poses.mapEntries motion.compose)).keys =
      (Values.ofPoses poses).keys := by
    rw [Values.keys_ofPoses, Values.keys_ofPoses, Table.keys_mapEntries]
  have hwhitened := fun f hf => Factor.whitened_moved motion poses (hfactors f hf)
  have hcosts : ∀ f ∈ g.factors,
      f.cost (Values.ofPoses (poses.mapEntries motion.compose)).entries =
        f.cost (Values.ofPoses poses).entries := by
    intro f hf
    rw [Factor.cost, Factor.cost, hwhitened f hf]
  refine ⟨_, Values.transformed_ofPoses motion poses, hkeys, hwhitened, ?_, ?_⟩
  · rw [residuals, residuals, checkKeys_congr g hkeys, mapM_congr hwhitened]
  · rw [cost, cost, checkKeys_congr g hkeys, mapM_congr hcosts]

end Graph

/-! ### Two poses in a line -/

namespace PosePair

def measurement : Measurement ℝ := .poseBetween (.number 0) (.number 1) ⟨[3], [1, 0, 0]⟩

/-- A second pose, measured one unit ahead of a first. -/
def graph : Graph ℝ := ⟨[⟨measurement, some ⟨[1, 1, 1], .none⟩, none⟩]⟩

/-- An estimate that has it three units ahead. -/
def estimate : Values ℝ := ⟨[(.number 0, [0, 0, 0]), (.number 1, [3, 0, 0])]⟩

theorem residual_eq : measurement.residual estimate.entries = .ok (.ofVector [2, 0, 0]) := by
  have hview : Pose2.between ⟨0, 0, 0⟩ ⟨3, 0, 0⟩ = (⟨3, 0, 0⟩ : Pose2 ℝ) := by
    simp [Pose2.between_real]
  have hmissed : Pose2.displacement ⟨1, 0, 0⟩ ⟨3, 0, 0⟩ = (⟨2, 0, 0⟩ : Pose2 ℝ) := by
    norm_num [Pose2.displacement]
  calc measurement.residual estimate.entries
      = .ok (.ofVector
          (Pose2.displacement ⟨1, 0, 0⟩ (Pose2.between ⟨0, 0, 0⟩ ⟨3, 0, 0⟩)).toVec) := rfl
    _ = .ok (.ofVector [2, 0, 0]) := by rw [hview, hmissed]; rfl

theorem graph_cost : graph.cost estimate = .ok 2 := by
  have hnorm : Vec.norm ([2 / 1, 0 / 1, 0 / 1] : Vec ℝ) = 2 := by
    rw [Vec.norm, Vec.normSq_real, Scalar.sqrt_real, Real.sqrt_eq_iff_mul_self_eq] <;>
      norm_num
  have hwhitened : Factor.whitened ⟨measurement, some ⟨[1, 1, 1], .none⟩, none⟩ estimate.entries
      = .ok (.ofVector [2 / 1, 0 / 1, 0 / 1]) := by
    simp only [Factor.whitened, Factor.residual, residual_eq]
    rfl
  have hcost : graph.cost estimate =
      .ok (Vec.sum [0.5 * Scalar.sq (Vec.norm [2 / 1, 0 / 1, 0 / 1])]) := by
    simp only [Graph.cost, graph, List.mapM_cons, Factor.cost, hwhitened]
    rfl
  rw [hcost, hnorm, Vec.sum_real]
  norm_num [Scalar.sq]

end PosePair

theorem Graph.rigid_motion_invisible_pair :
    (∀ f ∈ PosePair.graph.factors, f.measurement.IsPoseBetween) ∧
    (∀ row ∈ PosePair.estimate.entries, row.2.length = 3) ∧
    ∃ moved, PosePair.estimate.transformed ⟨5, 7, 4⟩ = .ok moved ∧
      PosePair.graph.cost moved = .ok 2 := by
  have hfactors : ∀ f ∈ PosePair.graph.factors, f.measurement.IsPoseBetween :=
    List.forall_mem_singleton.mpr ⟨_, _, _, rfl⟩
  have hposes : ∀ row ∈ PosePair.estimate.entries, row.2.length = 3 := by
    simp [PosePair.estimate]
  obtain ⟨moved, hmoved, -, -, -, hcost⟩ :=
    rigid_motion_invisible hfactors hposes ⟨5, 7, 4⟩
  exact ⟨hfactors, hposes, moved, hmoved, hcost.trans PosePair.graph_cost⟩

end LeastSquares
