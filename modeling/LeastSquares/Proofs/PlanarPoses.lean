/-
  LeastSquares/Proofs/PlanarPoses.lean
  ====================================
  **The algebra of planar poses over the real numbers.**

  Reducing a heading changes it by whole turns only, so a reduced heading stands for the same
  angle, and two headings that stand for one angle are reduced to the same number.  A pose is
  therefore a position with an angle, and its rotation does not notice how often its heading was
  reduced on the way.
-/
import LeastSquares.Pose2
import LeastSquares.Proofs.Reals
import Mathlib.Analysis.SpecialFunctions.Trigonometric.Angle

namespace LeastSquares.Pose2

open Real

/-! ### Headings -/

theorem wrapAngle_real (x : ℝ) : wrapAngle x = toIcoMod two_pi_pos (-π) x := by
  have two : (2.0 : ℝ) = 2 := by norm_num
  have floor : toIcoDiv two_pi_pos (-π) x = ⌊(x + π) / (2 * π)⌋ := by
    rw [toIcoDiv_eq_floor, sub_neg_eq_add]
  calc wrapAngle x
      = (x + π) - 2.0 * π * ⌊(x + π) / (2.0 * π)⌋ - π := rfl
    _ = x - (⌊(x + π) / (2 * π)⌋ : ℤ) * (2 * π) := by rw [two]; ring
    _ = toIcoMod two_pi_pos (-π) x := by rw [toIcoMod, floor, zsmul_eq_mul]

/-- A reduced heading stands for the same angle. -/
@[simp] theorem coe_wrapAngle (x : ℝ) : ((wrapAngle x : ℝ) : Angle) = x := by
  rw [wrapAngle_real, Angle.coe_toIcoMod]

/-- Headings that stand for one angle are reduced to one number. -/
theorem wrapAngle_congr {x y : ℝ} (h : (x : Angle) = y) : wrapAngle x = wrapAngle y := by
  obtain ⟨n, hn⟩ := Angle.angle_eq_iff_two_pi_dvd_sub.mp h.symm
  rw [wrapAngle_real, wrapAngle_real, toIcoMod_eq_toIcoMod]
  exact ⟨n, by rw [hn, zsmul_eq_mul, mul_comm]⟩

@[simp] theorem wrapAngle_zero : wrapAngle (0 : ℝ) = 0 := by
  have hmem : (0 : ℝ) ∈ Set.Ico (-π) (-π + 2 * π) :=
    ⟨by linarith [pi_pos], by linarith [pi_pos]⟩
  rw [wrapAngle_real, (toIcoMod_eq_self two_pi_pos).mpr hmem]

@[simp] theorem cos_wrapAngle (x : ℝ) : Scalar.cos (wrapAngle x) = Real.cos x := by
  rw [← Angle.cos_coe x, ← coe_wrapAngle x, Angle.cos_coe]
  rfl

@[simp] theorem sin_wrapAngle (x : ℝ) : Scalar.sin (wrapAngle x) = Real.sin x := by
  rw [← Angle.sin_coe x, ← coe_wrapAngle x, Angle.sin_coe]
  rfl

/-! ### Relative poses -/

/-- The position of one pose as it is seen from another: the difference of the positions, turned
    back by the heading. -/
theorem between_real (a b : Pose2 ℝ) :
    between a b =
      ⟨Real.cos a.heading * (b.x - a.x) + Real.sin a.heading * (b.y - a.y),
        -Real.sin a.heading * (b.x - a.x) + Real.cos a.heading * (b.y - a.y),
        wrapAngle (b.heading - a.heading)⟩ := by
  have heading : wrapAngle (wrapAngle (-a.heading) + b.heading) =
      wrapAngle (b.heading - a.heading) := by
    apply wrapAngle_congr
    rw [Angle.coe_add, coe_wrapAngle, Angle.coe_neg, Angle.coe_sub]
    abel
  have c : (Scalar.cos a.heading : ℝ) = Real.cos a.heading := rfl
  have s : (Scalar.sin a.heading : ℝ) = Real.sin a.heading := rfl
  simp only [between, compose, invert, cos_wrapAngle, sin_wrapAngle, Real.cos_neg, Real.sin_neg,
    heading, c, s, mk.injEq, and_true]
  constructor <;> ring

/-- A motion of the plane moves a difference of positions by its rotation alone. -/
theorem compose_sub (t a b : Pose2 ℝ) :
    (compose t b).x - (compose t a).x =
        Real.cos t.heading * (b.x - a.x) - Real.sin t.heading * (b.y - a.y) ∧
      (compose t b).y - (compose t a).y =
        Real.sin t.heading * (b.x - a.x) + Real.cos t.heading * (b.y - a.y) := by
  have c : (Scalar.cos t.heading : ℝ) = Real.cos t.heading := rfl
  have s : (Scalar.sin t.heading : ℝ) = Real.sin t.heading := rfl
  simp only [compose, c, s]
  constructor <;> ring

theorem compose_heading (t a : Pose2 ℝ) :
    (compose t a).heading = wrapAngle (t.heading + a.heading) := rfl

/-- One pose is seen from another as before when the same motion is applied to both. -/
theorem between_compose (t a b : Pose2 ℝ) :
    between (compose t a) (compose t b) = between a b := by
  obtain ⟨dx, dy⟩ := compose_sub t a b
  have heading : wrapAngle ((compose t b).heading - (compose t a).heading) =
      wrapAngle (b.heading - a.heading) := by
    apply wrapAngle_congr
    simp only [compose_heading, Angle.coe_sub, Angle.coe_add, coe_wrapAngle]
    abel
  have turn := Real.sin_sq_add_cos_sq t.heading
  have hc : Real.cos (compose t a).heading = Real.cos (t.heading + a.heading) :=
    cos_wrapAngle _
  have hs : Real.sin (compose t a).heading = Real.sin (t.heading + a.heading) :=
    sin_wrapAngle _
  rw [between_real, between_real, dx, dy, heading, hc, hs, Real.cos_add, Real.sin_add, mk.injEq]
  refine ⟨?_, ?_, rfl⟩
  · linear_combination
      (Real.cos a.heading * (b.x - a.x) + Real.sin a.heading * (b.y - a.y)) * turn
  · linear_combination
      (-Real.sin a.heading * (b.x - a.x) + Real.cos a.heading * (b.y - a.y)) * turn

end LeastSquares.Pose2
