/-
  LeastSquares/Proofs/RobustLosses.lean
  =====================================
  **The weight of a loss gives a quadratic that touches the loss from above.**

  At a length the quadratic with the weight of that length has the value of the loss there, and nowhere
  is it below the loss.  So what lowers the weighted squares lowers the loss at least as much.
-/
import LeastSquares.Loss
import LeastSquares.Proofs.Reals

namespace LeastSquares

namespace Loss

/-- The parameters for which a loss is one: a threshold that its weight can be divided by, and a width
    above zero. -/
def IsProper : Loss ℝ → Prop
  | none => True
  | huber threshold => 1e-12 ≤ threshold
  | cauchy width => 0 < width

theorem cost_none (length : ℝ) : (none : Loss ℝ).cost length = 1 / 2 * length ^ 2 := by
  simp only [cost, Scalar.sq]
  ring

theorem cost_huber {threshold length : ℝ} (h : 0 ≤ length) :
    (huber threshold).cost length = if length ≤ threshold then 1 / 2 * length ^ 2
      else threshold * (length - 1 / 2 * threshold) := by
  simp only [cost, Scalar.abs_real, abs_of_nonneg h, Scalar.sq]
  split <;> ring

theorem weight_huber {threshold length : ℝ} (hthreshold : 1e-12 ≤ threshold) (h : 0 ≤ length) :
    (huber threshold).weight length = if length ≤ threshold then 1 else threshold / length := by
  simp only [weight, Scalar.abs_real, abs_of_nonneg h, Scalar.maximum_real]
  split
  · norm_num
  · next hlong => rw [max_eq_left (hthreshold.trans (not_le.mp hlong).le)]

theorem cost_cauchy (width length : ℝ) :
    (cauchy width).cost length = 1 / 2 * width ^ 2 * Real.log (1 + length ^ 2 / width ^ 2) := by
  simp only [cost, Scalar.sq, Scalar.log1p, pow_two]
  norm_num

theorem weight_cauchy (width length : ℝ) :
    (cauchy width).weight length = 1 / (1 + length ^ 2 / width ^ 2) := by
  simp only [weight, Scalar.sq, pow_two]
  norm_num

theorem weight_nonneg {loss : Loss ℝ} (h : loss.IsProper) {length : ℝ} (hlength : 0 ≤ length) :
    0 ≤ loss.weight length := by
  cases loss with
  | none => norm_num [weight]
  | huber threshold =>
    have hthreshold : (0 : ℝ) ≤ threshold := le_trans (by norm_num) (show 1e-12 ≤ threshold from h)
    rw [weight_huber h hlength]
    split
    · exact zero_le_one
    · exact div_nonneg hthreshold hlength
  | cauchy width =>
    rw [weight_cauchy]
    positivity

/-! ### The quadratic above the loss -/

theorem huber_le {threshold : ℝ} (h : 1e-12 ≤ threshold) {old new : ℝ} (hold : 0 ≤ old)
    (hnew : 0 ≤ new) : (huber threshold).cost new ≤
      (huber threshold).cost old + 1 / 2 * ((huber threshold).weight old * (new ^ 2 - old ^ 2)) := by
  have hpos : (0 : ℝ) < threshold := lt_of_lt_of_le (by norm_num) h
  rw [cost_huber hold, cost_huber hnew, weight_huber h hold]
  by_cases hshort : old ≤ threshold
  · rw [if_pos hshort, if_pos hshort]
    by_cases hnear : new ≤ threshold
    · rw [if_pos hnear]
      linarith
    · -- the line is the tangent of the parabola at the threshold
      rw [if_neg hnear]
      nlinarith [sq_nonneg (new - threshold)]
  · have hlong : threshold < old := not_le.mp hshort
    have hweight : threshold / old * old ^ 2 = threshold * old := by
      field_simp
    rw [if_neg hshort, if_neg hshort, mul_sub (threshold / old), hweight]
    by_cases hnear : new ≤ threshold
    · rw [if_pos hnear]
      have hcross : new ^ 2 ≤ threshold * old := by nlinarith
      have hgap : 0 ≤ (old - threshold) * (threshold * old - new ^ 2) / old :=
        div_nonneg (mul_nonneg (by linarith) (by linarith)) (by linarith)
      have hexpand : (old - threshold) * (threshold * old - new ^ 2) / old =
          threshold * old - threshold ^ 2 - new ^ 2 + threshold / old * new ^ 2 := by
        have hne : old ≠ 0 := (hpos.trans hlong).ne'
        field_simp
        ring
      rw [hexpand] at hgap
      linarith
    · rw [if_neg hnear]
      have hgap : 0 ≤ threshold / old * (new - old) ^ 2 := by positivity
      have hexpand : threshold / old * (new - old) ^ 2 =
          threshold / old * new ^ 2 - 2 * threshold * new + threshold * old := by
        have hne : old ≠ 0 := (hpos.trans hlong).ne'
        field_simp
        ring
      rw [hexpand] at hgap
      linarith

theorem cauchy_le {width : ℝ} (h : 0 < width) (old new : ℝ) : (cauchy width).cost new ≤
    (cauchy width).cost old + 1 / 2 * ((cauchy width).weight old * (new ^ 2 - old ^ 2)) := by
  rw [cost_cauchy, cost_cauchy, weight_cauchy]
  have hsq : 0 < width ^ 2 := by positivity
  have hbase : 0 < 1 + old ^ 2 / width ^ 2 := by positivity
  have hother : 0 < 1 + new ^ 2 / width ^ 2 := by positivity
  -- the logarithm is below its tangent
  have htangent := Real.log_le_sub_one_of_pos (div_pos hother hbase)
  rw [Real.log_div hother.ne' hbase.ne'] at htangent
  have hslope : width ^ 2 * ((1 + new ^ 2 / width ^ 2) / (1 + old ^ 2 / width ^ 2) - 1) =
      1 / (1 + old ^ 2 / width ^ 2) * (new ^ 2 - old ^ 2) := by
    field_simp
    ring
  have hscaled := mul_le_mul_of_nonneg_left htangent hsq.le
  rw [hslope] at hscaled
  linarith

/-- **The loss lies below the quadratic with the weight of any length**, which touches it there. -/
theorem cost_le {loss : Loss ℝ} (h : loss.IsProper) {old new : ℝ} (hold : 0 ≤ old) (hnew : 0 ≤ new) :
    loss.cost new ≤ loss.cost old + 1 / 2 * (loss.weight old * (new ^ 2 - old ^ 2)) := by
  cases loss with
  | none =>
    rw [cost_none, cost_none, weight]
    linarith
  | huber threshold => exact huber_le h hold hnew
  | cauchy width => exact cauchy_le h old new

end Loss

end LeastSquares
