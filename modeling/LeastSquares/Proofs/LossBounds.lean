/-
  LeastSquares/Proofs/LossBounds.lean
  ===================================
  **Costs are not negative, and weights lie between zero and one.**

  This needs less of the parameters than a quadratic above the loss does: a threshold may be anything
  that is not negative, and a width anything but zero.  Proper parameters give more: the loss lies between
  zero and half the square of the length, its weight is above zero, and the quadratic with the weight of
  any length lies above it.
-/
import LeastSquares.Proofs.RobustLosses

namespace LeastSquares.Loss

variable {loss : Loss ℝ} {length : ℝ}

/-- The parameters for which costs and weights are in range: a threshold that is not negative, and a
    width that can be divided by. -/
def IsAdmissible : Loss ℝ → Prop
  | none => True
  | huber threshold => 0 ≤ threshold
  | cauchy width => width ≠ 0

theorem IsProper.isAdmissible (h : loss.IsProper) : loss.IsAdmissible := by
  cases loss with
  | none => trivial
  | huber threshold => exact le_trans (by norm_num) (show 1e-12 ≤ threshold from h)
  | cauchy width => exact (show 0 < width from h).ne'

/-! ### The two sides of a threshold -/

theorem weight_huber_within {threshold : ℝ} (hlength : 0 ≤ length) (h : length ≤ threshold) :
    (huber threshold).weight length = 1 := by
  simp only [weight, Scalar.abs_real, abs_of_nonneg hlength]
  rw [if_pos h]
  norm_num

/-- The weight of a length beyond the threshold, which is not divided by less than a fixed number. -/
theorem weight_huber_beyond {threshold : ℝ} (hlength : 0 ≤ length) (h : threshold < length) :
    (huber threshold).weight length = threshold / max length 1e-12 := by
  simp only [weight, Scalar.abs_real, abs_of_nonneg hlength, Scalar.maximum_real]
  exact if_neg (not_le.mpr h)

/-! ### The origin -/

theorem cost_zero (h : loss.IsAdmissible) : loss.cost 0 = 0 := by
  cases loss with
  | none => simp [cost_none]
  | huber threshold =>
    rw [cost_huber le_rfl, if_pos (show 0 ≤ threshold from h)]
    simp
  | cauchy width => simp [cost_cauchy]

theorem weight_zero (h : loss.IsAdmissible) : loss.weight 0 = 1 := by
  cases loss with
  | none => norm_num [weight]
  | huber threshold => exact weight_huber_within le_rfl (show 0 ≤ threshold from h)
  | cauchy width => simp [weight_cauchy]

/-! ### Ranges -/

theorem cost_nonneg (h : loss.IsAdmissible) (hlength : 0 ≤ length) : 0 ≤ loss.cost length := by
  cases loss with
  | none =>
    rw [cost_none]
    positivity
  | huber threshold =>
    have hthreshold : 0 ≤ threshold := h
    rw [cost_huber hlength]
    split
    · positivity
    · next hlong =>
      exact mul_nonneg hthreshold (by linarith)
  | cauchy width =>
    have hlog : 0 ≤ Real.log (1 + length ^ 2 / width ^ 2) :=
      Real.log_nonneg (le_add_of_nonneg_right (by positivity))
    rw [cost_cauchy]
    positivity

/-- **Weights lie between zero and one.** -/
theorem weight_mem (h : loss.IsAdmissible) (hlength : 0 ≤ length) :
    loss.weight length ∈ Set.Icc 0 1 := by
  cases loss with
  | none => norm_num [weight]
  | huber threshold =>
    have hthreshold : 0 ≤ threshold := h
    rcases le_or_gt length threshold with hshort | hlong
    · rw [weight_huber_within hlength hshort]
      exact ⟨zero_le_one, le_rfl⟩
    · have hdivisor : threshold ≤ max length 1e-12 := hlong.le.trans (le_max_left _ _)
      rw [weight_huber_beyond hlength hlong]
      exact ⟨div_nonneg hthreshold (hthreshold.trans hdivisor),
        div_le_one_of_le₀ hdivisor (hthreshold.trans hdivisor)⟩
  | cauchy width =>
    have hbase : 1 ≤ 1 + length ^ 2 / width ^ 2 := le_add_of_nonneg_right (by positivity)
    rw [weight_cauchy]
    exact ⟨by positivity, div_le_one_of_le₀ hbase (by positivity)⟩

/-- Below zero a threshold gives every length a cost and a weight below zero. -/
theorem huber_neg {threshold : ℝ} (h : threshold < 0) (hlength : 0 ≤ length) :
    (huber threshold).cost length < 0 ∧ (huber threshold).weight length < 0 := by
  have hlong : threshold < length := h.trans_le hlength
  constructor
  · rw [cost_huber hlength, if_neg (not_le.mpr hlong)]
    exact mul_neg_of_neg_of_pos h (by linarith)
  · rw [weight_huber_beyond hlength hlong]
    exact div_neg_of_neg_of_pos h (lt_max_of_lt_right (by norm_num))

/-! ### Proper losses -/

theorem weight_pos (h : loss.IsProper) (hlength : 0 ≤ length) : 0 < loss.weight length := by
  cases loss with
  | none => norm_num [weight]
  | huber threshold =>
    have hthreshold : 0 < threshold := lt_of_lt_of_le (by norm_num) (show 1e-12 ≤ threshold from h)
    rcases le_or_gt length threshold with hshort | hlong
    · rw [weight_huber_within hlength hshort]
      exact zero_lt_one
    · rw [weight_huber_beyond hlength hlong]
      exact div_pos hthreshold (lt_max_of_lt_right (by norm_num))
  | cauchy width =>
    rw [weight_cauchy]
    positivity

/-- The quadratic of the origin is half the square of the length. -/
theorem cost_le_half_sq (h : loss.IsProper) (hlength : 0 ≤ length) :
    loss.cost length ≤ length ^ 2 / 2 := by
  have htouch := cost_le h le_rfl hlength
  rw [cost_zero h.isAdmissible, weight_zero h.isAdmissible] at htouch
  linarith

/-! ### Losses by their names -/

/-- The parameters that a loss is given with beside its name. -/
def parameters : Loss ℝ → List (String × Given ℝ)
  | none => []
  | huber threshold => [("delta", .real threshold)]
  | cauchy width => [("sigma", .real width)]

/-- A loss is found by its name and its parameters. -/
theorem named_parameters (loss : Loss ℝ) : named loss.name loss.parameters = .ok loss := by
  cases loss with
  | none => rfl
  | huber threshold => rfl
  | cauchy width =>
    have hofKind : ofKind .cauchy [] (parameters (cauchy width)) = .ok (cauchy width) := by
      simp [ofKind, parameters, parameter, Given.toNumber, Scalar.isFinite_real, bind, Except.bind,
        pure, Except.pure]
    exact hofKind

/-- **The weight of a length gives a quadratic that lies above the loss at every length**, and touches it
    at its own.  A loss with proper parameters is found by its name; it lies between zero and half the
    square of the length, and its weight is above zero and at most one. -/
theorem majorized (h : loss.IsProper) :
    named loss.name loss.parameters = .ok loss ∧
    ∀ old new : ℝ, 0 ≤ old → 0 ≤ new →
      loss.cost new ≤ loss.cost old + loss.weight old / 2 * (new ^ 2 - old ^ 2) ∧
      (0 ≤ loss.cost old ∧ loss.cost old ≤ old ^ 2 / 2) ∧
      0 < loss.weight old ∧ loss.weight old ≤ 1 := by
  refine ⟨named_parameters loss, fun old new hold hnew => ⟨?_, ⟨?_, ?_⟩, ?_, ?_⟩⟩
  · have hquadratic := cost_le h hold hnew
    linarith
  · exact cost_nonneg h.isAdmissible hold
  · exact cost_le_half_sq h hold
  · exact weight_pos h hold
  · exact (weight_mem h.isAdmissible hold).2

/-- From within a threshold of one half to beyond it. -/
theorem majorized_half :
    (huber (1 / 2) : Loss ℝ).IsProper ∧
      (huber (1 / 2) : Loss ℝ).cost 3 ≤ (huber (1 / 2)).cost 0 + (huber (1 / 2)).weight 0 / 2 * 3 ^ 2 := by
  have hproper : (huber (1 / 2) : Loss ℝ).IsProper := by norm_num [IsProper]
  refine ⟨hproper, ?_⟩
  have h := (majorized hproper).2 0 3 le_rfl (by norm_num)
  simpa using h.1

end LeastSquares.Loss
