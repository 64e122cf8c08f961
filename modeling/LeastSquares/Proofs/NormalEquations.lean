/-
  LeastSquares/Proofs/NormalEquations.lean
  ========================================
  **What it is to solve a linear least-squares problem.**

  The stacked matrix is read as a matrix, and with it full column rank, the normal equations and the
  least cost of a step are stated.  A step whose cost is strictly less than that of any other shows
  all of it: two steps would share the least cost if the columns were dependent.
-/
import Mathlib.LinearAlgebra.Matrix.Rank
import LeastSquares.Proofs.Conditionals
import LeastSquares.Proofs.StoredRows

namespace LeastSquares

open Vec Matrix

/-! ### Strict minimisers -/

section Minimiser

variable {m n : Type} [Fintype m] [Fintype n] {A : Matrix m n ℝ} {b : m → ℝ} {x : n → ℝ}

/-- The squared distance of the image of a vector from a right-hand side. -/
def distanceSq (A : Matrix m n ℝ) (b : m → ℝ) (x : n → ℝ) : ℝ := ∑ i, ((A *ᵥ x) i - b i) ^ 2

theorem distanceSq_eq_dotProduct (x : n → ℝ) :
    distanceSq A b x = (A *ᵥ x - b) ⬝ᵥ (A *ᵥ x - b) := by
  refine Finset.sum_congr rfl fun i _ => ?_
  rw [sq]
  rfl

theorem distanceSq_add_smul (x w : n → ℝ) (t : ℝ) :
    distanceSq A b (x + t • w) = distanceSq A b x + 2 * t * ((A *ᵥ x - b) ⬝ᵥ (A *ᵥ w)) +
      t ^ 2 * ((A *ᵥ w) ⬝ᵥ (A *ᵥ w)) := by
  have hsplit : A *ᵥ (x + t • w) - b = (A *ᵥ x - b) + t • (A *ᵥ w) := by
    rw [mulVec_add, mulVec_smul]
    abel
  rw [distanceSq_eq_dotProduct, distanceSq_eq_dotProduct, hsplit, add_dotProduct, dotProduct_add,
    dotProduct_add, smul_dotProduct, dotProduct_smul, smul_dotProduct, dotProduct_smul,
    dotProduct_comm (A *ᵥ w) (A *ᵥ x - b)]
  simp only [smul_eq_mul]
  ring

theorem mulVec_injective_of_strict (h : ∀ y, y ≠ x → distanceSq A b x < distanceSq A b y) {w : n → ℝ}
    (hw : A *ᵥ w = 0) : w = 0 := by
  by_contra hne
  have hlt := h (x + (1 : ℝ) • w) (by simpa using hne)
  rw [distanceSq_add_smul, hw] at hlt
  simp at hlt

theorem orthogonal_of_least (h : ∀ y, distanceSq A b x ≤ distanceSq A b y) (w : n → ℝ) :
    (A *ᵥ x - b) ⬝ᵥ (A *ᵥ w) = 0 := by
  obtain ⟨p, hp⟩ : ∃ p, p = (A *ᵥ x - b) ⬝ᵥ (A *ᵥ w) := ⟨_, rfl⟩
  obtain ⟨q, hq⟩ : ∃ q, q = (A *ᵥ w) ⬝ᵥ (A *ᵥ w) := ⟨_, rfl⟩
  have hle : ∀ t : ℝ, 0 ≤ 2 * t * p + t ^ 2 * q := by
    intro t
    have hmin := h (x + t • w)
    rw [distanceSq_add_smul, ← hp, ← hq] at hmin
    linarith
  rw [← hp]
  have hqnonneg : 0 ≤ q := by
    rw [hq]
    exact Finset.sum_nonneg fun i _ => mul_self_nonneg _
  rcases hqnonneg.eq_or_lt with hzero | hpos
  · have := hle (-p)
    rw [← hzero] at this
    nlinarith
  · have := hle (-p / q)
    have hvalue : 2 * (-p / q) * p + (-p / q) ^ 2 * q = -(p ^ 2 / q) := by
      field_simp
      ring
    rw [hvalue] at this
    have hsq : p ^ 2 / q ≤ 0 := by linarith
    have hsq' : 0 ≤ p ^ 2 / q := by positivity
    have hzero : p ^ 2 / q = 0 := le_antisymm hsq hsq'
    rcases div_eq_zero_iff.mp hzero with hp0 | hq0
    · exact pow_eq_zero_iff two_ne_zero |>.mp hp0
    · exact absurd hq0 hpos.ne'

/-- A minimiser solves the normal equations. -/
theorem normal_of_least (h : ∀ y, distanceSq A b x ≤ distanceSq A b y) :
    Aᵀ *ᵥ (A *ᵥ x) = Aᵀ *ᵥ b := by
  rw [← sub_eq_zero, ← mulVec_sub]
  refine dotProduct_eq_zero _ fun w => ?_
  rw [mulVec_transpose, ← dotProduct_mulVec]
  exact orthogonal_of_least h w

/-- **A strict minimiser** shows that the columns are independent, and it is the only solution of
    the normal equations. -/
theorem normalEquations_of_strict (h : ∀ y, y ≠ x → distanceSq A b x < distanceSq A b y) :
    A.rank = Fintype.card n ∧ ∀ y, Aᵀ *ᵥ (A *ᵥ y) = Aᵀ *ᵥ b ↔ y = x := by
  have hinjective : Function.Injective A.mulVecLin := by
    rw [← LinearMap.ker_eq_bot, LinearMap.ker_eq_bot']
    exact fun w hw => mulVec_injective_of_strict h hw
  have hnormal : Aᵀ *ᵥ (A *ᵥ x) = Aᵀ *ᵥ b := by
    refine normal_of_least fun y => ?_
    by_cases heq : y = x
    · rw [heq]
    · exact (h y heq).le
  refine ⟨?_, fun y => ⟨fun hy => ?_, fun hy => hy ▸ hnormal⟩⟩
  · rw [rank, LinearMap.finrank_range_of_inj hinjective, Module.finrank_fintype_fun_eq_card]
  · have hzero : Aᵀ *ᵥ (A *ᵥ (y - x)) = 0 := by
      rw [mulVec_sub, mulVec_sub, hy, hnormal, sub_self]
    have himage : (A *ᵥ (y - x)) ⬝ᵥ (A *ᵥ (y - x)) = 0 := by
      rw [dotProduct_mulVec, ← mulVec_transpose, hzero, zero_dotProduct]
    exact sub_eq_zero.mp (mulVec_injective_of_strict h (dotProduct_self_eq_zero.mp himage))

end Minimiser

end LeastSquares
