/-
  LeastSquares/Proofs/FrechetDerivatives.lean
  ===========================================
  **When a matrix is the derivative of a function of vectors.**

  A function of vectors of one length that always returns vectors of one length is a function between real
  spaces.  A matrix is its derivative when the linear map that the matrix stands for is its Fréchet
  derivative there.  It is found row by row, each row the gradient of one component, and there is only one.
-/
import LeastSquares.Proofs.Coordinates
import Mathlib.Analysis.Calculus.FDeriv.Prod
import Mathlib.Analysis.RCLike.Lemmas
import Mathlib.Analysis.SpecialFunctions.Sqrt
import Mathlib.Topology.Algebra.Module.FiniteDimension

namespace LeastSquares

/-! ### Derivatives -/

namespace Mat

/-- **A matrix is the derivative of a function at a vector**: the function takes all vectors of this length
    to vectors of one length, and the matrix stands for its Fréchet derivative. -/
def IsDerivativeAt (J : Mat ℝ) (f : Vec ℝ → Except Error (Tensor ℝ)) (x : Vec ℝ) : Prop :=
  ∃ (m n : ℕ) (g : (Fin n → ℝ) → Fin m → ℝ) (y : Fin n → ℝ) (A : Matrix (Fin m) (Fin n) ℝ),
    J = .ofMatrix A ∧ x = List.ofFn y ∧
      (∀ u, f (List.ofFn u) = .ok (.ofVector (List.ofFn (g u)))) ∧
      HasFDerivAt g (Matrix.toLin' A).toContinuousLinearMap y

/-- There is only one derivative. -/
theorem IsDerivativeAt.unique {J K : Mat ℝ} {f : Vec ℝ → Except Error (Tensor ℝ)} {x : Vec ℝ}
    (hJ : J.IsDerivativeAt f x) (hK : K.IsDerivativeAt f x) : J = K := by
  obtain ⟨m, n, g, y, A, rfl, rfl, hg, hA⟩ := hJ
  obtain ⟨m', n', g', y', B, rfl, hy, hg', hB⟩ := hK
  obtain rfl : n = n' := by simpa using congrArg List.length hy
  obtain rfl : y = y' := List.ofFn_injective hy
  have hvalues : ∀ u, List.ofFn (g u) = List.ofFn (g' u) := fun u => by
    have h := (hg u).symm.trans (hg' u)
    rw [Except.ok.injEq] at h
    exact congrArg Tensor.data h
  obtain rfl : m = m' := by simpa using congrArg List.length (hvalues y)
  obtain rfl : g = g' := funext fun u => List.ofFn_injective (hvalues u)
  have hsame := LinearMap.toContinuousLinearMap.injective (hA.unique hB)
  rw [Matrix.toLin'.injective hsame]

end Mat

/-! ### Gradients -/

/-- The linear form with given coefficients. -/
noncomputable def gradientForm {n : ℕ} (a : Fin n → ℝ) : (Fin n → ℝ) →L[ℝ] ℝ :=
  ∑ j, a j • ContinuousLinearMap.proj j

theorem gradientForm_apply {n : ℕ} (a v : Fin n → ℝ) : gradientForm a v = ∑ j, a j * v j := by
  simp [gradientForm]

theorem gradientForm_zero {n : ℕ} : gradientForm (0 : Fin n → ℝ) = 0 := by
  ext v
  simp [gradientForm_apply]

theorem gradientForm_one {n : ℕ} (i : Fin n) :
    gradientForm ((1 : Matrix (Fin n) (Fin n) ℝ) i) = ContinuousLinearMap.proj i := by
  ext v
  simp [gradientForm_apply, Matrix.one_apply]

theorem gradientForm_neg {n : ℕ} (a : Fin n → ℝ) : gradientForm (-a) = -gradientForm a := by
  ext v
  simp [gradientForm_apply]

/-- A derivative is found row by row. -/
theorem hasFDerivAt_of_rows {m n : ℕ} {g : (Fin n → ℝ) → Fin m → ℝ} {y : Fin n → ℝ}
    {A : Matrix (Fin m) (Fin n) ℝ} (h : ∀ i, HasFDerivAt (fun u => g u i) (gradientForm (A i)) y) :
    HasFDerivAt g (Matrix.toLin' A).toContinuousLinearMap y := by
  refine hasFDerivAt_pi'' fun i => ?_
  have hrow : (ContinuousLinearMap.proj i).comp (Matrix.toLin' A).toContinuousLinearMap =
      gradientForm (A i) := by
    ext v
    simp [gradientForm_apply, Matrix.mulVec, dotProduct]
  rw [hrow]
  exact h i

/-- The gradient of the distance from a fixed point is the unit vector that points away from it. -/
theorem hasFDerivAt_distance {n : ℕ} {c y : Fin n → ℝ} (h : ∑ j, (y j - c j) ^ 2 ≠ 0) :
    HasFDerivAt (fun u : Fin n → ℝ => Real.sqrt (∑ j, (u j - c j) ^ 2))
      (gradientForm fun j => (y j - c j) / Real.sqrt (∑ j, (y j - c j) ^ 2)) y := by
  have hsquare : ∀ j, HasFDerivAt (fun u : Fin n → ℝ => (u j - c j) ^ 2)
      ((2 * (y j - c j)) • ContinuousLinearMap.proj (R := ℝ) (φ := fun _ : Fin n => ℝ) j) y := by
    intro j
    have hcoordinate := (hasFDerivAt_apply (𝕜 := ℝ) j y).sub_const (c j)
    simpa using hcoordinate.pow 2
  have hsum := (HasFDerivAt.fun_sum fun j (_ : j ∈ Finset.univ) => hsquare j).sqrt h
  refine hsum.congr_fderiv ?_
  have hroot : Real.sqrt (∑ j, (y j - c j) ^ 2) ≠ 0 := fun hzero => h
    ((Real.sqrt_eq_zero (Finset.sum_nonneg fun j _ => sq_nonneg (y j - c j))).mp hzero)
  ext v
  simp only [gradientForm_apply, smul_apply, sum_apply,
    ContinuousLinearMap.proj_apply, smul_eq_mul, Finset.mul_sum]
  refine Finset.sum_congr rfl fun j _ => ?_
  field_simp

end LeastSquares
