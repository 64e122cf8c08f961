/-
  LeastSquares/Proofs/QuadraticPolynomials.lean
  =============================================
  **Polynomials along one of their variables.**

  Where a variable occurs at most squared, moving it changes the value of a polynomial by the step times the
  partial derivative and by half the square of the step times the second one.  The partial derivatives are
  the entries of the gradient, also in some of the variables only, with the others held at fixed values.
-/
import LeastSquares.Proofs.FrechetDerivatives
import Mathlib.Algebra.MvPolynomial.PDeriv
import Mathlib.Analysis.Calculus.FDeriv.Mul

namespace LeastSquares

open MvPolynomial

variable {σ : Type}

/-! ### Moving one variable -/

/-- A monomial is a power of one variable times what the other variables contribute. -/
theorem eval_monomial_eq (j : σ) (s : σ →₀ ℕ) (a : ℝ) (x : σ → ℝ) :
    eval x (monomial s a) = a * (x j ^ s j * (s.erase j).prod fun i k => x i ^ k) := by
  rw [eval_monomial, Finsupp.mul_prod_erase' s j (fun i k => x i ^ k) fun i => pow_zero (x i)]

section Update

variable [DecidableEq σ]

theorem prod_erase_update (j : σ) (s : σ →₀ ℕ) (x : σ → ℝ) (v : ℝ) :
    ((s.erase j).prod fun i k => Function.update x j v i ^ k) = (s.erase j).prod fun i k => x i ^ k := by
  refine Finsupp.prod_congr fun i hi => ?_
  rw [Finsupp.support_erase, Finset.mem_erase] at hi
  rw [Function.update_of_ne hi.1]

theorem eval_update_add_monomial {j : σ} {s : σ →₀ ℕ} (hs : s j ≤ 2) (a : ℝ) (x : σ → ℝ) (t : ℝ) :
    eval (Function.update x j (x j + t)) (monomial s a) =
      eval x (monomial s a) + t * eval x (pderiv j (monomial s a)) +
        t ^ 2 / 2 * eval x (pderiv j (pderiv j (monomial s a))) := by
  have herase : ∀ s : σ →₀ ℕ, (s - Finsupp.single j 1).erase j = s.erase j := fun s => by
    ext i
    by_cases hi : i = j <;> simp [hi]
  simp only [pderiv_monomial, eval_monomial_eq j, prod_erase_update, herase, Function.update_self,
    Finsupp.tsub_apply, Finsupp.single_eq_same]
  interval_cases s j <;> push_cast <;> ring

/-- **A polynomial in which a variable occurs at most squared, along this variable.** -/
theorem eval_update_add {p : MvPolynomial σ ℝ} {j : σ} (h : p.degreeOf j ≤ 2) (x : σ → ℝ) (t : ℝ) :
    eval (Function.update x j (x j + t)) p =
      eval x p + t * eval x (pderiv j p) + t ^ 2 / 2 * eval x (pderiv j (pderiv j p)) := by
  rw [p.as_sum]
  simp only [map_sum, Finset.mul_sum, ← Finset.sum_add_distrib]
  exact Finset.sum_congr rfl fun s hs =>
    eval_update_add_monomial ((monomial_le_degreeOf j hs).trans h) _ x t

end Update

/-- The second partial derivatives of a polynomial of degree one are zero. -/
theorem eval_pderiv_pderiv_eq_zero {p : MvPolynomial σ ℝ} (h : p.totalDegree ≤ 1) (j : σ) (x : σ → ℝ) :
    eval x (pderiv j (pderiv j p)) = 0 := by
  rw [p.as_sum]
  simp only [map_sum]
  refine Finset.sum_eq_zero fun s hs => ?_
  have hs : s j ≤ 1 :=
    (monomial_le_degreeOf j hs).trans ((degreeOf_le_totalDegree p j).trans h)
  rw [pderiv_monomial, pderiv_monomial, Finsupp.tsub_apply, Finsupp.single_eq_same,
    Nat.sub_eq_zero_of_le hs, Nat.cast_zero, mul_zero, monomial_zero, map_zero]

/-! ### Some of the variables -/

section Extend

variable {n : ℕ} {place : Fin n → σ}

theorem hasFDerivAt_extend (hplace : place.Injective) (base : σ → ℝ) (i : σ) (y : Fin n → ℝ) :
    HasFDerivAt (fun u => Function.extend place u base i)
      (gradientForm fun j => eval (Function.extend place y base) (pderiv (place j) (X i))) y := by
  classical
  by_cases hi : ∃ j, place j = i
  · obtain ⟨j, rfl⟩ := hi
    simp only [hplace.extend_apply]
    have hrow : (fun k => eval (Function.extend place y base) (pderiv (place k) (X (place j)))) =
        (1 : Matrix (Fin n) (Fin n) ℝ) j := by
      ext k
      by_cases hk : k = j
      · subst hk
        simp
      · simp [pderiv_X_of_ne fun h => hk (hplace h).symm, Matrix.one_apply_ne' hk]
    rw [hrow, gradientForm_one]
    exact hasFDerivAt_apply j y
  · have hrow : (fun k => eval (Function.extend place y base) (pderiv (place k) (X i))) =
        (0 : Fin n → ℝ) := by
      ext k
      simp [pderiv_X_of_ne fun h => hi ⟨k, h.symm⟩]
    simp only [Function.extend_apply' _ _ _ hi, hrow, gradientForm_zero]
    exact hasFDerivAt_const (base i) y

/-- **The partial derivatives are the gradient**, in the variables that move, with the others held. -/
theorem hasFDerivAt_eval (hplace : place.Injective) (base : σ → ℝ) (p : MvPolynomial σ ℝ)
    (y : Fin n → ℝ) :
    HasFDerivAt (fun u => eval (Function.extend place u base) p)
      (gradientForm fun j => eval (Function.extend place y base) (pderiv (place j) p)) y := by
  induction p using MvPolynomial.induction_on with
  | C a =>
    simp only [eval_C, pderiv_C, map_zero]
    rw [← Pi.zero_def, gradientForm_zero]
    exact hasFDerivAt_const a y
  | add p q hp hq =>
    simp only [map_add]
    refine (hp.add hq).congr_fderiv ?_
    ext v
    simp [gradientForm_apply, add_mul, Finset.sum_add_distrib]
  | mul_X p i hp =>
    simp only [map_mul, eval_X]
    refine (hp.mul (hasFDerivAt_extend hplace base i y)).congr_fderiv ?_
    ext v
    simp only [gradientForm_apply, Derivation.leibniz, map_add, smul_eq_mul, map_mul, eval_X, add_apply,
      smul_apply, Finset.mul_sum, ← Finset.sum_add_distrib]
    exact Finset.sum_congr rfl fun j _ => by ring

theorem extend_update [DecidableEq σ] (hplace : place.Injective) (base : σ → ℝ) (u : Fin n → ℝ) (j : Fin n)
    (v : ℝ) : Function.extend place (Function.update u j v) base =
      Function.update (Function.extend place u base) (place j) v := by
  funext c
  by_cases hc : ∃ k, place k = c
  · obtain ⟨k, rfl⟩ := hc
    rw [hplace.extend_apply]
    by_cases hk : k = j
    · rw [hk, Function.update_self, Function.update_self]
    · rw [Function.update_of_ne hk, Function.update_of_ne (hplace.ne hk), hplace.extend_apply]
  · have hne : c ≠ place j := fun h => hc ⟨j, h.symm⟩
    rw [Function.extend_apply' _ _ _ hc, Function.update_of_ne hne, Function.extend_apply' _ _ _ hc]

/-- A polynomial of degree two when one of the variables that move does. -/
theorem eval_extend_update (hplace : place.Injective) (base : σ → ℝ) (y : Fin n → ℝ) {p : MvPolynomial σ ℝ}
    (hp : p.totalDegree ≤ 2) (j : Fin n) (t : ℝ) :
    eval (Function.extend place (Function.update y j (y j + t)) base) p =
      eval (Function.extend place y base) p + t * eval (Function.extend place y base) (pderiv (place j) p) +
        t ^ 2 / 2 * eval (Function.extend place y base) (pderiv (place j) (pderiv (place j) p)) := by
  classical
  have hstart : y j = Function.extend place y base (place j) := (hplace.extend_apply y base j).symm
  rw [extend_update hplace, hstart, eval_update_add ((degreeOf_le_totalDegree p (place j)).trans hp)]

end Extend

end LeastSquares
