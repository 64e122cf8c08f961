/-
  LeastSquares/Proofs/ConjugateGradients.lean
  ===========================================
  **What the conjugate gradient iteration keeps is the residual of what it has found.**

  The residual is not computed anew in a step, it is carried along; but it stays the difference of the
  right-hand side and the product with what has been found, whatever direction a step takes and however
  long it is.  So when the iteration reports that it has converged, the residual that it has tested is the
  true one.  The preconditioner and the divisions, be they by zero, only choose directions and lengths.
-/
import LeastSquares.Linear.ConjugateGradient
import LeastSquares.Proofs.Coordinates

namespace LeastSquares

open Vec Matrix

/-! ### Products with stored entries -/

namespace Sparse

theorem mulVec_eq (A : Sparse ℝ) (xs : Vec ℝ) : A.mulVec xs = A.rows.map (SparseRow.form · xs.entry) := by
  refine List.map_congr_left fun row _ => ?_
  rw [SparseRow.dot, Vec.sum_real, SparseRow.form]
  refine congrArg List.sum (List.map_congr_left fun e _ => ?_)
  simp [entry, List.getD_eq_getElem?_getD, Array.getD_eq_getD_getElem?]

/-- Multiplying with the stored product is multiplying with the product of matrices. -/
theorem mulVec_gram {A : Sparse ℝ} (h : ∀ row ∈ A.rows, SparseRow.IsWithin A.width row)
    (y : Fin A.width → ℝ) :
    A.gram.mulVec (List.ofFn y) = List.ofFn ((A.toMatrixᵀ * A.toMatrix) *ᵥ y) := by
  have hrows : (fun r : Fin A.rows.length => entry (A.rows.map (SparseRow.form · (entry (List.ofFn y)))) r) =
      A.toMatrix *ᵥ y := by
    funext r
    have hrow := h _ (List.getElem_mem r.isLt)
    have hvalue := SparseRow.form_eq_sum hrow.1 hrow.2 (entry (List.ofFn y))
    simp only [entry_ofFn] at hvalue
    have hentry : entry (A.rows.map (SparseRow.form · (entry (List.ofFn y)))) r =
        SparseRow.form A.rows[r] (entry (List.ofFn y)) := by
      simp [entry, List.getD_eq_getElem?_getD]
    exact hentry.trans hvalue
  rw [mulVec_eq, (gram_spec h).2, transposeMulVec_eq h (by simp), hrows, mulVec_mulVec]

end Sparse

/-! ### The iteration -/

/-- The state of an iteration for a matrix and a right-hand side: what has been found, its residual, and a
    last direction, if there is one, of the same length. -/
def GradientState.Follows {n : ℕ} (H : Matrix (Fin n) (Fin n) ℝ) (b : Fin n → ℝ) (s : GradientState ℝ) :
    Prop :=
  ∃ x, s.solution = List.ofFn x ∧ s.residual = List.ofFn (b - H *ᵥ x) ∧
    ∀ direction rho, s.last = some (direction, rho) → ∃ d : Fin n → ℝ, direction = List.ofFn d

namespace ConjugateGradient

variable {n : ℕ} {H : Matrix (Fin n) (Fin n) ℝ} {b : Fin n → ℝ} {apply precondition : Vec ℝ → Vec ℝ}
  (happly : ∀ y : Fin n → ℝ, apply (List.ofFn y) = List.ofFn (H *ᵥ y))
  (hprecondition : ∀ y : Fin n → ℝ, ∃ z : Fin n → ℝ, precondition (List.ofFn y) = List.ofFn z)

include happly hprecondition

/-- **A step** moves what has been found and its residual together. -/
theorem step_follows {s : GradientState ℝ} (h : s.Follows H b) :
    (step apply precondition s).Follows H b := by
  obtain ⟨x, hsolution, hresidual, hlast⟩ := h
  obtain ⟨z, hz⟩ := hprecondition (b - H *ᵥ x)
  -- wherever the direction comes from, it is a vector of the same length
  have hmove : ∀ (direction : Vec ℝ) (rho length : ℝ), (∃ d : Fin n → ℝ, direction = List.ofFn d) →
      GradientState.Follows H b ⟨Vec.add s.solution (Vec.scale length direction),
        Vec.sub s.residual (Vec.scale length (apply direction)), some (direction, rho)⟩ := by
    rintro _ rho length ⟨d, rfl⟩
    refine ⟨x + length • d, ?_, ?_, ?_⟩
    · rw [hsolution, scale_ofFn, add_ofFn]
    · rw [hresidual, happly, scale_ofFn (H *ᵥ d), sub_ofFn, mulVec_add, mulVec_smul, sub_sub]
    · rintro _ _ ⟨⟩
      exact ⟨d, rfl⟩
  unfold step
  apply hmove
  rw [hresidual, hz]
  split
  · exact ⟨z, rfl⟩
  · next p previous hsome =>
    obtain ⟨d, rfl⟩ := hlast _ _ hsome
    exact ⟨_, by rw [scale_ofFn, add_ofFn]⟩

/-- **A run** finds a vector, and where it reports that it has converged, its residual is shorter than the
    tolerance. -/
theorem iterate_spec (tolerance : ℝ) (left taken : ℕ) {s : GradientState ℝ} (h : s.Follows H b) :
    ∃ x : Fin n → ℝ, (iterate apply precondition tolerance left taken s).solution = List.ofFn x ∧
      ((iterate apply precondition tolerance left taken s).converged = true →
        √((b - H *ᵥ x) ⬝ᵥ (b - H *ᵥ x)) < tolerance) := by
  induction left generalizing taken s with
  | zero =>
    obtain ⟨x, hsolution, -⟩ := h
    exact ⟨x, hsolution, fun hconverged => by cases hconverged⟩
  | succ left ih =>
    rw [iterate]
    split
    · next hshort =>
      obtain ⟨x, hsolution, hresidual, -⟩ := h
      rw [hresidual, norm_ofFn] at hshort
      exact ⟨x, hsolution, fun _ => hshort⟩
    · exact ih (taken + 1) (step_follows happly hprecondition h)

/-- **What is found when the iteration converges** solves the system exactly where the right-hand side is
    zero, and else up to the tolerance. -/
theorem solve_spec (absolute relative : ℝ) (maxIterations : ℕ) :
    ∃ x : Fin n → ℝ,
      (solve apply precondition (List.ofFn b) absolute relative maxIterations).solution = List.ofFn x ∧
      ((solve apply precondition (List.ofFn b) absolute relative maxIterations).converged = true →
        (b = 0 → H *ᵥ x = 0) ∧
        (b ≠ 0 → √((b - H *ᵥ x) ⬝ᵥ (b - H *ᵥ x)) < max absolute (relative * √(b ⬝ᵥ b)))) := by
  have hzero := sqrt_dotProduct_self_eq_zero b
  simp only [solve, norm_ofFn, Scalar.isZero_real, decide_eq_true_eq, Scalar.largerOf_real]
  split
  · next hsize =>
    obtain rfl := hzero.mp hsize
    exact ⟨0, rfl, fun _ => ⟨fun _ => mulVec_zero H, fun hne => absurd rfl hne⟩⟩
  · next hsize =>
    have hstart : GradientState.Follows H b ⟨Vec.zeros (List.ofFn b).length, List.ofFn b, none⟩ := by
      refine ⟨0, ?_, ?_, fun _ _ hnone => by cases hnone⟩
      · rw [List.length_ofFn, zeros_eq_ofFn]
      · rw [mulVec_zero, sub_zero]
    obtain ⟨x, hsolution, hshort⟩ := iterate_spec happly hprecondition
      (max absolute (relative * √(b ⬝ᵥ b))) maxIterations 0 hstart
    exact ⟨x, hsolution, fun hconverged =>
      ⟨fun hb => absurd (hzero.mpr hb) hsize, fun _ => hshort hconverged⟩⟩

end ConjugateGradient

end LeastSquares
