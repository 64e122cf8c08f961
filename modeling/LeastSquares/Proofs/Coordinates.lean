/-
  LeastSquares/Proofs/Coordinates.lean
  ====================================
  **Vectors and matrices by their entries.**

  A vector is the list of the values of a function of places, and the operations on lists are those on
  functions: sums, differences, multiples, norms and steps in one place.
-/
import LeastSquares.Proofs.NormalMatrices

namespace LeastSquares

open Vec Matrix

/-! ### Vectors -/

namespace Vec

theorem eq_ofFn (xs : Vec ℝ) : ∃ (n : ℕ) (v : Fin n → ℝ), xs = List.ofFn v :=
  ⟨xs.length, xs.get, (List.ofFn_get xs).symm⟩

theorem exists_ofFn {xs : Vec ℝ} {n : ℕ} (h : xs.length = n) : ∃ v : Fin n → ℝ, xs = List.ofFn v := by
  subst h
  exact ⟨xs.get, (List.ofFn_get xs).symm⟩

variable {n : ℕ} (x y : Fin n → ℝ)

theorem zipWith_ofFn (f : ℝ → ℝ → ℝ) :
    List.zipWith f (List.ofFn x) (List.ofFn y) = List.ofFn fun i => f (x i) (y i) :=
  List.ext_getElem (by simp) fun i hi hi' => by simp

theorem add_ofFn : Vec.add (List.ofFn x) (List.ofFn y) = List.ofFn (x + y) := zipWith_ofFn x y _

theorem sub_ofFn : Vec.sub (List.ofFn x) (List.ofFn y) = List.ofFn (x - y) := zipWith_ofFn x y _

theorem combine_sub_ofFn : combine (· - ·) (List.ofFn x) (List.ofFn y) = .ok (List.ofFn (x - y)) := by
  rw [combine_of_length_eq _ _ _ (by simp)]
  exact congrArg Except.ok (sub_ofFn x y)

theorem scale_ofFn (c : ℝ) : Vec.scale c (List.ofFn x) = List.ofFn (c • x) := List.map_ofFn ..

theorem entry_ofFn (i : Fin n) : entry (List.ofFn x) i = x i := by
  simp [entry, List.getD_eq_getElem?_getD]

theorem zeros_eq_ofFn : (Vec.zeros n : Vec ℝ) = List.ofFn (0 : Fin n → ℝ) :=
  (List.ofFn_const n 0).symm

theorem addAt_ofFn (j : Fin n) (h : ℝ) :
    addAt (List.ofFn x) j h = List.ofFn (Function.update x j (x j + h)) := by
  refine List.ext_getElem (by simp [addAt]) fun i hi hi' => ?_
  rw [List.length_ofFn] at hi'
  simp only [addAt, List.getElem_modify, List.getElem_ofFn]
  by_cases hij : (j : ℕ) = i
  · have hplace : (⟨i, hi'⟩ : Fin n) = j := Fin.ext hij.symm
    rw [if_pos hij, hplace, Function.update_self]
  · have hplace : (⟨i, hi'⟩ : Fin n) ≠ j := fun h => hij (congrArg Fin.val h).symm
    rw [if_neg hij, Function.update_of_ne hplace]

/-- The norm of a vector is its Euclidean length. -/
theorem norm_ofFn : Vec.norm (List.ofFn x) = √(x ⬝ᵥ x) := by
  rw [norm, Scalar.sqrt_real, normSq, dot_eq_sum List.length_ofFn List.length_ofFn]
  simp only [entry_ofFn]
  rfl

theorem norm_eq_sqrt_sum : Vec.norm (List.ofFn x) = √(∑ i, x i ^ 2) := by
  simp only [norm_ofFn, dotProduct, sq]

theorem sqrt_dotProduct_self_eq_zero : √(x ⬝ᵥ x) = 0 ↔ x = 0 := by
  have hnonneg : 0 ≤ x ⬝ᵥ x := Finset.sum_nonneg fun i _ => mul_self_nonneg _
  rw [Real.sqrt_eq_zero hnonneg, dotProduct_self_eq_zero]

end Vec

/-! ### Matrices -/

namespace Mat

theorem identity_eq (n : ℕ) : (identity n : Mat ℝ) = .ofMatrix (1 : Matrix (Fin n) (Fin n) ℝ) := by
  refine congrArg (Mat.mk n) (List.ext_getElem (by simp) fun i hi hi' => ?_)
  rw [List.getElem_map, List.getElem_range, List.getElem_ofFn]
  refine List.ext_getElem (by simp) fun j hj hj' => ?_
  simp [Matrix.one_apply]

theorem neg_ofMatrix {m n : ℕ} (A : Matrix (Fin m) (Fin n) ℝ) : (ofMatrix A).neg = .ofMatrix (-A) := by
  simp only [neg, map, ofMatrix, List.map_ofFn, Function.comp_def]
  rfl

end Mat

end LeastSquares
