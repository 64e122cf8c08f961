/-
  LeastSquares/Proofs/Reals.lean
  ==============================
  **The real numbers as the exact carrier of the arithmetic.**

  Every real number is comparable and finite, so the tests for values that are no numbers always
  succeed and each derived operation is the one that its name suggests.  The scaled norm, which
  guards doubles against squares that are too large, is here the Euclidean length.
-/
import LeastSquares.Mat
import Mathlib.Analysis.SpecialFunctions.Log.Basic
import Mathlib.Analysis.SpecialFunctions.Trigonometric.Basic

namespace LeastSquares

noncomputable instance : Scalar ℝ where
  decidableLT := inferInstance
  decidableLE := inferInstance
  sqrt := Real.sqrt
  sin := Real.sin
  cos := Real.cos
  exp := Real.exp
  log1p := fun x => Real.log (1 + x)
  pi := Real.pi
  floorMod := fun x y => x - y * ⌊x / y⌋
  ceilNat := fun x => ⌈x⌉₊

-- a division or a decimal that is written for real numbers is that of their field
noncomputable instance divReal : Div ℝ := DivInvMonoid.toDiv
noncomputable instance decimalReal : OfScientific ℝ := NNRatCast.toOfScientific

namespace Scalar

theorem sqrt_real (x : ℝ) : Scalar.sqrt x = Real.sqrt x := rfl

theorem ofNat_real (n : ℕ) : (ofNat n : ℝ) = n := by
  rw [ofNat, NNRatCast.ofScientific_eq_ite, if_neg Bool.false_ne_true]
  simp

theorem ofInt_real (n : ℤ) : (ofInt n : ℝ) = n := by
  cases n with
  | ofNat n => exact ofNat_real n
  | negSucc n => rw [ofInt, ofNat_real, Int.cast_negSucc]

theorem isZero_real (x : ℝ) : isZero x = decide (x = 0) := by
  simp only [isZero, ← Bool.decide_and]
  exact decide_eq_decide.mpr (le_antisymm_iff (a := x) (b := 0)).symm

theorem isFinite_real (x : ℝ) : isFinite x = true := by
  simp [isFinite, isNumber]

theorem abs_real (x : ℝ) : abs x = |x| := by
  unfold abs
  split
  · next h => rw [abs_of_nonpos h, zero_sub]
  · next h => rw [abs_of_pos (lt_of_not_ge h)]

theorem maximum_real (x y : ℝ) : maximum x y = max x y := by
  unfold maximum
  split
  · next h => rw [max_eq_right h]
  · next h => rw [if_pos (le_of_not_ge h), max_eq_left (le_of_not_ge h)]

theorem largerOf_real (x y : ℝ) : largerOf x y = max x y := by
  unfold largerOf
  split
  · next h => rw [max_eq_right h.le]
  · next h => rw [max_eq_left (le_of_not_gt h)]

end Scalar

namespace Vec

theorem sum_real (xs : Vec ℝ) : sum xs = List.sum xs := by
  rw [sum, List.sum_eq_foldl]

theorem isFinite_real (xs : Vec ℝ) : Vec.isFinite xs = true := by
  simp [Vec.isFinite, Scalar.isFinite_real]

/-- The sum of the squares of the entries of a list. -/
def squares (xs : List ℝ) : ℝ := (xs.map (· ^ 2)).sum

@[simp] theorem squares_nil : squares [] = 0 := rfl

@[simp] theorem squares_cons (x : ℝ) (xs : List ℝ) : squares (x :: xs) = x ^ 2 + squares xs := by
  simp [squares]

@[simp] theorem squares_append (xs ys : List ℝ) :
    squares (xs ++ ys) = squares xs + squares ys := by
  simp [squares]

theorem squares_nonneg (xs : List ℝ) : 0 ≤ squares xs := by
  refine List.sum_nonneg fun y hy => ?_
  obtain ⟨x, _, rfl⟩ := List.mem_map.mp hy
  exact sq_nonneg x

theorem sq_le_squares {xs : List ℝ} {x : ℝ} (h : x ∈ xs) : x ^ 2 ≤ squares xs :=
  List.single_le_sum (List.forall_mem_map.mpr fun y _ => sq_nonneg y) _ (List.mem_map_of_mem h)

theorem squares_eq_zero_iff (xs : List ℝ) : squares xs = 0 ↔ ∀ x ∈ xs, x = 0 := by
  induction xs with
  | nil => simp
  | cons x xs ih =>
    have hx := sq_nonneg x
    have hxs := squares_nonneg xs
    rw [squares_cons, add_eq_zero_iff_of_nonneg hx hxs, sq_eq_zero_iff, ih]
    simp

theorem squares_map_mul (c : ℝ) (xs : List ℝ) :
    squares (xs.map (c * ·)) = c ^ 2 * squares xs := by
  induction xs with
  | nil => simp
  | cons x xs ih => rw [List.map_cons, squares_cons, squares_cons, ih]; ring

theorem normSq_real (xs : Vec ℝ) : normSq xs = squares xs := by
  rw [normSq, dot, sum_real]
  induction xs with
  | nil => rfl
  | cons x xs ih => rw [List.zipWith_cons_cons, List.sum_cons, ih, squares_cons]; ring

/-! ### The scaled norm -/

theorem maxAbs?_real {xs : Vec ℝ} {m : ℝ} (h : maxAbs? xs = some m) :
    0 ≤ m ∧ (∀ x ∈ xs, |x| ≤ m) ∧ ∃ x ∈ xs, |x| = m := by
  cases xs with
  | nil => simp [maxAbs?] at h
  | cons x xs =>
    simp only [maxAbs?, Scalar.abs_real, Scalar.maximum_real, Option.some.injEq] at h
    subst h
    -- the fold starts at a size that is attained, and only ever moves to an attained one
    have bound : ∀ (ys : List ℝ) (a : ℝ), a ≤ ys.foldl (fun m y => max m |y|) a ∧
        (∀ y ∈ ys, |y| ≤ ys.foldl (fun m y => max m |y|) a) ∧
        (ys.foldl (fun m y => max m |y|) a = a ∨
          ∃ y ∈ ys, |y| = ys.foldl (fun m y => max m |y|) a) := by
      intro ys
      induction ys with
      | nil => simp
      | cons y ys ih =>
        intro a
        obtain ⟨h1, h2, h3⟩ := ih (max a |y|)
        rw [List.foldl_cons]
        refine ⟨(le_max_left _ _).trans h1, ?_, ?_⟩
        · intro z hz
          rcases List.mem_cons.mp hz with rfl | hz
          · exact (le_max_right _ _).trans h1
          · exact h2 z hz
        · rcases h3 with h3 | ⟨z, hz, hz'⟩
          · rcases max_choice a |y| with hm | hm
            · exact Or.inl (h3.trans hm)
            · exact Or.inr ⟨y, by simp, hm.symm.trans h3.symm⟩
          · exact Or.inr ⟨z, List.mem_cons_of_mem _ hz, hz'⟩
    obtain ⟨h1, h2, h3⟩ := bound xs |x|
    refine ⟨(abs_nonneg x).trans h1, ?_, ?_⟩
    · intro z hz
      rcases List.mem_cons.mp hz with rfl | hz
      · exact h1
      · exact h2 z hz
    · rcases h3 with h3 | ⟨z, hz, hz'⟩
      · exact ⟨x, by simp, h3.symm⟩
      · exact ⟨z, List.mem_cons_of_mem _ hz, hz'⟩

theorem scaledNorm_real (xs : Vec ℝ) : scaledNorm xs = Real.sqrt (squares xs) := by
  unfold scaledNorm
  cases hm : maxAbs? xs with
  | none =>
    cases xs with
    | nil => simp
    | cons x xs => simp [maxAbs?] at hm
  | some unit =>
    obtain ⟨hnonneg, hbound, -⟩ := maxAbs?_real hm
    simp only [Scalar.isZero_real, Scalar.isFinite_real, Bool.not_true, Bool.or_false,
      decide_eq_true_eq]
    by_cases hzero : unit = 0
    · have hall : ∀ x ∈ xs, x = 0 := by
        intro x hx
        have := hbound x hx
        rw [hzero] at this
        exact abs_nonpos_iff.mp this
      rw [if_pos hzero, hzero, (squares_eq_zero_iff xs).mpr hall, Real.sqrt_zero]
    · rw [if_neg hzero, norm, normSq_real, Scalar.sqrt_real]
      have hdiv : xs.map (· / unit) = xs.map (unit⁻¹ * ·) :=
        List.map_congr_left fun x _ => by rw [div_eq_inv_mul]
      rw [hdiv, squares_map_mul, Real.sqrt_mul (sq_nonneg _), Real.sqrt_sq (inv_nonneg.mpr hnonneg),
        ← mul_assoc, mul_inv_cancel₀ hzero, one_mul]

end Vec

end LeastSquares
