/-
  LeastSquares/Proofs/Gradients.lean
  ==================================
  **The gradient of a linear problem decides whether moving nothing is best.**

  The product with the transposed matrix is adjoint to the rows: applied to unknowns it weighs the
  value of each row by its component.  So where the gradient is zero the values of the rows are
  orthogonal to the right-hand side, and every step misses by the squares of these values more
  than the step that moves nothing.
-/
import LeastSquares.Proofs.ArrayFactors
import LeastSquares.Proofs.DampedProblems

namespace LeastSquares

open Vec

/-! ### Products with the transposed matrix -/

namespace Vec

@[simp] theorem length_addAt (xs : Vec ℝ) (place : ℕ) (h : ℝ) :
    (addAt xs place h).length = xs.length := List.length_modify _ _ _

theorem form_addAt {xs : Vec ℝ} {place : ℕ} (hplace : place < xs.length) (h : ℝ) (v : ℕ → ℝ) :
    form (addAt xs place h) v = form xs v + h * v place := by
  induction xs generalizing place v with
  | nil => exact absurd hplace (Nat.not_lt_zero _)
  | cons x xs ih =>
    cases place with
    | zero =>
      have hhead : addAt (x :: xs) 0 h = (x + h) :: xs := rfl
      rw [hhead, form_cons, form_cons]
      ring
    | succ place =>
      have htail : addAt (x :: xs) (place + 1) h = x :: addAt xs place h := rfl
      rw [htail, form_cons, form_cons, ih (Nat.lt_of_succ_lt_succ hplace)]
      ring

/-- What is missed at zero, and what the values of the rows add to it. -/
theorem squares_sub {xs ys : Vec ℝ} (h : xs.length = ys.length) :
    squares (Vec.sub xs ys) = squares xs - 2 * dot xs ys + squares ys := by
  induction xs generalizing ys with
  | nil =>
    obtain rfl := List.length_eq_zero_iff.mp h.symm
    simp [Vec.sub, dot, sum]
  | cons x xs ih =>
    obtain _ | ⟨y, ys⟩ := ys
    · cases h
    have hrest := ih (Nat.succ.inj h)
    simp only [Vec.sub, dot, sum_real, List.zipWith_cons_cons, List.sum_cons, squares_cons] at hrest ⊢
    rw [hrest]
    ring

end Vec

namespace Sparse

/-- Add a multiple of a row to a vector. -/
def addRow {α : Type} [Scalar α] (acc : Vec α) (entry : SparseRow α × α) : Vec α :=
  entry.1.foldl (fun acc e => Vec.addAt acc e.1 (e.2 * entry.2)) acc

theorem addRow_spec {acc : Vec ℝ} {entry : SparseRow ℝ × ℝ} (h : ∀ e ∈ entry.1, e.1 < acc.length) :
    (addRow acc entry).length = acc.length ∧
      ∀ v, Vec.form (addRow acc entry) v = Vec.form acc v + entry.1.form v * entry.2 := by
  obtain ⟨row, y⟩ := entry
  unfold addRow
  induction row generalizing acc with
  | nil => simp [SparseRow.form]
  | cons e row ih =>
    obtain ⟨he, hrow⟩ := List.forall_mem_cons.mp h
    have hrest : ∀ e' ∈ row, e'.1 < (Vec.addAt acc e.1 (e.2 * y)).length := by
      simpa only [Vec.length_addAt] using hrow
    obtain ⟨hlength, hform⟩ := ih hrest
    rw [List.foldl_cons]
    refine ⟨hlength.trans (Vec.length_addAt _ _ _), fun v => ?_⟩
    rw [hform, Vec.form_addAt he]
    simp only [SparseRow.form, List.map_cons, List.sum_cons]
    ring

/-- **The transposed matrix is adjoint to the rows.** -/
theorem transposeMulVec_spec {A : Sparse ℝ} (h : ∀ row ∈ A.rows, ∀ e ∈ row, e.1 < A.width) (y : Vec ℝ) :
    (A.transposeMulVec y).length = A.width ∧
      ∀ v, Vec.form (A.transposeMulVec y) v = dot (A.rows.map (SparseRow.form · v)) y := by
  have hfold : ∀ (entries : List (SparseRow ℝ × ℝ)) (acc : Vec ℝ),
      (∀ entry ∈ entries, ∀ e ∈ entry.1, e.1 < acc.length) →
      (entries.foldl addRow acc).length = acc.length ∧
      ∀ v, Vec.form (entries.foldl addRow acc) v =
        Vec.form acc v + (entries.map fun entry => entry.1.form v * entry.2).sum := by
    intro entries
    induction entries with
    | nil => simp
    | cons entry entries ih =>
      intro acc hentries
      obtain ⟨hentry, hrest⟩ := List.forall_mem_cons.mp hentries
      obtain ⟨hlength, hvalue⟩ := addRow_spec hentry
      obtain ⟨hcount, hform⟩ := ih (addRow acc entry) (by simpa only [hlength] using hrest)
      refine ⟨hcount.trans hlength, fun v => ?_⟩
      rw [List.foldl_cons, hform, hvalue, List.map_cons, List.sum_cons, add_assoc]
  have hbounds : ∀ entry ∈ A.rows.zip y, ∀ e ∈ entry.1, e.1 < (Vec.zeros A.width : Vec ℝ).length := by
    intro entry hentry e he
    rw [Vec.zeros, List.length_replicate]
    exact h _ (List.of_mem_zip hentry).1 e he
  obtain ⟨hlength, hform⟩ := hfold _ _ hbounds
  refine ⟨hlength.trans List.length_replicate, fun v => ?_⟩
  have hsum := hform v
  rw [Vec.zeros, Vec.form_replicate_zero, zero_add] at hsum
  rw [dot, sum_real, List.zipWith_map_left, ← List.map_uncurry_zip_eq_zipWith]
  exact hsum

end Sparse

/-! ### Stationary problems -/

namespace LinearGraph

variable {g : LinearGraph ℝ} {keys : List Key} {dims : Table ℕ}

theorem stackedRhs_of_fits (hfits : ∀ f ∈ g.factors, f.Fits dims) :
    g.stackedRhs = .ok (.ofVector g.rhs) := by
  have harrays : g.factors.map (·.rhsArray) =
      (g.factors.map fun f => f.rhsArray.data).map Tensor.ofVector := by
    rw [List.map_map]
    refine List.map_congr_left fun f hf => ?_
    cases f with
    | dense blocks rhs => rfl
    | arrays blocks rhs => exact (hfits _ hf).elim
  rw [stackedRhs, harrays, Tensor.concatenate_ofVector, rhs, List.flatMap_def]

theorem normal_eq_ok (hfits : ∀ f ∈ g.factors, f.Fits dims) {A : Sparse ℝ}
    (hA : g.stackedMatrix keys dims = .ok A) :
    g.normal keys dims = .ok (A.gram, .ofVector (A.transposeMulVec g.rhs)) := by
  simp only [normal, stacked, hA, stackedRhs_of_fits hfits, bind, Except.bind, pure, Except.pure,
    Sparse.transposeMul, Tensor.ofVector]

/-- The gradient of a linear problem, at the step that moves nothing, is zero; the right-hand side
    of a factor of arrays counts as the vector that is written over its rows. -/
def IsStationary (g : LinearGraph ℝ) (keys : List Key) (dims : Table ℕ) : Prop :=
  ∃ matrix gradient, g.flat.normal keys dims = .ok (matrix, gradient) ∧ ∀ x ∈ gradient.data, x = 0

/-- **Where the gradient is zero, no step misses less** than the one that moves nothing. -/
theorem misfit_zero_le (hg : g.Accords keys dims) {matrix : Sparse ℝ} {gradient : Tensor ℝ}
    (hnormal : g.normal keys dims = .ok (matrix, gradient)) (hzero : ∀ x ∈ gradient.data, x = 0)
    (x : Assignment) : g.misfit 0 ≤ g.misfit x := by
  obtain ⟨A, hA, -, hheight, hrows, hmissed⟩ := stackedMatrix_spec hg
  have hgradient : gradient = .ofVector (A.transposeMulVec g.rhs) := by
    rw [normal_eq_ok hg.fits hA] at hnormal
    cases hnormal
    rfl
  have hsplit : ∀ y : Assignment, g.misfit y =
      squares (A.rows.map (SparseRow.form · (y.along dims keys))) + squares g.rhs := by
    intro y
    have horthogonal : dot (A.rows.map (SparseRow.form · (y.along dims keys))) g.rhs = 0 := by
      rw [← (Sparse.transposeMulVec_spec (fun row hrow => (hrows row hrow).2) _).2]
      refine Vec.form_eq_zero (fun a ha => hzero a ?_) _
      rwa [hgradient]
    have hlength : (A.rows.map (SparseRow.form · (y.along dims keys))).length = g.rhs.length := by
      rw [List.length_map, hheight]
    rw [← squares_missed, ← hmissed, squares_sub hlength, horthogonal, mul_zero, sub_zero]
  have hstill : squares (A.rows.map (SparseRow.form · (Assignment.along dims 0 keys))) = 0 := by
    refine (squares_eq_zero_iff _).mpr (List.forall_mem_map.mpr fun row _ => ?_)
    simp [SparseRow.form, Assignment.along_zero]
  rw [hsplit, hsplit, hstill]
  exact add_le_add_left (squares_nonneg _) _

theorem IsStationary.misfit_le (h : g.IsStationary keys dims) (hg : g.Formed keys dims)
    (x : Assignment) : g.flat.misfit 0 ≤ g.flat.misfit x := by
  obtain ⟨matrix, gradient, hnormal, hzero⟩ := h
  exact misfit_zero_le hg.accords_flat hnormal hzero x

/-- Damping adds matrices only. -/
theorem flat_damped (g : LinearGraph ℝ) (damping : ℝ) (dims : Table ℕ) :
    (g.damped damping dims).flat = g.flat.damped damping dims := by
  simp only [flat, LinearGraph.damped, List.map_append, List.map_map]
  rfl

/-- **A solution moves nothing** where moving nothing misses least. -/
theorem IsSolvedBy.assignment_eq_zero {d : Delta ℝ} (h : g.IsSolvedBy keys dims d)
    (hg : g.Accords keys dims) (hleast : ∀ x, g.misfit 0 ≤ g.misfit x) {key : Key} (hkey : key ∈ keys)
    {j : ℕ} (hj : j < dims.dimOf key) : d.assignment key j = 0 := by
  obtain ⟨still, hstill, hzero⟩ := Delta.exists_lists dims hg.nodup 0
  have hsame : still = d := by
    by_contra hne
    have hlt := h.misfit_lt hg hstill hne
    rw [misfit_congr hg hzero] at hlt
    exact absurd (hleast d.assignment) (not_le.mpr hlt)
  rw [← hsame, hzero key hkey j hj]
  rfl

end LinearGraph

end LeastSquares
