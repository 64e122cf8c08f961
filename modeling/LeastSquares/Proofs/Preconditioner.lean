/-
  LeastSquares/Proofs/Preconditioner.lean
  =======================================
  **The preconditioner of the iteration is positive definite where the problem is determined.**

  The preconditioner is the normal matrix of the marked factors, with the diagonal of the normal matrix of
  the others.  A vector that it sends to zero is sent to zero by the marked rows, and it is zero at every
  column that the other rows touch, so all rows of the problem send it to zero.  Which factors are marked
  plays no part in this: marks that were chosen for another problem slow the iteration down at most.
-/
import Mathlib.Algebra.Order.Star.Real
import Mathlib.LinearAlgebra.Matrix.PosDef
import Mathlib.LinearAlgebra.Matrix.ToLinearEquiv
import LeastSquares.Proofs.DampedSteps
import LeastSquares.Proofs.Factorization
import LeastSquares.Proofs.SubgraphMasks

namespace LeastSquares

open Vec Matrix

/-! ### Stored entries on the diagonal -/

/-- Storing on the diagonal adds to the entry there, and to no other. -/
theorem SparseRow.IsWithin.entry_store {row : SparseRow ℝ} {width column : ℕ} (h : row.IsWithin width)
    (hcolumn : column < width) (x : ℝ) {j : ℕ} (hj : j < width) :
    SparseRow.entry (row.store column x) j = row.entry j + if j = column then x else 0 := by
  have hstored : (row.store column x).IsWithin width := by
    refine ⟨ascending_store h.1 _ _, fun e he => ?_⟩
    rcases mem_store he with heq | ⟨old, hold, heq⟩
    · exact heq ▸ hcolumn
    · exact heq ▸ h.2 old hold
  rw [← hstored.form_unit hj, ← h.form_unit hj, form_store, unit]
  simp only [eq_comm (a := column), mul_ite, mul_one, mul_zero]

namespace Sparse

variable {A : Sparse ℝ} {n : ℕ} {M : Matrix (Fin n) (Fin n) ℝ}

/-- Stored entries are those of a matrix. -/
theorem toMat_eq_ofMatrix : A.toMat = .ofMatrix M ↔
    A.width = n ∧ A.rows.length = n ∧ ∀ i j : Fin n, SparseRow.entry (A.rows.getD i []) j = M i j := by
  have hplaces : A.toMat.rows.length = A.rows.length := by simp [toMat]
  constructor
  · intro h
    have hrows : A.rows.map (fun row => (List.range A.width).map (SparseRow.entry row)) =
        List.ofFn fun i => List.ofFn (M i) := congrArg Mat.rows h
    have hcount : A.rows.length = n := by simpa using congrArg List.length hrows
    have hwidth : A.width = n := congrArg Mat.width h
    refine ⟨hwidth, hcount, fun i j => ?_⟩
    have hentry := congrArg (fun rows => (rows.getD i []).getD j 0) hrows
    simpa [List.getD_eq_getElem?_getD, hcount, hwidth] using hentry
  · rintro ⟨hwidth, hcount, hentries⟩
    rw [toMat, Mat.ofMatrix, hwidth]
    refine congrArg (Mat.mk n) (List.ext_getElem (by simp [hcount]) fun i hi hi' => ?_)
    rw [List.length_ofFn] at hi'
    refine List.ext_getElem (by simp) fun j hj hj' => ?_
    have hj'' : j < n := by simpa using hj'
    have hentry := hentries ⟨i, hi'⟩ ⟨j, hj''⟩
    simpa [List.getD_eq_getElem?_getD, hcount, hi'] using hentry

theorem diagonal_eq (h : A.toMat = .ofMatrix M) : A.diagonal = List.ofFn fun i => M i i := by
  obtain ⟨-, hcount, hentries⟩ := toMat_eq_ofMatrix.mp h
  refine List.ext_getElem (by simp [diagonal, hcount]) fun i hi hi' => ?_
  rw [List.length_ofFn] at hi'
  have hentry := hentries ⟨i, hi'⟩ ⟨i, hi'⟩
  simpa [diagonal, List.getD_eq_getElem?_getD, hcount, hi'] using hentry

/-- Adding to the diagonal of what is stored adds to the diagonal of the matrix. -/
theorem toMat_addDiagonal (hrows : ∀ row ∈ A.rows, SparseRow.IsWithin n row)
    (h : A.toMat = .ofMatrix M) (d : Fin n → ℝ) :
    (A.addDiagonal (List.ofFn d)).toMat = .ofMatrix (M + Matrix.diagonal d) := by
  obtain ⟨hwidth, hcount, hentries⟩ := toMat_eq_ofMatrix.mp h
  refine toMat_eq_ofMatrix.mpr ⟨hwidth, by simp [addDiagonal, hcount], fun i j => ?_⟩
  have hi : (i : ℕ) < A.rows.length := hcount.symm ▸ i.isLt
  have hrow : (A.addDiagonal (List.ofFn d)).rows.getD i [] = SparseRow.store A.rows[(i : ℕ)] i (d i) := by
    simp [addDiagonal, List.getD_eq_getElem?_getD, hi]
  have hentry := hentries i j
  rw [List.getD_eq_getElem?_getD, List.getElem?_eq_getElem hi, Option.getD_some] at hentry
  rw [hrow, (hrows _ (List.getElem_mem hi)).entry_store i.isLt _ j.isLt, hentry, Matrix.add_apply,
    Matrix.diagonal_apply]
  simp only [Fin.ext_iff, eq_comm]

end Sparse

/-! ### The diagonal of what is left out -/

section

variable {k l m n : Type} [Fintype k] {C : Matrix k n ℝ}

/-- The squares of the columns of a matrix, which are the diagonal of its normal matrix. -/
def columnSquares (C : Matrix k n ℝ) (j : n) : ℝ := (Cᵀ * C) j j

theorem columnSquares_eq (C : Matrix k n ℝ) (j : n) : columnSquares C j = ∑ i, C i j ^ 2 :=
  Finset.sum_congr rfl fun _ _ => (sq _).symm

theorem columnSquares_nonneg (C : Matrix k n ℝ) (j : n) : 0 ≤ columnSquares C j := by
  rw [columnSquares_eq]
  exact Finset.sum_nonneg fun i _ => sq_nonneg _

variable [Fintype l] [Fintype m] [Fintype n] {A : Matrix l n ℝ} {B : Matrix m n ℝ}

/-- A vector that is zero at every column with an entry is sent to zero. -/
theorem mulVec_eq_zero_of_columnSquares {y : n → ℝ} (h : ∀ j, columnSquares C j * y j ^ 2 = 0) :
    C *ᵥ y = 0 := by
  refine funext fun i => Finset.sum_eq_zero fun j _ => mul_eq_zero.mpr ?_
  refine (mul_eq_zero.mp (h j)).imp (fun hcolumn => ?_) (pow_eq_zero_iff two_ne_zero).mp
  rw [columnSquares_eq, Finset.sum_eq_zero_iff_of_nonneg fun i _ => sq_nonneg _] at hcolumn
  exact (pow_eq_zero_iff two_ne_zero).mp (hcolumn i (Finset.mem_univ i))

variable [DecidableEq n]

/-- The normal matrix of some rows, with the squares of the columns of others on the diagonal, sees a vector
    as the rows and the squares do. -/
theorem dotProduct_preconditioner (B : Matrix m n ℝ) (C : Matrix k n ℝ) (y : n → ℝ) :
    y ⬝ᵥ (Bᵀ * B + Matrix.diagonal (columnSquares C)) *ᵥ y =
      (B *ᵥ y) ⬝ᵥ (B *ᵥ y) + ∑ j, columnSquares C j * y j ^ 2 := by
  rw [add_mulVec, dotProduct_add, ← mulVec_mulVec, dotProduct_mulVec y Bᵀ, vecMul_transpose]
  congr 1
  refine Finset.sum_congr rfl fun j _ => ?_
  rw [mulVec_diagonal]
  ring

theorem posSemidef_preconditioner (B : Matrix m n ℝ) (C : Matrix k n ℝ) :
    (Bᵀ * B + Matrix.diagonal (columnSquares C)).PosSemidef :=
  (posSemidef_conjTranspose_mul_self B).add (.diagonal (columnSquares_nonneg C))

/-- **A vector that the preconditioner does not see** is sent to zero by the rows, by the others, and so by
    all of them. -/
theorem mulVec_eq_zero_of_preconditioner
    (hsplit : ∀ y, (A *ᵥ y) ⬝ᵥ (A *ᵥ y) = (B *ᵥ y) ⬝ᵥ (B *ᵥ y) + (C *ᵥ y) ⬝ᵥ (C *ᵥ y)) {y : n → ℝ}
    (h : y ⬝ᵥ (Bᵀ * B + Matrix.diagonal (columnSquares C)) *ᵥ y = 0) : A *ᵥ y = 0 := by
  have hrows : 0 ≤ (B *ᵥ y) ⬝ᵥ (B *ᵥ y) := Finset.sum_nonneg fun i _ => mul_self_nonneg _
  have hsquare : ∀ j ∈ Finset.univ, 0 ≤ columnSquares C j * y j ^ 2 := fun j _ =>
    mul_nonneg (columnSquares_nonneg C j) (sq_nonneg _)
  have hsum := Finset.sum_nonneg hsquare
  rw [dotProduct_preconditioner] at h
  have hothers : C *ᵥ y = 0 := by
    refine mulVec_eq_zero_of_columnSquares fun j => ?_
    refine (Finset.sum_eq_zero_iff_of_nonneg hsquare).mp ?_ j (Finset.mem_univ j)
    linarith
  refine dotProduct_self_eq_zero.mp ?_
  rw [hsplit, hothers, zero_dotProduct]
  linarith

/-- The preconditioner is positive definite where the rows together send nothing else to zero. -/
theorem posDef_preconditioner
    (hsplit : ∀ y, (A *ᵥ y) ⬝ᵥ (A *ᵥ y) = (B *ᵥ y) ⬝ᵥ (B *ᵥ y) + (C *ᵥ y) ⬝ᵥ (C *ᵥ y))
    (h : ∀ y, A *ᵥ y = 0 → y = 0) : (Bᵀ * B + Matrix.diagonal (columnSquares C)).PosDef := by
  have hsemidef := posSemidef_preconditioner B C
  refine .of_dotProduct_mulVec_pos hsemidef.1 fun y hy => ?_
  refine lt_of_le_of_ne (hsemidef.dotProduct_mulVec_nonneg y) fun hzero => hy ?_
  exact h y (mulVec_eq_zero_of_preconditioner hsplit hzero.symm)

omit [Fintype l] [DecidableEq n] in
/-- A matrix has full column rank where it sends nothing else to zero. -/
theorem rank_eq_card_iff : A.rank = Fintype.card n ↔ ∀ y, A *ᵥ y = 0 → y = 0 := by
  have hsum := LinearMap.finrank_range_add_finrank_ker A.mulVecLin
  rw [Module.finrank_fintype_fun_eq_card] at hsum
  have hkernel : A.rank = Fintype.card n ↔ LinearMap.ker A.mulVecLin = ⊥ := by
    rw [← Submodule.finrank_eq_zero, Matrix.rank]
    omega
  rw [hkernel, LinearMap.ker_eq_bot']
  rfl

end

/-! ### The preconditioner of a problem -/

namespace Subgraph

variable {g : LinearGraph ℝ} {keys : List Key} {dims : Table ℕ} {mask : List Bool}

/-- The marked factors, or the others, are factors of the problem. -/
theorem accords_part {α : Type} {g : LinearGraph α} (hg : g.Accords keys dims) (mask : List Bool)
    (marked : Bool) : (part mask marked g).Accords keys dims := by
  have hmem : ∀ f ∈ (part mask marked g).factors, f ∈ g.factors := by
    intro f hf
    obtain ⟨entry, hentry, rfl⟩ := List.mem_map.mp hf
    exact (List.of_mem_zip (List.mem_of_mem_filter hentry)).1
  exact ⟨hg.nodup, hg.sized, fun f hf => hg.fits f (hmem f hf), fun f hf => hg.listed f (hmem f hf)⟩

/-- The factors of a problem are about different variables of its order. -/
theorem within_of_accords {order : EliminationOrder} (hg : g.Accords order.keys dims) :
    Within order g.structureKey :=
  List.forall_mem_map.mpr fun f hf => ⟨(hg.fits f hf).nodup, hg.listed f hf⟩

/-- **The marked factors and the others** miss together what the problem misses. -/
theorem misfit_parts (hmask : mask.length = g.size) (x : Assignment) :
    g.misfit x = (part mask true g).misfit x + (part mask false g).misfit x := by
  have hfactors : (g.factors.zip mask).map (·.1) = g.factors :=
    List.map_fst_zip hmask.ge
  have hperm := List.filter_append_perm (fun entry : LinearFactor ℝ × Bool => decide (entry.2 = true))
    (g.factors.zip mask)
  have hsum := ((hperm.map (·.1)).map (LinearFactor.misfit x)).sum_eq
  rw [hfactors, List.map_append, List.map_append, List.sum_append] at hsum
  rw [LinearGraph.misfit, ← hsum]
  simp [LinearGraph.misfit, part]

end Subgraph

namespace LinearGraph

variable {g : LinearGraph ℝ} {keys : List Key} {dims : Table ℕ} {damping : ℝ}

/-- The stacked matrix of a problem, what is stored of its normal equations, and how the problem curves. -/
theorem exists_stacked (hg : g.Accords keys dims) :
    ∃ rows, ∀ A : Sparse ℝ, A = ⟨dims.widthOf keys, rows⟩ → g.stackedMatrix keys dims = .ok A ∧
      g.normal keys dims = .ok (A.gram, .ofVector (A.transposeMulVec g.rhs)) ∧
      (∃ slope, g.HasNormal keys dims (A.toMatrixᵀ * A.toMatrix) slope) ∧
      (∀ row ∈ A.gram.rows, SparseRow.IsWithin A.width row) ∧
      A.gram.toMat = .ofMatrix (A.toMatrixᵀ * A.toMatrix) ∧
      ∀ x : Assignment, curvature g.misfit x = (A.toMatrix *ᵥ fun j => x.along dims keys j) ⬝ᵥ
        (A.toMatrix *ᵥ fun j => x.along dims keys j) := by
  obtain ⟨⟨width, rows⟩, hA, hwidth, -, hcurvature⟩ := curvature_eq_dotProduct hg
  obtain ⟨A', hA', -, hheight, hrows, -⟩ := stackedMatrix_spec hg
  rw [hA] at hA'
  cases hA'
  obtain rfl : width = dims.widthOf keys := hwidth
  refine ⟨rows, ?_⟩
  rintro _ rfl
  have hnormal := normal_eq_ok hg.fits hA
  have hslope := Sparse.transposeMulVec_eq hrows hheight.symm
  exact ⟨hA, hnormal, ⟨_, _, hslope ▸ hnormal, Sparse.toMat_gram hrows⟩, (Sparse.gram_spec hrows).1,
    Sparse.toMat_gram hrows, hcurvature⟩

/-- The stacked matrix of a damped problem has full column rank. -/
theorem fullColumnRank_damped (hg : g.Accords keys dims) (hperm : keys.Perm dims.keys)
    (hdamping : 0 < damping) : (g.damped damping dims).FullColumnRank keys dims := by
  obtain ⟨rows, hstacked⟩ := exists_stacked (hg.damped hperm damping)
  obtain ⟨hA, -, -, -, -, hcurvature⟩ := hstacked _ rfl
  refine ⟨_, hA, (rank_eq_card_iff.mpr fun y hy => ?_).trans (Fintype.card_fin _)⟩
  obtain ⟨x, rfl⟩ := Assignment.exists_columns hg.nodup y
  have hcurved := hcurvature x
  have hstill : (Sparse.toMatrix ⟨dims.widthOf keys, rows⟩ *ᵥ fun j => x.along dims keys j) = 0 := hy
  rw [hstill, zero_dotProduct, curvature_damped g hdamping.le] at hcurved
  have hlength : x.lengthSq dims = 0 := by
    have hproblem := curvature_nonneg hg x
    have hnonneg := x.lengthSq_nonneg dims
    nlinarith
  rw [Assignment.lengthSq_eq_dotProduct hg.nodup hperm] at hlength
  exact dotProduct_self_eq_zero.mp hlength

end LinearGraph

/-- **The preconditioner of a problem** is the normal matrix of some rows, with the squares of the columns of
    others on the diagonal; where each factor has a mark, the problem curves as all these rows together do. -/
theorem Subgraph.exists_preconditioner {g : LinearGraph ℝ} {keys : List Key} {dims : Table ℕ}
    (hg : g.Accords keys dims) (mask : List Bool) :
    ∃ (m : ℕ) (B : Matrix (Fin m) (Fin (dims.widthOf keys)) ℝ) (k : ℕ)
      (C : Matrix (Fin k) (Fin (dims.widthOf keys)) ℝ),
      preconditioner mask keys dims g = .ok (.ofMatrix (Bᵀ * B + Matrix.diagonal (columnSquares C))) ∧
        (∃ slope, (part mask true g).HasNormal keys dims (Bᵀ * B) slope) ∧
        (∃ slope, (part mask false g).HasNormal keys dims (Cᵀ * C) slope) ∧
        (mask.length = g.size → ∀ x, curvature g.misfit x =
          (B *ᵥ x.columns dims keys) ⬝ᵥ (B *ᵥ x.columns dims keys) +
            (C *ᵥ x.columns dims keys) ⬝ᵥ (C *ᵥ x.columns dims keys)) := by
  obtain ⟨marked, hmarked⟩ := LinearGraph.exists_stacked (accords_part hg mask true)
  obtain ⟨others, hothers⟩ := LinearGraph.exists_stacked (accords_part hg mask false)
  obtain ⟨-, hnormal, hhas, hwithin, hmatrix, hcurvature⟩ := hmarked _ rfl
  obtain ⟨-, hnormal', hhas', -, hmatrix', hcurvature'⟩ := hothers _ rfl
  refine ⟨_, Sparse.toMatrix ⟨dims.widthOf keys, marked⟩, _, Sparse.toMatrix ⟨dims.widthOf keys, others⟩,
    ?_, hhas, hhas', fun hmask x => ?_⟩
  · simp only [preconditioner, hnormal, hnormal', bind, Except.bind, pure, Except.pure]
    rw [Sparse.diagonal_eq hmatrix', Sparse.toMat_addDiagonal hwithin hmatrix]
    rfl
  · have hparts := curvature_add (part mask true g).misfit (part mask false g).misfit x
    rw [← funext (misfit_parts hmask), hcurvature, hcurvature'] at hparts
    exact hparts

namespace SubgraphSolver

open Subgraph

variable {g : LinearGraph ℝ} {keys : List Key} {dims : Table ℕ} {mask : List Bool}

/-- An iteration factorizes the preconditioner for its marks, and fails only where that fails. -/
theorem iterate_eq {s : SubgraphSolver ℝ} {A : Sparse ℝ}
    (hnormal : g.normal s.order.keys s.dims = .ok (A.gram, .ofVector (A.transposeMulVec g.rhs))) :
    s.iterate g = (do
      let p ← preconditioner s.mask s.order.keys s.dims g
      let steps ← Lu.factorize p
      return ConjugateGradient.solve A.gram.mulVec (Lu.solve steps) (A.transposeMulVec g.rhs)
        s.parameters.epsilonAbs s.parameters.epsilonRel s.parameters.maxIterations) := by
  simp only [iterate, hnormal]
  rfl

/-- **A matrix preconditions a problem**, given by its stacked matrix, for some marks.  It is the normal matrix
    of the marked factors, with the diagonal of the normal matrix of the others; it is what is formed for the
    marks, and an iteration with these marks is the conjugate gradient iteration on the normal equations,
    preconditioned by what its factorization solves.  It is positive semidefinite, sends to zero only what
    the stacked matrix sends to zero, and is positive definite where the stacked matrix has full column rank;
    its factorization fails at a normal matrix that is singular, if at all. -/
structure Preconditions (g : LinearGraph ℝ) (keys : List Key) (dims : Table ℕ) (mask : List Bool)
    (A : Sparse ℝ) (P : Matrix (Fin A.width) (Fin A.width) ℝ) : Prop where
  parts : ∃ marked others slope slope', (part mask true g).HasNormal keys dims marked slope ∧
    (part mask false g).HasNormal keys dims others slope' ∧
      P = marked + Matrix.diagonal fun j => others j j
  formed : preconditioner mask keys dims g = .ok (.ofMatrix P)
  iterates : ∀ s : SubgraphSolver ℝ, s.order.keys = keys → s.dims = dims → s.mask = mask →
    s.iterate g = (do
      let steps ← Lu.factorize (.ofMatrix P)
      return ConjugateGradient.solve A.gram.mulVec (Lu.solve steps) (A.transposeMulVec g.rhs)
        s.parameters.epsilonAbs s.parameters.epsilonRel s.parameters.maxIterations)
  solves : ∀ steps, Lu.factorize (.ofMatrix P) = .ok steps → ∀ y : Fin A.width → ℝ,
    ∃ z, Lu.solve steps (List.ofFn y) = List.ofFn z ∧ P *ᵥ z = y
  posSemidef : P.PosSemidef
  null : ∀ y, P *ᵥ y = 0 → A.toMatrix *ᵥ y = 0
  posDef : A.toMatrix.rank = A.width → P.PosDef
  singular : ∀ e, Lu.factorize (.ofMatrix P) = .error e → (A.toMatrixᵀ * A.toMatrix).det = 0

/-- The marks of a problem, whichever they are, give a preconditioner. -/
theorem exists_preconditions (hg : g.Accords keys dims) {A : Sparse ℝ}
    (hA : g.stackedMatrix keys dims = .ok A) (hmask : mask.length = g.size) :
    ∃ P, Preconditions g keys dims mask A P := by
  obtain ⟨rows, hstacked⟩ := LinearGraph.exists_stacked hg
  obtain ⟨hA', hnormal, -, -, -, hcurvature⟩ := hstacked _ rfl
  rw [hA] at hA'
  cases hA'
  obtain ⟨m, B, k, C, hformed, ⟨slope, hmarked⟩, ⟨slope', hothers⟩, hcurved⟩ :=
    exists_preconditioner hg mask
  have hsplit : ∀ y, (Sparse.toMatrix ⟨dims.widthOf keys, rows⟩ *ᵥ y) ⬝ᵥ
      (Sparse.toMatrix ⟨dims.widthOf keys, rows⟩ *ᵥ y) =
        (B *ᵥ y) ⬝ᵥ (B *ᵥ y) + (C *ᵥ y) ⬝ᵥ (C *ᵥ y) := by
    intro y
    obtain ⟨x, rfl⟩ := Assignment.exists_columns hg.nodup y
    rw [← hcurved hmask]
    exact (hcurvature x).symm
  have hnull : ∀ y, (Bᵀ * B + Matrix.diagonal (columnSquares C)) *ᵥ y = 0 →
      Sparse.toMatrix ⟨dims.widthOf keys, rows⟩ *ᵥ y = 0 := fun y hy =>
    mulVec_eq_zero_of_preconditioner hsplit (by rw [hy, dotProduct_zero])
  have hfactorized := Lu.factorize_ofMatrix (Bᵀ * B + Matrix.diagonal (columnSquares C))
  refine ⟨Bᵀ * B + Matrix.diagonal (columnSquares C), ?_⟩
  constructor
  case parts => exact ⟨Bᵀ * B, Cᵀ * C, slope, slope', hmarked, hothers, rfl⟩
  case formed => exact hformed
  case iterates =>
    rintro s rfl rfl rfl
    rw [iterate_eq hnormal, hformed]
    rfl
  case solves =>
    intro steps hsteps y
    rcases hfactorized with ⟨herror, -⟩ | ⟨found, hfound, hsolves⟩
    · rw [herror] at hsteps
      cases hsteps
    · rw [hfound] at hsteps
      cases hsteps
      exact hsolves y
  case posSemidef => exact posSemidef_preconditioner B C
  case null => exact hnull
  case posDef =>
    exact fun hrank =>
      posDef_preconditioner hsplit (rank_eq_card_iff.mp (hrank.trans (Fintype.card_fin _).symm))
  case singular =>
    intro e he
    rcases hfactorized with ⟨-, v, hv, hzero⟩ | ⟨found, hfound, -⟩
    · refine exists_mulVec_eq_zero_iff.mp ⟨v, hv, ?_⟩
      rw [← mulVec_mulVec, hnull v hzero, mulVec_zero]
    · rw [hfound] at he
      cases he

/-- **The preconditioner stays positive definite.**  For every problem and all marks of its factors, those
    that the solver chooses or has kept among them, the iteration is preconditioned by the normal matrix of
    the marked factors with the diagonal of that of the others.  This matrix is symmetric, positive
    semidefinite, and sends to zero only what the stacked matrix sends to zero.  So it is positive definite
    where that has full column rank, and for every damped problem; and its factorization, and with it the
    iteration, can only fail where the normal matrix of the problem is singular. -/
theorem preconditioner_posDef (hg : g.Accords keys dims) :
    ∃ A, g.stackedMatrix keys dims = .ok A ∧
      (∀ mask, mask.length = g.size → ∃ P, Preconditions g keys dims mask A P) ∧
      (∀ order parameters (s : SubgraphSolver ℝ), order.keys = keys → s.Reachable order dims parameters →
        ∃ P, Preconditions g keys dims (s.prepare g).memory.mask A P) ∧
      ∀ damping, 0 < damping → keys.Perm dims.keys →
        ∃ A', (g.damped damping dims).stackedMatrix keys dims = .ok A' ∧
          ∀ mask, mask.length = (g.damped damping dims).size →
            ∃ P, Preconditions (g.damped damping dims) keys dims mask A' P ∧ P.PosDef := by
  obtain ⟨A, hA, -⟩ := LinearGraph.stackedMatrix_spec hg
  refine ⟨A, hA, fun mask hmask => exists_preconditions hg hA hmask, ?_, ?_⟩
  · rintro order parameters s rfl hs
    refine exists_preconditions hg hA ?_
    obtain ⟨rfl, rfl, hkeeps⟩ := hs.keeps
    have hwithin := within_of_accords hg
    obtain ⟨hprepared, hsucceeds⟩ := prepare_spec hkeeps g
    have horder : (s.prepare g).memory.order = s.order := by rw [prepare_memory]
    have hspanning := hprepared _ (hsucceeds hwithin).2 (horder.symm ▸ hwithin)
    rw [hspanning.length, LinearGraph.structureKey, List.length_map, LinearGraph.size]
  · intro damping hdamping hperm
    obtain ⟨A', hA', hrank⟩ := LinearGraph.fullColumnRank_damped hg hperm hdamping
    refine ⟨A', hA', fun mask hmask => ?_⟩
    obtain ⟨P, hP⟩ := exists_preconditions (hg.damped hperm damping) hA' hmask
    exact ⟨P, hP, hP.posDef hrank⟩

end SubgraphSolver

/-! ### The preconditioners of two numbers -/

namespace TwoNumbers

open Elimination Subgraph SubgraphSolver

theorem normal_tied (b : ℝ) : (tied b).normal inTurn.keys sizes =
    .ok (⟨2, [[(0, 1), (1, -1)], [(0, -1), (1, 1)]]⟩, .ofVector [-b, b]) := by
  rw [LinearGraph.normal_eq_ok (tied_fits b).fits (stackedMatrix_tied b)]
  simp [Sparse.gram, SparseRow.addScaled, SparseRow.store, Sparse.transposeMulVec, Vec.zeros, Vec.addAt,
    LinearGraph.rhs, tied, gap, LinearFactor.rhsArray, Tensor.ofVector]

theorem normal_second (c : ℝ) : LinearGraph.normal ⟨[equation (.number 1) 1 c]⟩ inTurn.keys sizes =
    .ok (⟨2, [[], [(1, 1)]]⟩, .ofVector [0, c]) := by
  have hfits : ∀ f ∈ [equation (.number 1) 1 c], f.Fits sizes :=
    List.forall_mem_singleton.mpr (fits_second 1 c)
  have hoffsets : columnOffsets sizes inTurn.keys = .ok ([(.number 0, 0), (.number 1, 1)], 2) := rfl
  have hfind : Table.find [(Key.number 0, 0), (.number 1, 1)] (.number 1) = .ok 1 := rfl
  have hstacked : LinearGraph.stackedMatrix ⟨[equation (.number 1) 1 c]⟩ inTurn.keys sizes =
      .ok ⟨2, [[(1, 1)]]⟩ := by
    simp [LinearGraph.stackedMatrix, hoffsets, equation, LinearFactor.sparseRows, LinearFactor.sparseBlocks,
      hfind, SparseRow.storeVec, SparseRow.store, bind, Except.bind, pure, Except.pure, Scalar.isZero_real]
  rw [LinearGraph.normal_eq_ok hfits hstacked]
  simp [Sparse.gram, SparseRow.addScaled, SparseRow.store, Sparse.transposeMulVec, Vec.zeros, Vec.addAt,
    LinearGraph.rhs, equation, LinearFactor.rhsArray, Tensor.ofVector]

/-- Without a mark for the difference, it adds to the diagonal only. -/
theorem preconditioner_problem (b c : ℝ) :
    preconditioner [false, true] inTurn.keys sizes (problem b c) = .ok ⟨2, [[1, 0], [0, 2]]⟩ := by
  have hmarked : part [false, true] true (problem b c) = ⟨[equation (.number 1) 1 c]⟩ := rfl
  have hothers : part [false, true] false (problem b c) = tied b := rfl
  have hentry : SparseRow.entry [((0 : ℕ), (-1 : ℝ)), (1, 1)] 1 = 1 := rfl
  have hentry' : SparseRow.entry [((0 : ℕ), (1 : ℝ)), (1, -1)] 0 = 1 := rfl
  simp only [preconditioner, hmarked, hothers, normal_second, normal_tied, bind, Except.bind, pure,
    Except.pure, Sparse.diagonal, List.mapIdx_cons, List.mapIdx_nil, hentry, hentry']
  norm_num [Sparse.addDiagonal, SparseRow.store, Sparse.toMat, SparseRow.entry]
  exact ⟨rfl, rfl⟩

/-- A solver that marks by breadth first, before its first problem. -/
noncomputable def iterating : SubgraphSolver ℝ := ⟨inTurn, sizes, ⟨3, 0, 0.25, .breadthFirst⟩, none, [], 0⟩

/-- Where the difference is not marked, it adds to the diagonal of the preconditioner only, which is definite
    all the same.  With damping, so is the preconditioner where nothing but the difference is given. -/
theorem preconditioner_posDef_together : (problem 0 1).Accords inTurn.keys sizes ∧
    [false, true].length = (problem 0 1).size ∧ iterating.Reachable inTurn sizes iterating.parameters ∧
    (∃ A P, (problem 0 1).stackedMatrix inTurn.keys sizes = .ok A ∧
      Preconditions (problem 0 1) inTurn.keys sizes [false, true] A P ∧
        Mat.ofMatrix P = ⟨2, [[1, 0], [0, 2]]⟩ ∧ P.PosDef) ∧
    (∃ A P, (problem 0 1).stackedMatrix inTurn.keys sizes = .ok A ∧
      Preconditions (problem 0 1) inTurn.keys sizes (iterating.prepare (problem 0 1)).memory.mask A P) ∧
    (tied 0).Accords inTurn.keys sizes ∧ inTurn.keys.Perm sizes.keys ∧
    [true, false, false].length = ((tied 0).damped 1 sizes).size ∧
    ∃ A P, ((tied 0).damped 1 sizes).stackedMatrix inTurn.keys sizes = .ok A ∧
      Preconditions ((tied 0).damped 1 sizes) inTurn.keys sizes [true, false, false] A P ∧ P.PosDef := by
  have hg := problem_fits 0 1
  have hperm : inTurn.keys.Perm sizes.keys := .refl _
  have hfresh : iterating.Reachable inTurn sizes iterating.parameters := .fresh
  obtain ⟨hd, -⟩ := solve_problem (b := 0) (c := 1) (by norm_num)
  have hrank : (problem 0 1).FullColumnRank inTurn.keys sizes := by
    rcases SequentialSolver.solve_cases ⟨inTurn, sizes, none⟩ hg with ⟨key, -, herror⟩ | ⟨-, -, hrank, -⟩
    · rw [herror] at hd
      cases hd
    · exact hrank
  obtain ⟨A, hA, hmarks, hsolvers, -⟩ := preconditioner_posDef hg.accords
  obtain ⟨A', hA', hfull⟩ := hrank
  rw [hA] at hA'
  cases hA'
  obtain ⟨P, hP⟩ := hmarks [false, true] rfl
  obtain ⟨Q, hQ⟩ := hsolvers inTurn _ iterating rfl hfresh
  have hformed : Mat.ofMatrix P = ⟨2, [[1, 0], [0, 2]]⟩ :=
    Except.ok.inj (hP.formed.symm.trans (preconditioner_problem 0 1))
  obtain ⟨-, -, -, -, hdamped⟩ := preconditioner_posDef (tied_fits 0).accords
  obtain ⟨B, hB, hmarks'⟩ := hdamped 1 one_pos hperm
  obtain ⟨R, hR, hdefinite⟩ := hmarks' [true, false, false] rfl
  exact ⟨hg.accords, rfl, hfresh, ⟨A, P, hA, hP, hformed, hP.posDef hfull⟩, ⟨A, Q, hA, hQ⟩,
    (tied_fits 0).accords, hperm, rfl, B, R, hB, hR, hdefinite⟩

end TwoNumbers

end LeastSquares
