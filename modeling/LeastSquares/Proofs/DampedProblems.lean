/-
  LeastSquares/Proofs/DampedProblems.lean
  =======================================
  **Which damped problems the two solvers can solve.**

  Damping adds a multiple of the square of the length of a step to what a problem misses.  So along every
  direction a damped problem curves by that multiple at least, and both solvers return where it is above
  the tolerance at the scale of the problem.  Below the tolerance, a direction along which the problem
  itself hardly curves stays undetermined.
-/
import LeastSquares.Proofs.AffineFactors
import LeastSquares.Proofs.RightHandSides

namespace LeastSquares

open Vec Matrix

/-! ### The length of an assignment -/

namespace Assignment

variable {dims : Table ℕ} {keys : List Key}

/-- The square of the length of an assignment, over the components of the variables of a table. -/
noncomputable def lengthSq (dims : Table ℕ) (x : Assignment) : ℝ :=
  (dims.map fun row => ∑ i ∈ Finset.range row.2, x row.1 i ^ 2).sum

theorem lengthSq_nonneg (dims : Table ℕ) (x : Assignment) : 0 ≤ x.lengthSq dims :=
  List.sum_nonneg (List.forall_mem_map.mpr fun _ _ => Finset.sum_nonneg fun _ _ => sq_nonneg _)

theorem lengthSq_neg (dims : Table ℕ) (x : Assignment) : (-x).lengthSq dims = x.lengthSq dims := by
  simp [lengthSq]

theorem lengthSq_zero (dims : Table ℕ) : (0 : Assignment).lengthSq dims = 0 := by
  simp [lengthSq]

theorem sum_along_sq (dims : Table ℕ) (x : Assignment) (keys : List Key) :
    ∑ j ∈ Finset.range (dims.widthOf keys), x.along dims keys j ^ 2 =
      (keys.map fun key => ∑ i ∈ Finset.range (dims.dimOf key), x key i ^ 2).sum := by
  induction keys with
  | nil => simp
  | cons key keys ih =>
    rw [Table.widthOf_cons, Finset.sum_range_add, List.map_cons, List.sum_cons, ← ih]
    congr 1
    · refine Finset.sum_congr rfl fun j hj => ?_
      rw [along, if_pos (Finset.mem_range.mp hj)]
    · refine Finset.sum_congr rfl fun j _ => ?_
      rw [along, if_neg (by omega), Nat.add_sub_cancel_left]

/-- The length, read along the columns of the variables. -/
theorem lengthSq_eq_sum (hnodup : keys.Nodup) (hperm : keys.Perm dims.keys) (x : Assignment) :
    x.lengthSq dims = ∑ j ∈ Finset.range (dims.widthOf keys), x.along dims keys j ^ 2 := by
  have hrow : ∀ row ∈ dims, row.2 = dims.dimOf row.1 := fun row hrow =>
    (Table.dimOf_eq (Table.get?_of_mem (hperm.nodup_iff.mp hnodup) hrow)).symm
  rw [sum_along_sq, (hperm.map _).sum_eq, Table.keys, List.map_map, lengthSq]
  refine congrArg List.sum (List.map_congr_left fun row h => ?_)
  rw [hrow row h]
  rfl

theorem lengthSq_unit (hnodup : keys.Nodup) (hperm : keys.Perm dims.keys) {key : Key} (hkey : key ∈ keys)
    {j : ℕ} (hj : j < dims.dimOf key) : (unit key j).lengthSq dims = 1 := by
  have hroom := Table.columnOf_add_dimOf_le dims hkey
  have hcolumn : ∀ i ∈ Finset.range (dims.widthOf keys), (unit key j).along dims keys i ^ 2 =
      if i = dims.columnOf keys key + j then 1 else 0 := by
    intro i hi
    rw [along_unit hnodup hkey hj (Finset.mem_range.mp hi)]
    split <;> norm_num
  rw [lengthSq_eq_sum hnodup hperm, Finset.sum_congr rfl hcolumn, Finset.sum_ite_eq', if_pos]
  exact Finset.mem_range.mpr (by omega)

theorem one_le_lengthSq (hnodup : keys.Nodup) (hperm : keys.Perm dims.keys) {x : Assignment} {key : Key}
    (hkey : key ∈ keys) {j : ℕ} (hj : j < dims.dimOf key) (hone : x key j = 1) : 1 ≤ x.lengthSq dims := by
  have hroom := Table.columnOf_add_dimOf_le dims hkey
  have hcolumn : x.along dims keys (dims.columnOf keys key + j) ^ 2 = 1 := by
    rw [along_columnOf x hkey hj, hone, one_pow]
  rw [lengthSq_eq_sum hnodup hperm, ← hcolumn]
  exact Finset.single_le_sum (fun i _ => sq_nonneg (x.along dims keys i))
    (Finset.mem_range.mpr (by omega))

end Assignment

/-! ### What a damped problem misses -/

namespace LinearFactor

theorem missed_damping (sigma : ℝ) (key : Key) (n : ℕ) (x : Assignment) :
    (damping sigma key n).missed x = ((List.range n).map (x key)).map (sigma * ·) := by
  have hrows : ((Mat.identity n).scale sigma).rows.map (form · (x key)) =
      ((List.range n).map (x key)).map (sigma * ·) := by
    rw [← Mat.form_identity, Mat.scale, Mat.map, List.map_map, List.map_map]
    exact List.map_congr_left fun row _ => form_scale sigma row (x key)
  rw [damping, missed, List.foldl_cons, List.foldl_nil, hrows]
  refine List.ext_getElem (by simp [Vec.add, Vec.neg, Vec.zeros]) fun i hi hi' => ?_
  simp [Vec.add, Vec.neg, Vec.zeros]

theorem misfit_damping (sigma : ℝ) (key : Key) (n : ℕ) (x : Assignment) :
    (damping sigma key n).misfit x = sigma ^ 2 * ∑ i ∈ Finset.range n, x key i ^ 2 := by
  have hsquares : squares ((List.range n).map (x key)) = ∑ i ∈ Finset.range n, x key i ^ 2 := by
    induction n with
    | zero => simp
    | succ n ih => simp [List.range_succ, Finset.sum_range_succ, ih]
  rw [misfit, missed_damping, squares_map_mul, hsquares]

end LinearFactor

namespace LinearGraph

variable {g : LinearGraph ℝ} {keys : List Key} {dims : Table ℕ} {damping : ℝ}

theorem fits_damped (hnodup : dims.keys.Nodup) (hfits : ∀ f ∈ g.factors, f.Fits dims) :
    ∀ f ∈ (g.damped damping dims).factors, f.Fits dims := by
  refine List.forall_mem_append.mpr ⟨hfits, List.forall_mem_map.mpr fun row hrow => ?_⟩
  exact LinearFactor.formed_damping _ (Table.get?_of_mem hnodup hrow)

/-- A damped problem is one of the same variables. -/
theorem Accords.damped (hg : g.Accords keys dims) (hperm : keys.Perm dims.keys) (damping : ℝ) :
    (g.damped damping dims).Accords keys dims := by
  refine ⟨hg.nodup, hg.sized, fits_damped (hperm.nodup_iff.mp hg.nodup) hg.fits,
    List.forall_mem_append.mpr ⟨hg.listed, List.forall_mem_map.mpr fun row hrow => ?_⟩⟩
  exact List.forall_mem_singleton.mpr (hperm.mem_iff.mpr (List.mem_map_of_mem hrow))

theorem Fits.damped (hg : g.Fits keys dims) (hperm : keys.Perm dims.keys) (damping : ℝ) :
    (g.damped damping dims).Fits keys dims :=
  have hdamped := hg.accords.damped hperm damping
  ⟨hg.nodup, hg.sized, hdamped.fits, hdamped.listed⟩

/-- **Damping adds a multiple of the square of the length.** -/
theorem misfit_damped (g : LinearGraph ℝ) (damping : ℝ) (dims : Table ℕ) (x : Assignment) :
    (g.damped damping dims).misfit x = g.misfit x + √damping ^ 2 * x.lengthSq dims := by
  simp only [misfit, LinearGraph.damped, List.map_append, List.sum_append, List.map_map,
    Function.comp_def, LinearFactor.misfit_damping, Assignment.lengthSq, List.sum_map_mul_left,
    Scalar.sqrt_real]

theorem misfit_le_damped (g : LinearGraph ℝ) (damping : ℝ) (dims : Table ℕ) (x : Assignment) :
    g.misfit x ≤ (g.damped damping dims).misfit x := by
  rw [misfit_damped]
  exact le_add_of_nonneg_right (mul_nonneg (sq_nonneg _) (x.lengthSq_nonneg dims))

/-- Damping takes nothing from the step that moves nothing. -/
theorem misfit_damped_zero (g : LinearGraph ℝ) (damping : ℝ) (dims : Table ℕ) :
    (g.damped damping dims).misfit 0 = g.misfit 0 := by
  rw [misfit_damped, Assignment.lengthSq_zero, mul_zero, add_zero]

theorem curvature_damped (g : LinearGraph ℝ) (hdamping : 0 ≤ damping) (dims : Table ℕ) (x : Assignment) :
    curvature (g.damped damping dims).misfit x = curvature g.misfit x + damping * x.lengthSq dims := by
  simp only [curvature, misfit_damped, Assignment.lengthSq_neg, Assignment.lengthSq_zero,
    Real.sq_sqrt hdamping]
  ring

/-! ### How steep a damped problem is -/

theorem curvature_nonneg (hg : g.Accords keys dims) (x : Assignment) : 0 ≤ curvature g.misfit x := by
  obtain ⟨A, -, -, -, hcurvature⟩ := curvature_eq_dotProduct hg
  rw [hcurvature, dotProduct]
  exact Finset.sum_nonneg fun i _ => mul_self_nonneg _

section

variable {order : EliminationOrder} (hg : g.Fits order.keys dims) (hperm : order.keys.Perm dims.keys)

include hg hperm

/-- **A damped problem is steep** by every bound whose square is less than the damping. -/
theorem isSteep_damped {bound : ℝ} (hbound : bound ^ 2 < damping) :
    IsSteep order dims (g.damped damping dims).misfit bound := by
  intro key hkey j hj x hends
  have hdamping : 0 ≤ damping := (sq_nonneg bound).trans hbound.le
  have hlength := Assignment.one_le_lengthSq hg.nodup hperm hkey hj hends.one
  calc bound ^ 2 < damping := hbound
    _ ≤ damping * x.lengthSq dims := le_mul_of_one_le_right hdamping hlength
    _ ≤ curvature (g.damped damping dims).misfit x := by
      rw [curvature_damped g hdamping]
      exact le_add_of_nonneg_left (curvature_nonneg hg.accords x)

/-- Damping makes the columns no longer than by its root. -/
theorem isScaled_damped (hdamping : 0 ≤ damping) {K bound : ℝ}
    (h : g.HasColumnsWithin order.keys dims K) (hbound : K ^ 2 + damping ≤ bound ^ 2) :
    IsScaled order dims (g.damped damping dims).misfit bound := by
  have hscaled := (g.isScaled_iff hg.accords K).mpr h
  refine ⟨?_, fun key hkey j hj => ?_⟩
  · rw [misfit_damped_zero]
    exact (hscaled.rhs.trans (le_add_of_nonneg_right hdamping)).trans hbound
  · rw [curvature_damped g hdamping, Assignment.lengthSq_unit hg.nodup hperm hkey hj, mul_one]
    exact (add_le_add_left (hscaled.columns key hkey j hj) damping).trans hbound

end

/-- A combination of columns of the stacked matrix that ends at one of them is, with the damping of its
    coefficients, within a bound of zero. -/
def HasDampedPivotWithin (g : LinearGraph ℝ) (keys : List Key) (dims : Table ℕ) (damping bound : ℝ) :
    Prop :=
  ∃ A, g.stackedMatrix keys dims = .ok A ∧ ∃ (column : Fin A.width) (y : Fin A.width → ℝ),
    y column = 1 ∧ (∀ i, column < i → y i = 0) ∧
      (A.toMatrix *ᵥ y) ⬝ᵥ (A.toMatrix *ᵥ y) + damping * (y ⬝ᵥ y) ≤ bound ^ 2

/-- Such a combination keeps a damped problem from being steep. -/
theorem HasDampedPivotWithin.not_isSteep {order : EliminationOrder} (hg : g.Fits order.keys dims)
    (hperm : order.keys.Perm dims.keys) (hdamping : 0 ≤ damping) {bound : ℝ}
    (h : g.HasDampedPivotWithin order.keys dims damping bound) :
    ¬ IsSteep order dims (g.damped damping dims).misfit bound := by
  obtain ⟨A, hA, column, y, hone, hzero, hsmall⟩ := h
  obtain ⟨A', hA', hwidth, -, hcurvature⟩ := curvature_eq_dotProduct hg.accords
  rw [hA] at hA'
  cases hA'
  obtain ⟨x, rfl, key, hkey, j, hj, hends⟩ := exists_endsAt hg.nodup hwidth hone hzero
  have hlength : (fun i : Fin A.width => x.along dims order.keys i) ⬝ᵥ
      (fun i : Fin A.width => x.along dims order.keys i) = x.lengthSq dims := by
    rw [Assignment.lengthSq_eq_sum hg.nodup hperm, ← hwidth, Finset.sum_range, dotProduct]
    exact Finset.sum_congr rfl fun i _ => (sq _).symm
  rw [hlength, ← hcurvature, ← curvature_damped g hdamping] at hsmall
  exact fun hsteep => absurd hsmall (not_le.mpr (hsteep key hkey j hj x hends))

end LinearGraph

/-! ### Both solvers -/

variable {order : EliminationOrder} {dims : Table ℕ} {g : LinearGraph ℝ} {damping : ℝ}

/-- **Damping above the tolerance makes every problem solvable.**  Let no column of the stacked matrix and
    not the right-hand side be longer than a bound.  Where the damping is greater than the square of the
    tolerance at the scale of the damped problem, both solvers return, and the same step, whether or not the
    columns are independent and whatever the state of either.  Where, with the damping, a combination of
    columns stays within the tolerance, both name a variable that is not determined. -/
theorem damped_solvable {s : MultifrontalSolver ℝ} (hs : s.Reachable order dims)
    (hg : g.Fits order.keys dims) (hperm : order.keys.Perm dims.keys) (hdamping : 0 < damping)
    (net : Option (BayesNet ℝ)) :
    (∀ K, g.HasColumnsWithin order.keys dims K →
      Elimination.pivotTolerance ^ 2 * max 1 (K ^ 2 + damping) < damping →
        ∃ d, (SequentialSolver.solve ⟨order, dims, net⟩ (g.damped damping dims)).result = .ok d ∧
          (s.solve (g.damped damping dims)).result = .ok d) ∧
    (g.HasDampedPivotWithin order.keys dims damping Elimination.pivotTolerance →
      NamesUndetermined order.keys
          (SequentialSolver.solve ⟨order, dims, net⟩ (g.damped damping dims)).result ∧
        NamesUndetermined order.keys (s.solve (g.damped damping dims)).result) := by
  have hdamped := hg.damped hperm damping
  refine ⟨fun K hcolumns hlarge => ?_, fun hpivot =>
    both_name hs hdamped net (hpivot.not_isSteep hg hperm hdamping.le)⟩
  have hscale : √(max 1 (K ^ 2 + damping)) ^ 2 = max 1 (K ^ 2 + damping) :=
    Real.sq_sqrt (zero_le_one.trans (le_max_left _ _))
  refine both_return hs hdamped net (Real.one_le_sqrt.mpr (le_max_left 1 (K ^ 2 + damping)))
    (LinearGraph.isScaled_damped hg hperm hdamping.le hcolumns ?_)
    (LinearGraph.isSteep_damped hg hperm ?_)
  · rw [hscale]
    exact le_max_right _ _
  · rwa [mul_pow, hscale]

/-! ### Two numbers whose difference is given -/

namespace TwoNumbers

theorem stackedMatrix_tied (b : ℝ) :
    (tied b).stackedMatrix inTurn.keys sizes = .ok ⟨2, [[(0, -1), (1, 1)]]⟩ := by
  have hoffsets : columnOffsets sizes inTurn.keys = .ok ([(.number 0, 0), (.number 1, 1)], 2) := rfl
  have hfirst : Table.find [(Key.number 0, 0), (.number 1, 1)] (.number 0) = .ok 0 := rfl
  have hsecond : Table.find [(Key.number 0, 0), (.number 1, 1)] (.number 1) = .ok 1 := rfl
  simp [LinearGraph.stackedMatrix, hoffsets, tied, gap, LinearFactor.sparseRows, LinearFactor.sparseBlocks,
    hfirst, hsecond, SparseRow.storeVec, SparseRow.store, bind, Except.bind, pure, Except.pure,
    Scalar.isZero_real]

theorem toMatrix_tied : (Sparse.toMatrix ⟨2, [[(0, -1), (1, 1)]]⟩ : Matrix (Fin 1) (Fin 2) ℝ) = !![-1, 1] := by
  ext (i : Fin 1) (j : Fin 2)
  fin_cases i
  fin_cases j <;> rfl

theorem tied_columns {b : ℝ} (hb : b ^ 2 ≤ 1) : (tied b).HasColumnsWithin inTurn.keys sizes 1 := by
  refine ⟨_, stackedMatrix_tied b, ?_, ?_⟩
  · intro (column : Fin 2)
    rw [toMatrix_tied]
    fin_cases column <;> simp
  · simpa [tied, gap, LinearGraph.rhs, LinearFactor.rhsArray, Tensor.ofVector, Vec.entry] using hb

/-- Where both numbers change by the same, only the damping sees it. -/
theorem tied_pivot (b : ℝ) {damping bound : ℝ} (h : 2 * damping ≤ bound ^ 2) :
    (tied b).HasDampedPivotWithin inTurn.keys sizes damping bound := by
  refine ⟨_, stackedMatrix_tied b, (1 : Fin 2), ![1, 1], rfl, fun (i : Fin 2) hi => ?_, ?_⟩
  · exact absurd hi (not_lt.mpr (Fin.le_last i))
  · refine le_trans (le_of_eq ?_) h
    rw [toMatrix_tied]
    simp [mulVec, dotProduct]
    ring

/-- With the damping that a search begins with, both solvers return; with a tiny one, one of the numbers is
    named. -/
theorem damped_solvable_tied : (tied 1).Fits inTurn.keys sizes ∧ inTurn.keys.Perm sizes.keys ∧
    fresh.Reachable inTurn sizes ∧ (0 : ℝ) < 1e-5 ∧ (0 : ℝ) < 1e-20 ∧
    (tied 1).HasColumnsWithin inTurn.keys sizes 1 ∧
    (∃ d, (SequentialSolver.solve ⟨inTurn, sizes, none⟩ ((tied 1).damped 1e-5 sizes)).result = .ok d ∧
      (fresh.solve ((tied 1).damped 1e-5 sizes)).result = .ok d) ∧
    NamesUndetermined inTurn.keys
      (SequentialSolver.solve ⟨inTurn, sizes, none⟩ ((tied 1).damped 1e-20 sizes)).result ∧
    NamesUndetermined inTurn.keys (fresh.solve ((tied 1).damped 1e-20 sizes)).result := by
  have hg := tied_fits 1
  have hperm : inTurn.keys.Perm sizes.keys := .refl _
  have hdamping : (0 : ℝ) < 1e-5 := by norm_num
  have htiny : (0 : ℝ) < 1e-20 := by norm_num
  have hcolumns : (tied 1).HasColumnsWithin inTurn.keys sizes 1 := tied_columns (by norm_num)
  have hlarge : Elimination.pivotTolerance ^ 2 * max 1 ((1 : ℝ) ^ 2 + 1e-5) < 1e-5 := by
    norm_num [Elimination.pivotTolerance]
  have hpivot : 2 * (1e-20 : ℝ) ≤ Elimination.pivotTolerance ^ 2 := by
    norm_num [Elimination.pivotTolerance]
  have hboth := (damped_solvable fresh_reachable hg hperm hdamping none).1 1 hcolumns hlarge
  obtain ⟨hone, hother⟩ := (damped_solvable fresh_reachable hg hperm htiny none).2 (tied_pivot 1 hpivot)
  exact ⟨hg, hperm, fresh_reachable, hdamping, htiny, hcolumns, hboth, hone, hother⟩

end TwoNumbers

/-! ### A number that is to be as given -/

namespace OneNumber

open Elimination

theorem misfit_damped_problem (b : ℝ) {damping : ℝ} (hdamping : 0 ≤ damping) (x : Assignment) :
    ((problem b).damped damping sizes).misfit x =
      (x (.number 0) 0 - b) ^ 2 + damping * x (.number 0) 0 ^ 2 := by
  have hmissed : (equation (.number 0) 1 b).missed x = [-b + (1 * x (.number 0) 0 + 0)] := rfl
  have hmisfit : (problem b).misfit x = (x (.number 0) 0 - b) ^ 2 := by
    simp only [problem, LinearGraph.misfit, List.map_cons, List.map_nil, List.sum_cons, List.sum_nil,
      LinearFactor.misfit, hmissed, squares_cons, squares_nil]
    ring
  have hlength : x.lengthSq sizes = x (.number 0) 0 ^ 2 := by simp [Assignment.lengthSq, sizes]
  rw [LinearGraph.misfit_damped, hmisfit, hlength, Real.sq_sqrt hdamping]

/-- Damping shortens the step to the number that is given. -/
theorem eq_of_isSolvedBy_damped {b damping : ℝ} (hdamping : 0 < damping) {d : Delta ℝ}
    (h : ((problem b).damped damping sizes).IsSolvedBy alone.keys sizes d) :
    d = ⟨[(.number 0, [b / (1 + damping)])]⟩ := by
  have hg := ((problem_fits b).damped (.refl _) damping).accords
  obtain ⟨hd, hlength⟩ := h.lists.eq_pieces hg.nodup
  obtain ⟨y, hy⟩ : ∃ y, d.vector = [y] := List.length_eq_one_iff.mp hlength
  rw [hy] at hd
  have hpiece : d = ⟨[(.number 0, [y])]⟩ := hd
  have hvalue : d.assignment (.number 0) 0 = y := by rw [hpiece]; rfl
  have hleast := h.misfit_le hg fun _ _ => b / (1 + damping)
  rw [misfit_damped_problem b hdamping.le, misfit_damped_problem b hdamping.le, hvalue] at hleast
  have hsame : y = b / (1 + damping) := by
    have hscaled : (1 + damping) * (b / (1 + damping)) = b := mul_div_cancel₀ b (by linarith)
    generalize b / (1 + damping) = z at hleast hscaled ⊢
    subst hscaled
    have hsplit : (1 + damping) * (y - z) ^ 2 ≤ 0 := by nlinarith
    have hsquare : (y - z) ^ 2 ≤ 0 := nonpos_of_mul_nonpos_right hsplit (by linarith)
    exact sub_eq_zero.mp ((sq_nonpos_iff _).mp hsquare)
  rw [hpiece, hsame]

/-- A solver returns that step when the damping is above the tolerance. -/
theorem solve_damped_problem {b damping : ℝ} (hb : b ^ 2 ≤ 1) (hdamping : 0 < damping)
    (hlarge : pivotTolerance ^ 2 * (1 + damping) < damping) (net : Option (BayesNet ℝ)) :
    (SequentialSolver.solve ⟨alone, sizes, net⟩ ((problem b).damped damping sizes)).result =
      .ok ⟨[(.number 0, [b / (1 + damping)])]⟩ := by
  have hg := (problem_fits b).damped (.refl _) damping
  have hscale : √(1 + damping) ^ 2 = 1 + damping := Real.sq_sqrt (by linarith)
  have hrhs : ((problem b).damped damping sizes).misfit 0 = b ^ 2 := by
    simp [misfit_damped_problem b hdamping.le]
  have hcolumn : curvature ((problem b).damped damping sizes).misfit (.unit (.number 0) 0) =
      1 + damping := by
    simp only [curvature, misfit_damped_problem b hdamping.le]
    simp only [Assignment.unit, Pi.neg_apply, Pi.zero_apply, and_self, if_true]
    ring
  have hscaled : IsScaled alone sizes ((problem b).damped damping sizes).misfit √(1 + damping) := by
    refine ⟨by rw [hrhs, hscale]; linarith, fun key hkey j hj => ?_⟩
    obtain rfl := List.mem_singleton.mp hkey
    obtain rfl : j = 0 := Nat.lt_one_iff.mp hj
    rw [hcolumn, hscale]
  have hsteep : IsSteep alone sizes ((problem b).damped damping sizes).misfit
      (pivotTolerance * √(1 + damping)) :=
    LinearGraph.isSteep_damped (problem_fits b) (.refl _) (by rwa [mul_pow, hscale])
  obtain ⟨d, hd, -⟩ := both_return fresh_reachable hg net (Real.one_le_sqrt.mpr (by linarith))
    hscaled hsteep
  rw [hd, eq_of_isSolvedBy_damped hdamping (SequentialSolver.isSolvedBy_of_solve _ hg.accords hd)]

end OneNumber

/-! ### A number that is free -/

namespace OneNumber

/-- No equation is about the number. -/
def free : LinearGraph ℝ := ⟨[]⟩

theorem free_fits : free.Fits alone.keys sizes := by
  refine ⟨by decide, ?_, by simp [free], by simp [free]⟩
  exact List.forall_mem_singleton.mpr ⟨1, rfl, Nat.one_pos⟩

theorem free_matrix : free.stackedMatrix alone.keys sizes = .ok ⟨1, []⟩ := rfl

/-- The number itself is a direction that only the damping sees. -/
theorem free_pivot {damping bound : ℝ} (h : damping ≤ bound ^ 2) :
    free.HasDampedPivotWithin alone.keys sizes damping bound := by
  refine ⟨_, free_matrix, (0 : Fin 1), fun _ => 1, rfl, fun (i : Fin 1) hi => ?_, ?_⟩
  · rw [Subsingleton.elim i 0] at hi
    exact absurd hi (lt_irrefl _)
  · simpa [dotProduct] using h

/-- **A tiny damping does not determine a number that is free.**  Both solvers name it. -/
theorem free_tiny_damping : free.Fits alone.keys sizes ∧ alone.keys.Perm sizes.keys ∧
    fresh.Reachable alone sizes ∧ (0 : ℝ) < 1e-20 ∧
    (SequentialSolver.solve ⟨alone, sizes, none⟩ (free.damped 1e-20 sizes)).result =
      .error (.indeterminate (.number 0)) ∧
    (fresh.solve (free.damped 1e-20 sizes)).result = .error (.indeterminate (.number 0)) := by
  have hperm : alone.keys.Perm sizes.keys := .refl _
  have hpivot : (1e-20 : ℝ) ≤ Elimination.pivotTolerance ^ 2 := by norm_num [Elimination.pivotTolerance]
  have hflat := (free_pivot hpivot).not_isSteep free_fits hperm (by norm_num)
  obtain ⟨⟨key, hkey, hone⟩, key', hkey', hother⟩ :=
    both_name fresh_reachable (free_fits.damped hperm 1e-20) none hflat
  obtain rfl := List.mem_singleton.mp hkey
  obtain rfl := List.mem_singleton.mp hkey'
  exact ⟨free_fits, hperm, fresh_reachable, by norm_num, hone, hother⟩

end OneNumber

end LeastSquares
