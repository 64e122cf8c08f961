/-
  LeastSquares/Proofs/StackedProblems.lean
  ========================================
  **The stacked matrix of a problem lists what its factors leave, in every order of the variables.**

  The stacked matrix applied to the vector of a step, less the right-hand side, is what the factors leave
  at the step, one factor after another; so half its square is the cost of the step, and the normal
  equations are those of the matrix.  A column is what the factors gain from one component of one
  variable, wherever the variable stands; so another order of the variables carries the columns of each
  variable to its new place, and with them the rows and columns of the normal matrix.
-/
import LeastSquares.Proofs.IteratedSolutions

namespace LeastSquares

open Vec Matrix

variable {dims : Table ℕ} {keys others : List Key}

/-! ### Columns in another order -/

namespace Table

/-- Every column belongs to one component of one variable. -/
theorem columnOf_inj (dims : Table ℕ) {key other : Key} (hkey : key ∈ keys) (hother : other ∈ keys)
    {j k : ℕ} (hj : j < dims.dimOf key) (hk : k < dims.dimOf other)
    (h : dims.columnOf keys key + j = dims.columnOf keys other + k) : key = other ∧ j = k := by
  by_cases hsame : key = other
  · subst hsame
    exact ⟨rfl, Nat.add_left_cancel h⟩
  · have hapart := columnOf_disjoint dims hkey hother hsame
    omega

/-- A rearrangement of columns carries the columns of each variable in one order to its columns in
    another. -/
def Carries (dims : Table ℕ) (others keys : List Key)
    (σ : Fin (dims.widthOf others) ≃ Fin (dims.widthOf keys)) : Prop :=
  ∀ key ∈ keys, ∀ j < dims.dimOf key, ∀ i : Fin (dims.widthOf others),
    (i : ℕ) = dims.columnOf others key + j → (σ i : ℕ) = dims.columnOf keys key + j

/-- **Another order of the variables rearranges their columns.** -/
theorem exists_carries (dims : Table ℕ) (hnodup : keys.Nodup) (hperm : others.Perm keys) :
    ∃ σ, dims.Carries others keys σ := by
  have hwidth : dims.widthOf others = dims.widthOf keys := (hperm.map dims.dimOf).sum_eq
  have hplace : ∀ i : Fin (dims.widthOf others), ∃ c : Fin (dims.widthOf keys), ∃ key ∈ keys,
      ∃ j < dims.dimOf key, (i : ℕ) = dims.columnOf others key + j ∧
        (c : ℕ) = dims.columnOf keys key + j := by
    intro i
    obtain ⟨key, hkey, j, hj, hi⟩ := exists_columnOf (hperm.nodup_iff.mpr hnodup) i.isLt
    have hlisted := hperm.mem_iff.mp hkey
    have hroom := columnOf_add_dimOf_le dims hlisted
    exact ⟨⟨dims.columnOf keys key + j, by omega⟩, key, hlisted, j, hj, hi, rfl⟩
  choose moved hmoved using hplace
  have hinjective : Function.Injective moved := by
    intro a b hab
    obtain ⟨key, hkey, j, hj, ha, hc⟩ := hmoved a
    obtain ⟨other, hother, k, hk, hb, hd⟩ := hmoved b
    obtain ⟨rfl, rfl⟩ := columnOf_inj dims hkey hother hj hk (by rw [← hc, ← hd, hab])
    exact Fin.ext (ha.trans hb.symm)
  have hbijective : Function.Bijective moved :=
    (Fintype.bijective_iff_injective_and_card moved).mpr ⟨hinjective, by simp [hwidth]⟩
  refine ⟨Equiv.ofBijective moved hbijective, fun key hkey j hj i hi => ?_⟩
  obtain ⟨other, hother, k, hk, hi', hc⟩ := hmoved i
  obtain ⟨rfl, rfl⟩ := columnOf_inj dims (hperm.mem_iff.mpr hkey) (hperm.mem_iff.mpr hother) hj hk
    (hi.symm.trans hi')
  exact hc

end Table

/-! ### What is stacked -/

namespace LinearGraph

variable {g : LinearGraph ℝ}

/-- **The columns of a stacked matrix go with their variables**: two matrices that take what the factors
    miss as their values, for two orders of the variables, have the same columns. -/
theorem eq_submatrix (hnodup : keys.Nodup) (hperm : others.Perm keys)
    {σ : Fin (dims.widthOf others) ≃ Fin (dims.widthOf keys)} (hσ : dims.Carries others keys σ)
    {A : Matrix (Fin g.rhs.length) (Fin (dims.widthOf keys)) ℝ}
    {B : Matrix (Fin g.rhs.length) (Fin (dims.widthOf others)) ℝ}
    (hA : ∀ x, List.ofFn (A *ᵥ x.columns dims keys - g.rhs.get) = g.missed x)
    (hB : ∀ x, List.ofFn (B *ᵥ x.columns dims others - g.rhs.get) = g.missed x) :
    B = A.submatrix id σ := by
  have hnodup' := hperm.nodup_iff.mpr hnodup
  ext r i
  -- the column belongs to a component of a variable, and both matrices are read where only that is one
  obtain ⟨key, hkey, j, hj, hi⟩ := Table.exists_columnOf hnodup' i.isLt
  have hlisted := hperm.mem_iff.mp hkey
  have hvalues := List.ofFn_injective ((hB (.unit key j)).trans (hA (.unit key j)).symm)
  rw [sub_left_inj, Assignment.columns_unit hnodup' hkey hj hi,
    Assignment.columns_unit hnodup hlisted hj (hσ key hlisted j hj i hi), mulVec_single_one,
    mulVec_single_one] at hvalues
  exact congrFun hvalues r

/-- **The stacked matrix of a problem**, with its columns in the order of given variables, and its normal
    equations are formed for every problem that accords with them.  Applied to the vector of any step on
    these variables the matrix gives, beyond the right-hand side, what the factors leave, one after
    another, and the cost of the step is half the square of that; the normal equations are those of the
    matrix; and in another order of the variables the columns of the matrix, the rows and columns of the
    normal matrix and the entries of the gradient are those of the same variables. -/
theorem stacked_lists_residuals (hg : g.Accords keys dims) :
    ∃ A : Matrix (Fin g.rhs.length) (Fin (dims.widthOf keys)) ℝ,
      g.HasStacked keys dims A ∧ g.HasNormal keys dims (Aᵀ * A) (Aᵀ *ᵥ g.rhs.get) ∧
      (∀ d : Delta ℝ, d.Covers keys dims → ∃ (x : Fin (dims.widthOf keys) → ℝ)
        (residuals : List (Vec ℝ)), d.vectorOf keys = .ok (List.ofFn x) ∧
        g.factors.mapM (LinearFactor.residual · d) = .ok (residuals.map Tensor.ofVector) ∧
        List.ofFn (A *ᵥ x - g.rhs.get) = residuals.flatten ∧
        g.cost d = .ok (1 / 2 * distanceSq A g.rhs.get x)) ∧
      ∀ others : List Key, others.Perm keys → ∃ σ, dims.Carries others keys σ ∧
        g.HasStacked others dims (A.submatrix id σ) ∧
        g.HasNormal others dims ((Aᵀ * A).submatrix σ σ) ((Aᵀ *ᵥ g.rhs.get) ∘ σ) := by
  obtain ⟨A, hstacked, hnormal, hmissed⟩ := exists_stacked_normal hg
  refine ⟨A, hstacked, hnormal, fun d hd => ?_, fun others hperm => ?_⟩
  · have hcovers : ∀ f ∈ g.factors, d.Covers f.keys dims := fun f hf key hkey =>
      hd key (hg.listed f hf key hkey)
    refine ⟨d.assignment.columns dims keys, g.factors.map (LinearFactor.missed d.assignment),
      hd.vectorOf_eq_columns, ?_, (hmissed d.assignment).trans List.flatMap_def, ?_⟩
    · rw [List.map_map]
      exact mapM_eq_ok_map fun f hf => LinearFactor.residual_of_covers (hg.fits f hf) (hcovers f hf)
    · rw [cost_of_blocks hg.fits hcovers, misfit_eq_of_missed (hmissed _)]
  · obtain ⟨σ, hσ⟩ := dims.exists_carries hg.nodup hperm
    obtain ⟨B, hstacked', hnormal', hmissed'⟩ := exists_stacked_normal (hg.perm hperm)
    obtain rfl := eq_submatrix hg.nodup hperm hσ hmissed hmissed'
    exact ⟨σ, hσ, hstacked', hnormal'⟩

/-! ### Variables of different sizes -/

namespace Uneven

/-- Three variables, the second of which has two components. -/
def sizes : Table ℕ := [(.name "a", 1), (.name "b", 2), (.name "c", 1)]

/-- A factor on two of the variables, one on none, and one without rows. -/
def problem : LinearGraph ℝ :=
  ⟨[.dense [(.name "b", ⟨2, [[0, 1]]⟩), (.name "a", ⟨1, [[-1]]⟩)] [1], .dense [] [1],
    .dense [(.name "b", ⟨2, []⟩)] []]⟩

theorem accords : problem.Accords sizes.keys sizes where
  nodup := by decide
  sized := List.forall_mem_cons.mpr ⟨⟨1, rfl⟩, List.forall_mem_cons.mpr ⟨⟨2, rfl⟩,
    List.forall_mem_singleton.mpr ⟨1, rfl⟩⟩⟩
  fits := by
    refine List.forall_mem_cons.mpr ⟨⟨by decide, List.forall_mem_cons.mpr ⟨?_,
      List.forall_mem_singleton.mpr ?_⟩⟩, List.forall_mem_cons.mpr ⟨⟨by decide, by simp⟩,
      List.forall_mem_singleton.mpr ⟨by decide, List.forall_mem_singleton.mpr ?_⟩⟩⟩
    all_goals exact ⟨rfl, rfl, by simp [Mat.IsRectangular]⟩
  listed := List.forall_mem_cons.mpr ⟨by decide, List.forall_mem_cons.mpr ⟨by simp [LinearFactor.keys,
    Table.keys], List.forall_mem_singleton.mpr (by decide)⟩⟩

/-- Backwards, the columns of the three variables change places. -/
theorem stacked_lists_residuals_backwards : problem.Accords sizes.keys sizes ∧
    ∃ A : Matrix (Fin problem.rhs.length) (Fin (sizes.widthOf sizes.keys)) ℝ,
      problem.HasStacked sizes.keys sizes A ∧
        ∃ σ, sizes.Carries sizes.keys.reverse sizes.keys σ ∧
          problem.HasStacked sizes.keys.reverse sizes (A.submatrix id σ) := by
  obtain ⟨A, hstacked, -, -, horders⟩ := stacked_lists_residuals accords
  obtain ⟨σ, hσ, hstacked', -⟩ := horders sizes.keys.reverse sizes.keys.reverse_perm
  exact ⟨accords, A, hstacked, σ, hσ, hstacked'⟩

end Uneven

end LinearGraph

end LeastSquares
