/-
  LeastSquares/Proofs/RankReports.lean
  ====================================
  **Rank and nullity make up the components of the variables, unless there are no residuals.**

  A matrix with entries has as many singular values as the smaller of its height and its width, since the
  rotations replace vectors by vectors.  So its rank is at most both, and what the rank lacks of the width
  is the nullity.  The stacked matrix of a graph has a column for each component of the variables and a row
  for each residual.  A matrix without entries gets a report of its own, in which everything is
  determined: that is wrong where columns are there and only the rows are missing.
-/
import LeastSquares.Diagnostics
import LeastSquares.Proofs.Gradients
import LeastSquares.Proofs.ResidualSizes

namespace LeastSquares

variable {α : Type} [Scalar α]

/-! ### The number of singular values -/

namespace SingularValues

@[simp] theorem length_rotateAll (u : Vec α) (vs : List (Vec α)) :
    (rotateAll u vs).2.length = vs.length := by
  induction vs generalizing u with
  | nil => rfl
  | cons v vs ih => simp [rotateAll, ih]

@[simp] theorem length_sweep (count : ℕ) (vectors : List (Vec α)) :
    (sweep count vectors).length = vectors.length := by
  induction count generalizing vectors with
  | zero => rfl
  | succ count ih =>
    cases vectors with
    | nil => rfl
    | cons u vs => simp [sweep, ih]

@[simp] theorem length_sweeps (vectors : List (Vec α)) (times : ℕ) :
    (sweeps vectors times).length = vectors.length := by
  induction times generalizing vectors with
  | zero => rfl
  | succ times ih => rw [sweeps, ih, length_sweep]

/-- **A matrix has as many singular values as the smaller of its height and its width.** -/
theorem length_ofMat (m : Mat α) : (ofMat m).length = min m.height m.width := by
  have hheight : ∀ f : α → α, (m.map f).height = m.height := fun f => List.length_map _
  simp only [ofMat, List.length_mergeSort, List.length_map, length_sweeps]
  split_ifs with hlow
  · rw [← Mat.height, hheight]
    rw [hheight] at hlow
    exact (Nat.min_eq_left hlow).symm
  · rw [columnsOf, List.length_map, List.length_range]
    rw [hheight] at hlow
    exact (Nat.min_eq_right (Nat.le_of_not_le hlow)).symm

end SingularValues

/-! ### The report on a matrix -/

/-- A report on a matrix with entries: the nullity is what the rank lacks of the width. -/
structure RankReport.Fills (report : RankReport α) (height width : ℕ) : Prop where
  rank_le : report.rank ≤ min height width
  nullity_eq : report.nullity = (width : ℤ) - report.rank
  shape_eq : report.shape = some [height, width]

namespace Diagnostics

variable {report : RankReport α} {tolerance : Given α}

theorem fills_of_rankOf {height width : ℕ} {values : List α} (hlength : values.length = min height width)
    (h : rankOf height width values tolerance = .ok report) : report.Fills height width := by
  obtain ⟨rank, hrank, h⟩ := bind_eq_ok.mp h
  cases h
  refine ⟨?_, rfl, rfl⟩
  rw [← hlength]
  split_ifs at hrank
  · obtain ⟨bound, -, rfl⟩ := map_eq_ok.mp hrank
    exact List.length_filter_le _ _
  · cases hrank
    exact Nat.zero_le _

/-- A matrix without entries has the report in which all is determined; any other has its own. -/
theorem rankOfMat_cases {m : Mat α} (h : rankOfMat m tolerance = .ok report) :
    m.height * m.width = 0 ∧ report = emptyRank ∨
      m.height * m.width ≠ 0 ∧ report.Fills m.height m.width := by
  rw [rankOfMat] at h
  split_ifs at h with hempty hfinite
  · exact .inl ⟨hempty, (Except.ok.inj h).symm⟩
  · exact .inr ⟨hempty, fills_of_rankOf (SingularValues.length_ofMat m) h⟩

end Diagnostics

/-! ### The size of the stacked matrix -/

namespace LinearFactor

variable {dims offsets : Table ℕ}

theorem length_sparseBlocks {height : ℕ} {blocks : Table (Mat α)} {rows : List (SparseRow α)}
    (hblocks : ∀ entry ∈ blocks, entry.2.height = height)
    (h : sparseBlocks offsets height blocks = .ok rows) : rows.length = height := by
  refine foldlM_keeps (P := fun rows => rows.length = height) ?_ List.length_replicate h
  intro rows entry hentry next hrows hnext
  obtain ⟨offset, -, hnext⟩ := bind_eq_ok.mp hnext
  cases hnext
  rw [List.length_zipWith, hrows, ← Mat.height, hblocks entry hentry, Nat.min_self]

/-- The rows of a factor are as many as its right-hand side has. -/
theorem Formed.length_sparseRows {f : LinearFactor α} (hf : f.Formed dims) {rows : List (SparseRow α)}
    (h : f.sparseRows offsets = .ok rows) : rows.length = f.rows := by
  cases f with
  | dense blocks rhs => exact length_sparseBlocks (fun entry hentry => (hf.2 entry hentry).2.1) h
  | arrays blocks rhs =>
    obtain ⟨-, -, hblocks⟩ := hf
    obtain ⟨matrices, hmatrices, h⟩ := bind_eq_ok.mp h
    refine length_sparseBlocks (fun entry hentry => ?_) h
    obtain ⟨given, hgiven, hentry⟩ := exists_of_mem_mapM hmatrices hentry
    obtain ⟨block, hblock, hentry⟩ := bind_eq_ok.mp hentry
    obtain ⟨offset, -, hentry⟩ := bind_eq_ok.mp hentry
    cases hentry
    obtain ⟨-, n, -, hshape⟩ := hblocks given hgiven
    simp only [Mat.ofTensor, Mat.ofTensor?, hshape] at hblock
    cases hblock
    exact Tensor.length_cut _ _ _

end LinearFactor

theorem Table.widthOf_keys {dims : Table ℕ} (hnodup : dims.keys.Nodup) :
    dims.widthOf dims.keys = total (dims.map (·.2)) := by
  have hsum : ∀ ns : List ℕ, total ns = ns.sum := fun ns => by
    induction ns with
    | nil => rfl
    | cons n ns ih => rw [total, ih, List.sum_cons]
  rw [widthOf, hsum, keys, List.map_map]
  exact congrArg List.sum (List.map_congr_left fun row hrow => dimOf_eq (get?_of_mem hnodup hrow))

/-- The stacked matrix has the rows of all factors, and a column for each component of the variables. -/
theorem LinearGraph.stackedMatrix_size {g : LinearGraph α} {keys : List Key} {dims : Table ℕ}
    (hg : ∀ f ∈ g.factors, f.Formed dims) {A : Sparse α} (h : g.stackedMatrix keys dims = .ok A) :
    A.toMat.height = total (g.factors.map (·.rows)) ∧ A.toMat.width = dims.widthOf keys := by
  obtain ⟨⟨offsets, width⟩, hcolumns, h⟩ := bind_eq_ok.mp h
  obtain ⟨rows, hrows, h⟩ := bind_eq_ok.mp h
  simp only at h
  split_ifs at h
  · cases h
  cases h
  have hlengths : rows.map List.length = g.factors.map (·.rows) :=
    map_eq_of_mapM hrows fun f hf _ => (hg f hf).length_sparseRows
  refine ⟨?_, (columnOffsets_eq_ok hcolumns).2.1⟩
  simp only [Mat.height, Sparse.toMat, List.length_map]
  rw [← total_map_length, hlengths]

/-- A linearized factor has as many rows as the whitened residual is long. -/
theorem Factor.rows_of_linearize {f : Factor α} (hf : f.measurement.IsRegular) {point : Table (Vec α)}
    {linear : LinearFactor α} (h : f.linearize point = .ok linear) :
    ∃ w, f.whitened point = .ok w ∧ linear.rows = w.outerLength := by
  obtain ⟨noise, -, h⟩ := bind_eq_ok.mp h
  obtain ⟨w, hw, h⟩ := bind_eq_ok.mp h
  obtain ⟨derivative, -, h⟩ := bind_eq_ok.mp h
  obtain ⟨blocks, -, h⟩ := bind_eq_ok.mp h
  have hregular := (isRegular_of_whitened hf hw).map fun x => -x
  refine ⟨w, hw, ?_⟩
  split_ifs at h
  · exact (LinearFactor.rows_of_make h (hregular.map _)).trans rfl
  · exact (LinearFactor.rows_of_make h hregular).trans rfl

/-- **The stacked matrix of a graph has a row for each residual and a column for each component.** -/
theorem Graph.stackedMatrix_size {g : Graph α} (hg : g.IsRegular) {values : Values α}
    (hvalues : values.keys.Nodup) {r : Tensor α} (hr : g.residuals values = .ok r)
    {linear : LinearGraph α} (hlinear : g.linearize values = .ok linear) {A : Sparse α}
    (hA : linear.stackedMatrix values.keys values.dims = .ok A) :
    A.toMat.height = r.outerLength ∧ A.toMat.width = values.totalDim := by
  have hformed := linearize_formed hg hvalues (List.Perm.refl _) hlinear
  obtain ⟨hheight, hwidth⟩ := LinearGraph.stackedMatrix_size hformed.formed hA
  obtain ⟨⟨⟩, -, hr⟩ := bind_eq_ok.mp hr
  obtain ⟨whitened, hwhitened, hr⟩ := bind_eq_ok.mp hr
  obtain ⟨⟨⟩, -, hlinear⟩ := bind_eq_ok.mp hlinear
  obtain ⟨factors, hfactors, hlinear⟩ := bind_eq_ok.mp hlinear
  cases hlinear
  -- factor by factor, the rows of the linear factor are as many as the whitened residual is long
  obtain ⟨others, hothers, hlengths⟩ := exists_opposite (S := fun f w => f.whitened values.entries = .ok w)
    (p := LinearFactor.rows) (q := Tensor.outerLength) (mapM_eq_ok_iff.mp hfactors) fun f hf _ h => by
      obtain ⟨w, hw, hrows⟩ := Factor.rows_of_linearize (hg f hf) h
      exact ⟨w, hw, hrows.symm⟩
  obtain rfl : others = whitened := Except.ok.inj ((mapM_eq_ok_iff.mpr hothers).symm.trans hwhitened)
  refine ⟨?_, ?_⟩
  · rw [hheight, Tensor.outerLength_of_concatenate hr, hlengths]
  · rw [← values.keys_dims] at hvalues
    rw [hwidth, ← values.keys_dims, Table.widthOf_keys hvalues, Values.totalDim, Values.dims,
      Table.mapEntries, List.map_map]
    rfl

/-! ### The report on a graph -/

namespace Diagnostics

variable {g : Graph α} {values : Values α} {count : Given α} {d : Diagnostics α}

theorem count_of_statisticsOf {r : Tensor α} {statistics : Statistics α}
    (h : statisticsOf r = .ok statistics) : statistics.count = r.outerLength := by
  rw [statisticsOf] at h
  split_ifs at h with hempty
  · cases h
    exact hempty.symm
  · split at h
    · cases h
    · cases h
      rfl

/-- The parts of the diagnostics that depend on the stacked matrix. -/
theorem compute_rank (h : compute g values count = .ok d) :
    ∃ r linear A, g.residuals values = .ok r ∧ g.linearize values = .ok linear ∧
      linear.stackedMatrix values.keys values.dims = .ok A ∧ d.statistics.count = r.outerLength ∧
      rankOfMat A.toMat (.real defaultTolerance) = .ok d.rank := by
  obtain ⟨rows, -, h⟩ := bind_eq_ok.mp h
  obtain ⟨r, hr, h⟩ := bind_eq_ok.mp h
  obtain ⟨linear, hlinear, h⟩ := bind_eq_ok.mp h
  obtain ⟨⟨A, b⟩, hstacked, h⟩ := bind_eq_ok.mp h
  obtain ⟨listed, -, h⟩ := bind_eq_ok.mp h
  obtain ⟨statistics, hstatistics, h⟩ := bind_eq_ok.mp h
  obtain ⟨rank, hrank, h⟩ := bind_eq_ok.mp h
  obtain ⟨summary, -, h⟩ := bind_eq_ok.mp h
  cases h
  obtain ⟨A', hA, hstacked⟩ := bind_eq_ok.mp hstacked
  obtain ⟨b', -, hstacked⟩ := bind_eq_ok.mp hstacked
  cases hstacked
  exact ⟨r, linear, A, hr, hlinear, hA, count_of_statisticsOf hstatistics, hrank⟩

/-- **Rank and nullity make up the components of the variables just where there are residuals**, or no
    components.  Then the rank is at most the number of either, and no less than zero are left free.
    Without residuals all components are free, but both are reported as zero. -/
theorem rank_add_nullity (hg : g.IsRegular) (hvalues : values.keys.Nodup)
    (h : compute g values count = .ok d) :
    (d.rank.rank + d.rank.nullity = (values.totalDim : ℤ) ↔
      d.statistics.count ≠ 0 ∨ values.totalDim = 0) ∧
    (d.statistics.count ≠ 0 → values.totalDim ≠ 0 →
      d.rank.Fills d.statistics.count values.totalDim ∧ 0 ≤ d.rank.nullity) ∧
    (d.statistics.count = 0 ∨ values.totalDim = 0 → d.rank = emptyRank) ∧
    ∃ r, g.residuals values = .ok r ∧ d.statistics.count = r.outerLength := by
  obtain ⟨r, linear, A, hr, hlinear, hA, hcount, hrank⟩ := compute_rank h
  obtain ⟨hheight, hwidth⟩ := Graph.stackedMatrix_size hg hvalues hr hlinear hA
  have hcases := rankOfMat_cases hrank
  rw [hheight, hwidth, ← hcount, Nat.mul_ne_zero_iff, Nat.mul_eq_zero] at hcases
  obtain ⟨hempty, hreport⟩ | ⟨⟨hrows, hcolumns⟩, hfills⟩ := hcases
  · have hsum : (d.rank.rank : ℤ) + d.rank.nullity = 0 := by rw [hreport]; rfl
    refine ⟨?_, ?_, fun _ => hreport, r, hr, hcount⟩
    · rw [hsum]
      omega
    · intro hrows hcolumns
      exact absurd hempty (not_or.mpr ⟨hrows, hcolumns⟩)
  · refine ⟨?_, ?_, ?_, r, hr, hcount⟩
    · rw [hfills.nullity_eq, add_sub_cancel]
      exact iff_of_true rfl (.inl hrows)
    · intro _ _
      have hrank := hfills.rank_le
      refine ⟨hfills, ?_⟩
      rw [hfills.nullity_eq]
      omega
    · intro hempty
      exact absurd hempty (not_or.mpr ⟨hrows, hcolumns⟩)

end Diagnostics

/-! ### Without residuals -/

namespace Unconstrained

/-- A variable of two components. -/
noncomputable def estimate : Values ℝ := ⟨[(.number 0, [0, 0])]⟩

/-- **Nothing is reported as free** about two components that no factor refers to. -/
theorem free_unreported : (⟨[]⟩ : Graph ℝ).IsRegular ∧ estimate.keys.Nodup ∧ estimate.totalDim = 2 ∧
    ∃ d, Diagnostics.compute ⟨[]⟩ estimate .null = .ok d ∧ d.rank.rank = 0 ∧ d.rank.nullity = 0 :=
  ⟨by simp [Graph.IsRegular], by decide, rfl, _, rfl, rfl, rfl⟩

end Unconstrained

namespace OneDeviation

/-- Finite entries and a number as the tolerance are all that a report needs. -/
theorem exists_rankOfMat (m : Mat ℝ) (tolerance : ℝ) :
    ∃ report, Diagnostics.rankOfMat m (.real tolerance) = .ok report := by
  rw [Diagnostics.rankOfMat, Vec.isFinite_real]
  by_cases hempty : m.height * m.width = 0
  · exact ⟨_, if_pos hempty⟩
  · rw [if_neg hempty]
    by_cases hpositive : 0 < (SingularValues.ofMat m).headD 0
    · exact ⟨_, bind_eq_ok.mpr ⟨_, (if_pos hpositive).trans rfl, rfl⟩⟩
    · exact ⟨_, bind_eq_ok.mpr ⟨_, if_neg hpositive, rfl⟩⟩

/-- The number one, which is to be zero. -/
def apart : Values ℝ := ⟨[(.number 0, [1])]⟩

/-- One measurement of a number leaves nothing free. -/
theorem rank_add_nullity_apart : (graph 1).IsRegular ∧ apart.keys.Nodup ∧
    ∃ d, Diagnostics.compute (graph 1) apart .null = .ok d ∧ d.rank.rank + d.rank.nullity = 1 := by
  have hregular : (graph 1).IsRegular :=
    List.forall_mem_singleton.mpr (Measurement.isRegular_prior _ _)
  have hnodup : apart.keys.Nodup := by decide
  obtain ⟨blocks, rhs, hlinear⟩ : ∃ blocks rhs, (graph 1).linearize apart = .ok ⟨[.dense blocks rhs]⟩ :=
    ⟨_, _, rfl⟩
  have hformed := Graph.linearize_formed hregular hnodup (List.Perm.refl _) hlinear
  have hfits : (LinearFactor.dense blocks rhs).Formed apart.dims := hformed.formed _ (List.mem_singleton_self _)
  have haccords : LinearGraph.Accords ⟨[.dense blocks rhs]⟩ apart.keys apart.dims :=
    ⟨hformed.nodup, hformed.sized, List.forall_mem_singleton.mpr hfits, hformed.listed⟩
  obtain ⟨A, hA, -⟩ := LinearGraph.stackedMatrix_spec haccords
  have hstacked : LinearGraph.stacked ⟨[.dense blocks rhs]⟩ apart.keys apart.dims = .ok (A, _) :=
    bind_eq_ok.mpr ⟨A, hA, bind_eq_ok.mpr ⟨_, LinearGraph.stackedRhs_of_fits haccords.fits, rfl⟩⟩
  obtain ⟨report, hreport⟩ := exists_rankOfMat A.toMat Diagnostics.defaultTolerance
  obtain ⟨d, hd⟩ : ∃ d, Diagnostics.compute (graph 1) apart .null = .ok d :=
    ⟨_, bind_eq_ok.mpr ⟨_, rfl, bind_eq_ok.mpr ⟨_, rfl, bind_eq_ok.mpr ⟨_, hlinear,
      bind_eq_ok.mpr ⟨_, hstacked, bind_eq_ok.mpr ⟨_, rfl, bind_eq_ok.mpr ⟨_, rfl,
      bind_eq_ok.mpr ⟨report, hreport, rfl⟩⟩⟩⟩⟩⟩⟩⟩
  obtain ⟨hsum, -, -, r, hr, hcount⟩ := Diagnostics.rank_add_nullity hregular hnodup hd
  refine ⟨hregular, hnodup, d, hd, hsum.mpr (.inl ?_)⟩
  obtain rfl := Except.ok.inj (hr.symm.trans rfl)
  rw [hcount]
  decide

end OneDeviation

end LeastSquares
