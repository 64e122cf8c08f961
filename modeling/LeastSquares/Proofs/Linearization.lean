/-
  LeastSquares/Proofs/Linearization.lean
  ======================================
  **Linearization gives problems that can be eliminated.**

  Around an estimate a regular graph is a linear problem whose blocks have the sizes of the variables, and
  it stays one with damping.
-/
import LeastSquares.Optimize
import LeastSquares.Proofs.ArrayFactors
import LeastSquares.Proofs.MissingVariables
import LeastSquares.Proofs.RegularGraphs

namespace LeastSquares

variable {α : Type}

/-! ### Residuals -/

variable [Scalar α]

theorem Measurement.IsRegular.residual {m : Measurement α} (hm : m.IsRegular) {point : Table (Vec α)}
    {r : Tensor α} (h : m.residual point = .ok r) : r.IsRegular := by
  obtain ⟨-, harrays⟩ := hm
  cases m with
  | prior key value =>
    obtain ⟨x, -, h⟩ := bind_eq_ok.mp h
    exact (Tensor.isRegular_ofVector x).combine harrays h
  | between first second value =>
    obtain ⟨b, -, h⟩ := bind_eq_ok.mp h
    obtain ⟨a, -, h⟩ := bind_eq_ok.mp h
    obtain ⟨difference, -, h⟩ := bind_eq_ok.mp h
    exact (Tensor.isRegular_ofVector difference).combine harrays h
  | range first second distance =>
    obtain ⟨b, -, h⟩ := bind_eq_ok.mp h
    obtain ⟨a, -, h⟩ := bind_eq_ok.mp h
    obtain ⟨difference, -, h⟩ := bind_eq_ok.mp h
    cases h
    exact Tensor.isRegular_ofVector _
  | posePrior key pose =>
    obtain ⟨x, -, h⟩ := bind_eq_ok.mp h
    obtain ⟨measured, -, h⟩ := bind_eq_ok.mp h
    obtain ⟨actual, -, h⟩ := bind_eq_ok.mp h
    cases h
    exact Tensor.isRegular_ofVector _
  | poseBetween first second pose =>
    obtain ⟨xs, -, rfl⟩ := map_eq_ok.mp h
    exact Tensor.isRegular_ofVector xs
  | custom keys function derivative =>
    obtain ⟨xs, -, rfl⟩ := map_eq_ok.mp h
    exact Tensor.isRegular_ofVector xs

theorem Factor.isRegular_of_whitened {f : Factor α} (hf : f.measurement.IsRegular) {point : Table (Vec α)}
    {w : Tensor α} (h : f.whitened point = .ok w) : w.IsRegular := by
  obtain ⟨noise, -, h⟩ := bind_eq_ok.mp h
  obtain ⟨residual, hresidual, h⟩ := bind_eq_ok.mp h
  exact (hf.residual hresidual).combine (Tensor.isRegular_ofVector _) h

/-! ### Derivatives -/

theorem Mat.isRectangular_identity (n : ℕ) : (identity n : Mat α).IsRectangular := by
  simp [IsRectangular, identity]

omit [Scalar α] in
theorem Mat.IsRectangular.map {m : Mat α} (h : m.IsRectangular) (f : α → α) :
    (m.map f).IsRectangular :=
  List.forall_mem_map.mpr fun row hrow => (List.length_map _).trans (h row hrow)

theorem Derivative.isRectangular_of_jacobian {side : Difference} {f : VecFunction α} {x : Vec α} {h : α}
    {m : Mat α} (hm : jacobian side f x h = .ok m) : m.IsRectangular := by
  obtain ⟨start, -, hm⟩ := bind_eq_ok.mp hm
  obtain ⟨columns, hcolumns, hm⟩ := bind_eq_ok.mp hm
  cases hm
  have hcount := (mapM_eq_ok_iff.mp hcolumns).length_eq
  rw [List.length_range] at hcount
  exact List.forall_mem_map.mpr fun i _ => (List.length_map _).trans hcount.symm

theorem Derivative.isRectangular_of_blocks {f : Table (Vec α) → Except Error (Vec α)}
    {point : Table (Vec α)} {keys : List Key} {h : α} {t : Table (Mat α)}
    (ht : blocks f point keys h = .ok t) : ∀ entry ∈ t, entry.2.IsRectangular := by
  obtain ⟨rows, hrows, ht⟩ := bind_eq_ok.mp ht
  cases ht
  intro entry hentry
  obtain ⟨key, -, hkey⟩ := exists_of_mem_mapM hrows (Table.mem_of_mem_ofRows hentry)
  obtain ⟨x, -, hkey⟩ := bind_eq_ok.mp hkey
  obtain ⟨m, hm, hkey⟩ := bind_eq_ok.mp hkey
  cases hkey
  exact isRectangular_of_jacobian hm

theorem Measurement.IsRegular.derivative {m : Measurement α} (hm : m.IsRegular)
    {point : Table (Vec α)} {t : Table (Mat α)} (h : m.derivative point = .ok t) :
    ∀ entry ∈ t, entry.2.IsRectangular := by
  obtain ⟨-, harrays⟩ := hm
  cases m with
  | prior key value =>
    cases h
    exact List.forall_mem_singleton.mpr (Mat.isRectangular_identity _)
  | between first second value =>
    cases h
    refine List.forall_mem_cons.mpr ⟨(Mat.isRectangular_identity _).map _, ?_⟩
    exact List.forall_mem_singleton.mpr (Mat.isRectangular_identity _)
  | range first second distance =>
    obtain ⟨b, -, h⟩ := bind_eq_ok.mp h
    obtain ⟨a, -, h⟩ := bind_eq_ok.mp h
    obtain ⟨difference, -, h⟩ := bind_eq_ok.mp h
    cases h
    refine List.forall_mem_cons.mpr ⟨?_, List.forall_mem_singleton.mpr ?_⟩
    · exact List.forall_mem_singleton.mpr (List.length_map _)
    · exact List.forall_mem_singleton.mpr rfl
  | posePrior key pose =>
    cases h
    exact List.forall_mem_singleton.mpr (Mat.isRectangular_identity _)
  | poseBetween first second pose => exact Derivative.isRectangular_of_blocks h
  | custom keys function derivative =>
    cases derivative with
    | none => exact Derivative.isRectangular_of_blocks h
    | some derivative =>
      obtain ⟨xs, -, h⟩ := bind_eq_ok.mp h
      obtain ⟨arrays, hderivative, h⟩ := bind_eq_ok.mp h
      obtain ⟨blocks, hblocks, h⟩ := bind_eq_ok.mp h
      cases h
      intro entry hentry
      obtain ⟨array, harray, hblock⟩ := exists_of_mem_mapM hblocks (List.of_mem_zip hentry).2
      exact Mat.isRectangular_of_ofTensor (harrays xs arrays hderivative array harray) hblock

theorem Noise.isRectangular_of_whitenMat {noise : Noise α} {m w : Mat α} (hm : m.IsRectangular)
    (h : noise.whitenMat m = .ok w) : w.IsRectangular := by
  obtain ⟨rows, hrows, rfl⟩ := map_eq_ok.mp h
  obtain ⟨n, -, rfl⟩ := map_eq_ok.mp hrows
  intro row hrow
  obtain ⟨i, hi, rfl⟩ := List.getElem_of_mem hrow
  rw [List.getElem_zipWith, List.length_map]
  exact hm _ (Tensor.mem_of_mem_stretch (List.getElem_mem _))

/-! ### Linear factors -/

namespace LinearFactor

/-- A block suits sizes of variables and a number of rows. -/
structure Suits (dims : Table ℕ) (height : ℕ) (entry : Key × Mat α) : Prop where
  width_eq : dims.get? entry.1 = some entry.2.width
  height_eq : entry.2.height = height
  rectangular : entry.2.IsRectangular

omit [Scalar α] in
theorem rows_of_make {blocks : Table (Mat α)} {rhs : Tensor α} {f : LinearFactor α}
    (h : make blocks rhs = .ok f) (hrhs : rhs.IsRegular) : f.rows = rhs.outerLength := by
  obtain ⟨_, -, h⟩ := bind_eq_ok.mp h
  split at h
  · next n hshape =>
    cases h
    exact hrhs.length_data hshape
  · cases h
    rfl

omit [Scalar α] in
theorem formed_of_make {dims : Table ℕ} {blocks : Table (Mat α)} {rhs : Tensor α} {f : LinearFactor α}
    (h : make blocks rhs = .ok f) (hnodup : blocks.keys.Nodup) (hrhs : rhs.IsRegular)
    (hblocks : ∀ entry ∈ blocks, Suits dims rhs.outerLength entry) :
    f.Formed dims ∧ f.keys = blocks.keys := by
  obtain ⟨_, -, h⟩ := bind_eq_ok.mp h
  split at h
  · next n hshape =>
    cases h
    have hlength := hrhs.length_data hshape
    refine ⟨⟨hnodup, fun entry hentry => ?_⟩, rfl⟩
    obtain ⟨hwidth, hheight, hrectangular⟩ := hblocks entry hentry
    exact ⟨hwidth, hheight.trans hlength.symm, hrectangular⟩
  · cases h
    refine ⟨⟨hrhs, by rwa [Table.keys_mapEntries], List.forall_mem_map.mpr fun entry hentry => ?_⟩,
      Table.keys_mapEntries _ _⟩
    obtain ⟨hwidth, hheight, hrectangular⟩ := hblocks entry hentry
    exact ⟨hrectangular.toTensor, _, hwidth, by rw [← hheight]; rfl⟩

theorem formed_damping {dims : Table ℕ} (sigma : α) {key : Key} {n : ℕ} (h : dims.get? key = some n) :
    (damping sigma key n).Formed dims := by
  refine ⟨List.nodup_singleton key, List.forall_mem_singleton.mpr ⟨h, ?_, ?_⟩⟩
  · simp [Mat.scale, Mat.map, Mat.identity, Mat.height, Vec.zeros]
  · exact (Mat.isRectangular_identity n).map _

end LinearFactor

/-- A block that is accepted is as high as the residual and as wide as its variable. -/
theorem Factor.whitenedBlock_sizes {f : Factor α} {noise : Noise α} {values : Values α} {height : ℕ}
    {derivative : Table (Mat α)} {key : Key} {entry : Key × Mat α}
    (h : f.whitenedBlock noise values.entries height derivative key = .ok entry) :
    entry.1 = key ∧ values.dims.get? entry.1 = some entry.2.width ∧ entry.2.height = height := by
  obtain ⟨given, -, h⟩ := bind_eq_ok.mp h
  obtain ⟨block, -, h⟩ := bind_eq_ok.mp h
  obtain ⟨x, hx, h⟩ := bind_eq_ok.mp h
  split_ifs at h with hsizes
  cases h
  refine ⟨rfl, ?_, hsizes.1⟩
  rw [hsizes.2, Values.dims, Table.get?_mapEntries, Table.find_eq_ok.mp hx]
  rfl

theorem Factor.whitenedBlock_suits {f : Factor α} {noise : Noise α} {values : Values α} {height : ℕ}
    {derivative : Table (Mat α)} (hderivative : ∀ entry ∈ derivative, entry.2.IsRectangular) {key : Key}
    {entry : Key × Mat α} (h : f.whitenedBlock noise values.entries height derivative key = .ok entry) :
    entry.1 = key ∧ LinearFactor.Suits values.dims height entry := by
  obtain ⟨hkey, hwidth, hheight⟩ := whitenedBlock_sizes h
  obtain ⟨given, hgiven, h⟩ := bind_eq_ok.mp h
  obtain ⟨block, hblock, h⟩ := bind_eq_ok.mp h
  obtain ⟨x, -, h⟩ := bind_eq_ok.mp h
  split_ifs at h
  cases h
  have hmem : (key, given) ∈ derivative := mem_of_lookup (Table.find_eq_ok.mp hgiven)
  exact ⟨hkey, hwidth, hheight, Noise.isRectangular_of_whitenMat (hderivative _ hmem) hblock⟩

/-- **A regular factor becomes a formed linear factor** for the sizes of the estimate. -/
theorem Factor.linearize_formed {f : Factor α} (hf : f.measurement.IsRegular) {values : Values α}
    {linear : LinearFactor α} (h : f.linearize values.entries = .ok linear) :
    linear.Formed values.dims ∧ linear.keys = f.keys := by
  obtain ⟨noise, -, h⟩ := bind_eq_ok.mp h
  obtain ⟨r, hr, h⟩ := bind_eq_ok.mp h
  obtain ⟨derivative, hderivative, h⟩ := bind_eq_ok.mp h
  obtain ⟨blocks, hblocks, h⟩ := bind_eq_ok.mp h
  have hregular := isRegular_of_whitened hf hr
  have hblock : ∀ key entry, f.whitenedBlock noise values.entries r.outerLength derivative key =
      .ok entry → entry.1 = key ∧ LinearFactor.Suits values.dims r.outerLength entry :=
    fun key entry => whitenedBlock_suits (hf.derivative hderivative)
  have hkeys : Table.keys blocks = f.keys :=
    (map_eq_of_mapM hblocks fun key _ entry h => (hblock key entry h).1).trans (List.map_id _)
  have hsuits : ∀ entry ∈ blocks, LinearFactor.Suits values.dims r.outerLength entry := by
    intro entry hentry
    obtain ⟨key, -, h⟩ := exists_of_mem_mapM hblocks hentry
    exact (hblock key entry h).2
  have hnodup : (Table.keys blocks).Nodup := hkeys ▸ hf.nodup
  split_ifs at h with hrobust
  · -- the weight of a robust loss scales the blocks, which keeps their sizes
    have hscaled : ∀ entry ∈ Table.mapEntries blocks (·.scale (Scalar.sqrt (noise.weight r))),
        LinearFactor.Suits values.dims r.outerLength entry := by
      refine List.forall_mem_map.mpr fun entry hentry => ?_
      obtain ⟨hwidth, hheight, hrectangular⟩ := hsuits entry hentry
      exact ⟨hwidth, (List.length_map _).trans hheight, hrectangular.map _⟩
    rw [← hkeys, ← Table.keys_mapEntries blocks (·.scale (Scalar.sqrt (noise.weight r)))]
    exact LinearFactor.formed_of_make h (by rwa [Table.keys_mapEntries]) ((hregular.map _).map _)
      hscaled
  · rw [← hkeys]
    exact LinearFactor.formed_of_make h hnodup (hregular.map _) hsuits

omit [Scalar α] in
theorem Values.keys_dims (v : Values α) : v.dims.keys = v.keys := Table.keys_mapEntries _ _

/-- **A regular graph becomes a problem that is formed** for an order of the variables of the estimate and
    their sizes. -/
theorem Graph.linearize_formed {g : Graph α} (hg : g.IsRegular) {values : Values α} {keys : List Key}
    (hnodup : keys.Nodup) (hperm : keys.Perm values.keys) {linear : LinearGraph α}
    (h : g.linearize values = .ok linear) : linear.Formed keys values.dims := by
  obtain ⟨⟨⟩, hcheck, h⟩ := bind_eq_ok.mp h
  obtain ⟨factors, hfactors, h⟩ := bind_eq_ok.mp h
  cases h
  have hall : ∀ linear ∈ factors, ∃ f ∈ g.factors, linear.Formed values.dims ∧ linear.keys = f.keys := by
    intro linear hlinear
    obtain ⟨f, hf, hlinearize⟩ := exists_of_mem_mapM hfactors hlinear
    exact ⟨f, hf, f.linearize_formed (hg f hf) hlinearize⟩
  refine ⟨hnodup, fun key hkey => ?_, fun linear hlinear => ?_, fun linear hlinear key hkey => ?_⟩
  · refine Table.exists_get?_of_mem_keys ?_
    rw [Values.keys_dims]
    exact hperm.subset hkey
  · obtain ⟨f, -, hformed, -⟩ := hall linear hlinear
    exact hformed
  · obtain ⟨f, hf, -, hkeys⟩ := hall linear hlinear
    exact hperm.symm.subset (covered_of_checkKeys hcheck f hf key (hkeys ▸ hkey))

/-- Damping keeps a problem formed. -/
theorem LinearGraph.Formed.damped {g : LinearGraph α} {keys : List Key} {dims : Table ℕ}
    (h : g.Formed keys dims) (hperm : keys.Perm dims.keys) (damping : α) :
    (g.damped damping dims).Formed keys dims := by
  have hdims : dims.keys.Nodup := hperm.nodup_iff.mp h.nodup
  refine ⟨h.nodup, h.sized, fun f hf => ?_, fun f hf => ?_⟩
  · rcases List.mem_append.mp hf with hf | hf
    · exact h.formed f hf
    · obtain ⟨row, hrow, rfl⟩ := List.mem_map.mp hf
      exact LinearFactor.formed_damping _ (Table.get?_of_mem hdims hrow)
  · rcases List.mem_append.mp hf with hf | hf
    · exact h.listed f hf
    · obtain ⟨row, hrow, rfl⟩ := List.mem_map.mp hf
      exact List.forall_mem_singleton.mpr (hperm.symm.subset (List.mem_map_of_mem hrow))

end LeastSquares
