/-
  LeastSquares/Proofs/DenseElimination.lean
  =========================================
  **A dense elimination splits a sum of squares.**

  In exact arithmetic the misfit of the eliminated factors is, at every assignment, what the
  conditional misses plus the misfit of the factor that is left, up to a constant that is there only
  when nothing is left on a separator.  The conditional is a triangular system for the eliminated
  variables, so they can always be chosen to miss nothing.
-/
import LeastSquares.Proofs.BackSubstitution
import LeastSquares.Proofs.Separator
import LeastSquares.Proofs.Stacking

namespace LeastSquares

open Vec

namespace Conditional

/-- A conditional whose matrices have the sizes of its variables, and whose triangle can be solved. -/
structure IsSolvable (c : Conditional ℝ) : Prop where
  triangular : Triangular.IsTriangular c.triangle
  triangle_width : c.triangle.width = c.dims.widthOf c.frontals
  coupling_width : c.coupling.width = c.dims.widthOf c.separator
  coupling_height : c.coupling.rows.length = c.triangle.rows.length
  coupling_rect : c.coupling.IsRectangular
  rhs_length : c.rhs.length = c.triangle.rows.length

/-- What a conditional misses at an assignment. -/
noncomputable def missed (c : Conditional ℝ) (x : Assignment) : Vec ℝ :=
  Vec.sub (Vec.add (c.triangle.rows.map (form · (x.along c.dims c.frontals)))
    (c.coupling.rows.map (form · (x.along c.dims c.separator)))) c.rhs

/-- The sum of the squares of what a conditional misses. -/
noncomputable def misfit (c : Conditional ℝ) (x : Assignment) : ℝ := squares (c.missed x)

end Conditional

namespace LinearFactor

theorem missed_columns (x : Assignment) (keys : List Key) (column dim : Key → ℕ)
    (rows : List (Vec ℝ)) (width : ℕ) (b : Vec ℝ → ℝ) :
    (LinearFactor.dense (keys.map fun key => (key, Mat.columns ⟨width, rows⟩ (column key) (dim key)))
        (rows.map b)).missed x =
      rows.map fun row =>
        (keys.map fun key => form ((row.drop (column key)).take (dim key)) (x key)).sum - b row := by
  have hfold : ∀ (keys : List Key) (a : Vec ℝ → ℝ),
      (keys.map fun key => (key, Mat.columns ⟨width, rows⟩ (column key) (dim key))).foldl
          (fun r entry => Vec.add r (entry.2.rows.map (form · (x entry.1)))) (rows.map a) =
        rows.map fun row => a row +
          (keys.map fun key => form ((row.drop (column key)).take (dim key)) (x key)).sum := by
    intro keys
    induction keys with
    | nil => intro a; simp
    | cons key keys ih =>
      intro a
      have hstep : Vec.add (rows.map a) ((Mat.columns ⟨width, rows⟩ (column key) (dim key)).rows.map
          (form · (x key))) =
          rows.map fun row => a row + form ((row.drop (column key)).take (dim key)) (x key) := by
        simp only [Mat.columns, List.map_map, Vec.add, List.zipWith_map, List.zipWith_self]
        rfl
      rw [List.map_cons, List.foldl_cons, hstep, ih]
      exact List.map_congr_left fun row _ => by rw [List.map_cons, List.sum_cons]; ring
  have hneg : Vec.neg (rows.map b) = rows.map fun row => -b row := by
    simp [Vec.neg, Function.comp_def]
  rw [missed, hneg, hfold]
  exact List.map_congr_left fun row _ => by ring

end LinearFactor

namespace Elimination

variable {factors : List (LinearFactor ℝ)} {frontals : List Key} {dims position : Table ℕ}

/-! ### The stacked rows -/

/-- The columns of an assignment with minus one behind them. -/
def augmented (dims : Table ℕ) (x : Assignment) (keys : List Key) (j : ℕ) : ℝ :=
  if j < dims.widthOf keys then x.along dims keys j else -1

theorem augmented_columnOf {x : Assignment} {keys : List Key} {key : Key} (h : key ∈ keys) {j : ℕ}
    (hj : j < dims.dimOf key) : augmented dims x keys (dims.columnOf keys key + j) = x key j := by
  have := Table.columnOf_add_dimOf_le dims h
  rw [augmented, if_pos (by omega), Assignment.along_columnOf x h hj]

theorem augmented_last (x : Assignment) (keys : List Key) :
    augmented dims x keys (dims.widthOf keys) = -1 := if_neg (lt_irrefl _)

/-- The factors of an elimination are stacked into rows of one width, as many as they have
    themselves, and the values of the rows are what the factors miss. -/
theorem stacked_spec {keys : List Key} {columns : Table ℕ}
    (hcolumns : ∀ key ∈ keys, columns.get? key = some (dims.columnOf keys key))
    (hfits : ∀ f ∈ factors, f.Fits dims) (hkeys : ∀ f ∈ factors, ∀ key ∈ f.keys, key ∈ keys) :
    ∃ stacked, factors.mapM (stackedRows dims columns (dims.widthOf keys)) = .ok stacked ∧
      stacked.flatten.length = total (factors.map (·.rows)) ∧
      (∀ row ∈ stacked.flatten, row.length = dims.widthOf keys + 1) ∧
      ∀ x, squares (stacked.flatten.map (form · (augmented dims x keys))) =
        (factors.map (LinearFactor.misfit x)).sum := by
  induction factors with
  | nil => exact ⟨[], rfl, rfl, by simp, by simp⟩
  | cons f factors ih =>
    obtain ⟨stacked, hstacked, hcount, hwidth, hvalues⟩ :=
      ih (fun g hg => hfits g (List.mem_cons_of_mem _ hg))
        (fun g hg => hkeys g (List.mem_cons_of_mem _ hg))
    have hf := hfits f (by simp)
    cases f with
    | arrays blocks rhs => exact hf.elim
    | dense blocks rhs =>
      obtain ⟨rows, hrows, hlength, hwide, hmissed⟩ :=
        stackBlocks_spec hcolumns (hkeys (.dense blocks rhs) (by simp)) hf
      refine ⟨rows :: stacked, ?_, ?_, ?_, ?_⟩
      · rw [List.mapM_cons, hstacked]
        simp [stackedRows, hrows, bind, Except.bind, pure, Except.pure]
      · rw [List.flatten_cons, List.length_append, hcount, hlength]
        rfl
      · intro row hrow
        rw [List.flatten_cons, List.mem_append] at hrow
        exact hrow.elim (hwide row) (hwidth row)
      · intro x
        rw [List.flatten_cons, List.map_append, squares_append, hvalues, List.map_cons, List.sum_cons,
          hmissed x _ (fun key hkey j hj => augmented_columnOf hkey hj) (augmented_last x keys)]
        rfl

/-! ### Upper and lower rows -/

theorem pivotTolerance_nonneg : (0 : ℝ) ≤ pivotTolerance := by norm_num [pivotTolerance]

theorem entries_last_column {rows : List (Vec ℝ)} {last : ℕ} (width : ℕ)
    (hrows : ∀ row ∈ rows, row.length = last + 1) :
    (Mat.columns ⟨width, rows⟩ last 1).entries = rows.map (entry · last) := by
  induction rows with
  | nil => rfl
  | cons row rows ih =>
    have hrow := hrows row (by simp)
    have htail := ih fun r hr => hrows r (List.mem_cons_of_mem _ hr)
    have hhead : (row.drop last).take 1 = [row.entry last] := by
      rw [List.drop_eq_getElem_cons (by omega), List.take_succ_cons, List.take_zero]
      simp [entry, show last < row.length by omega]
    simp only [Mat.columns, Mat.entries] at htail
    simp only [Mat.columns, Mat.entries, List.map_cons, List.flatten_cons, hhead, htail]
    rfl

namespace Course

variable {t : Course ℝ}

/-- What the rows of an elimination of fitting factors are about: columns for the eliminated
    variables and the separator, and values that are what the factors miss. -/
structure Stacks (t : Course ℝ) (factors : List (LinearFactor ℝ)) (frontals : List Key)
    (dims : Table ℕ) : Prop where
  nodup : (frontals ++ t.separator).Nodup
  columns : ∀ key ∈ frontals ++ t.separator,
    t.columns.get? key = some (dims.columnOf (frontals ++ t.separator) key)
  dims_some : ∀ key ∈ frontals ++ t.separator, ∃ n, dims.get? key = some n
  touched : ∀ key ∈ t.separator, key ∉ frontals ∧ ∃ f ∈ factors, key ∈ f.keys
  width : t.width = dims.widthOf frontals + dims.widthOf t.separator
  frontWidth : t.frontWidth = dims.widthOf frontals
  count : t.stacked.flatten.length = total (factors.map (·.rows))
  rows_length : ∀ row ∈ t.stacked.flatten, row.length = t.width + 1
  squares_rows : ∀ x, squares (t.stacked.flatten.map
      (form · (augmented dims x (frontals ++ t.separator)))) =
    (factors.map (LinearFactor.misfit x)).sum

theorem Stacks.widthOf_eq (h : t.Stacks factors frontals dims) :
    dims.widthOf (frontals ++ t.separator) = t.width := by
  rw [Table.widthOf_append, h.width]

theorem Stacks.frontWidth_le (h : t.Stacks factors frontals dims) : t.frontWidth ≤ t.width := by
  rw [h.frontWidth, h.width]
  exact Nat.le_add_right _ _

theorem Formed.stacks (h : t.Formed factors frontals dims position) (hnodup : frontals.Nodup)
    (hfits : ∀ f ∈ factors, f.Fits dims) : t.Stacks factors frontals dims := by
  obtain ⟨hseparator, hcolumns, hfront, hstacked⟩ := h
  obtain ⟨hall, hkeys⟩ := separatorOf_covers hseparator hnodup
  obtain ⟨hdims, hwidth, hcolumns⟩ := columnOffsets_eq_ok hcolumns
  obtain ⟨fronts, hfronts⟩ := hfront
  obtain ⟨-, hfrontWidth, -⟩ := columnOffsets_eq_ok hfronts
  simp only at hwidth hfrontWidth hcolumns
  obtain ⟨stacked, hsame, hcount, hlength, hvalues⟩ := stacked_spec (hcolumns hall) hfits hkeys
  rw [← hwidth, hstacked, Except.ok.injEq] at hsame
  subst hsame
  exact ⟨hall, hcolumns hall, hdims, fun key => ((separatorOf_eq_ok hseparator).2.1 key).mp,
    by rw [hwidth, Table.widthOf_append], hfrontWidth, hcount, by rw [hwidth]; exact hlength, hvalues⟩

/-- What is left on a separator are the lower rows, cut at the columns of its variables. -/
theorem Stacks.left_eq (h : t.Stacks factors frontals dims) {f : LinearFactor ℝ}
    (hleaves : t.Leaves dims (some f)) : f = .dense (t.separator.map fun key =>
      (key, t.lower.columns (dims.columnOf (frontals ++ t.separator) key) (dims.dimOf key)))
      (t.lower.columns t.width 1).entries := by
  rcases hleaves with ⟨hnone, -⟩ | ⟨-, -, blocks, hf, hblocks⟩
  · cases hnone
  have hcut : ∀ (separator : List Key) (blocks : Table (Mat ℝ)) (column : Key → ℕ),
      (∀ key ∈ separator, t.columns.get? key = some (column key)) →
      List.Forall₂ (fun key entry => ∃ column dim, t.columns.get? key = some column ∧
        dims.get? key = some dim ∧ entry = (key, t.lower.columns column dim)) separator blocks →
      blocks = separator.map fun key => (key, t.lower.columns (column key) (dims.dimOf key)) := by
    intro separator blocks column hsep hblocks
    induction hblocks with
    | nil => rfl
    | cons hhead _ ih =>
      obtain ⟨first, dim, hfirst, hdim, rfl⟩ := hhead
      have hplace := hsep _ List.mem_cons_self
      rw [hfirst, Option.some.injEq] at hplace
      rw [List.map_cons, ih fun key hkey => hsep key (List.mem_cons_of_mem _ hkey),
        Table.dimOf_eq hdim, hplace]
  rw [Option.some.inj hf, hcut t.separator blocks _
    (fun key hkey => h.columns key (List.mem_append_right _ hkey)) hblocks]

/-- The course of an elimination of fitting factors that has enough rows and no pivot that is
    zero. -/
structure IsExact (t : Course ℝ) (factors : List (LinearFactor ℝ)) (frontals : List Key)
    (dims : Table ℕ) : Prop extends t.Stacks factors frontals dims where
  height : t.frontWidth ≤ t.stacked.flatten.length
  pivots : ∀ pivot ∈ t.upper.diagonal, pivot ≠ 0

/-- Every pivot of an elimination that succeeds is greater than the tolerance. -/
theorem Succeeds.tolerance_lt (h : t.Succeeds factors frontals dims position) {pivot : ℝ}
    (hpivot : pivot ∈ t.upper.diagonal) : pivotTolerance < |pivot| := by
  have hlarge := h.pivots pivot hpivot
  rw [Scalar.abs_real, Scalar.largerOf_real, not_le] at hlarge
  have hone : (pivotTolerance : ℝ) * 1 ≤ pivotTolerance * max 1 t.greatest :=
    mul_le_mul_of_nonneg_left (le_max_left _ _) pivotTolerance_nonneg
  rw [mul_one] at hone
  exact hone.trans_lt hlarge

theorem Succeeds.isExact (h : t.Succeeds factors frontals dims position) (hnodup : frontals.Nodup)
    (hfits : ∀ f ∈ factors, f.Fits dims) : t.IsExact factors frontals dims := by
  have hstacks := h.stacks hnodup hfits
  refine ⟨hstacks, hstacks.count ▸ h.height_le, ?_⟩
  rintro pivot hpivot rfl
  have hlarge := h.tolerance_lt hpivot
  rw [abs_zero] at hlarge
  exact absurd hlarge (not_lt.mpr pivotTolerance_nonneg)

variable (h : t.IsExact factors frontals dims)

include h

theorem IsExact.reduced_rows :
    (∀ row ∈ t.reduced.rows, row.length = t.width + 1) ∧ t.upper.rows.length = t.frontWidth := by
  obtain ⟨hcount, hwidth⟩ := Triangular.length_reduceRows (t.width + 1) _ h.rows_length
  refine ⟨hwidth, ?_⟩
  have hheight := h.height
  have hle := h.frontWidth_le
  simp only [upper, Mat.top, reduced, Triangular.reduce, List.length_take, hcount]
  omega

theorem IsExact.upper_row {i : ℕ} {row : Vec ℝ} (hrow : t.upper.rows[i]? = some row) :
    row.length = t.width + 1 ∧ (∀ j < i, row.entry j = 0) ∧ row.entry i ≠ 0 := by
  have hmem : row ∈ t.reduced.rows := List.mem_of_mem_take (List.mem_of_getElem? hrow)
  have hplace : t.reduced.rows[i]? = some row := by
    have hi : i < t.frontWidth := by
      have := (List.getElem?_eq_some_iff.mp hrow).1
      rwa [h.reduced_rows.2] at this
    simpa [upper, Mat.top, List.getElem?_take_of_lt hi] using hrow
  refine ⟨h.reduced_rows.1 row hmem, fun j hj => ?_, ?_⟩
  · exact Triangular.reduceRows_trapezoidal _ _ i j hj row hplace
  · refine h.pivots _ ?_
    rw [Mat.diagonal, List.mem_iff_getElem?]
    exact ⟨i, by rw [List.getElem?_mapIdx, hrow]; rfl⟩

theorem IsExact.lower_row {row : Vec ℝ} (hrow : row ∈ t.lower.rows) :
    row.length = t.width + 1 ∧ ∀ j < t.frontWidth, row.entry j = 0 := by
  refine ⟨h.reduced_rows.1 row (List.mem_of_mem_drop hrow), fun j hj => ?_⟩
  obtain ⟨i, hi⟩ := List.mem_iff_getElem?.mp hrow
  rw [lower, Mat.below, List.getElem?_drop] at hi
  exact Triangular.reduceRows_trapezoidal _ _ (t.frontWidth + i) j (by omega) row hi

/-- The value of a row is made of its parts over the eliminated variables and over the separator,
    less its last entry. -/
theorem IsExact.form_row {row : Vec ℝ} (hrow : row.length = t.width + 1) (x : Assignment) :
    form row (augmented dims x (frontals ++ t.separator)) =
      form (row.take t.frontWidth) (x.along dims frontals) +
        form ((row.drop t.frontWidth).take (t.width - t.frontWidth)) (x.along dims t.separator) -
        row.entry t.width := by
  have hle := h.frontWidth_le
  have hwidth := h.widthOf_eq
  have hfront : form (row.take t.frontWidth) (augmented dims x (frontals ++ t.separator)) =
      form (row.take t.frontWidth) (x.along dims frontals) := by
    refine form_congr fun j hj => ?_
    rw [List.length_take] at hj
    have hj' : j < dims.widthOf frontals := by rw [← h.frontWidth]; omega
    rw [augmented, if_pos (by omega), Assignment.along_append, if_pos hj']
  have hmiddle : form ((row.drop t.frontWidth).take (t.width - t.frontWidth))
      (fun j => augmented dims x (frontals ++ t.separator) (t.frontWidth + j)) =
      form ((row.drop t.frontWidth).take (t.width - t.frontWidth)) (x.along dims t.separator) := by
    refine form_congr fun j hj => ?_
    rw [List.length_take] at hj
    rw [augmented, if_pos (by omega), Assignment.along_append, h.frontWidth, if_neg (by omega),
      Nat.add_sub_cancel_left]
  have hlast : row.drop (t.frontWidth + (t.width - t.frontWidth)) = [row.entry t.width] := by
    rw [show t.frontWidth + (t.width - t.frontWidth) = t.width by omega,
      List.drop_eq_getElem_cons (by omega), List.drop_eq_nil_of_le (by omega)]
    simp [entry, show t.width < row.length by omega]
  rw [form_take_drop row t.frontWidth (by omega), hfront,
    form_take_drop (row.drop t.frontWidth) (t.width - t.frontWidth)
      (by rw [List.length_drop]; omega), hmiddle, List.drop_drop, hlast, form_cons, form_nil]
  have hone : augmented dims x (frontals ++ t.separator)
      (t.frontWidth + (t.width - t.frontWidth + 0)) = -1 := by
    rw [show t.frontWidth + (t.width - t.frontWidth + 0) = t.width by omega, ← hwidth]
    exact augmented_last x _
  rw [hone]
  ring

theorem IsExact.conditional_isSolvable : (t.conditional frontals dims).IsSolvable := by
  have hle := h.frontWidth_le
  have hupper : ∀ row ∈ t.upper.rows, row.length = t.width + 1 := fun row hrow =>
    h.reduced_rows.1 row (List.mem_of_mem_take hrow)
  refine ⟨⟨by simp [conditional, Mat.columns, h.reduced_rows.2], ?_⟩, h.frontWidth, ?_, ?_, ?_, ?_⟩
  · intro i row hrow
    simp only [conditional, Mat.columns, List.getElem?_map, Option.map_eq_some_iff] at hrow
    obtain ⟨full, hfull, rfl⟩ := hrow
    obtain ⟨hlength, hzeros, hpivot⟩ := h.upper_row hfull
    have hi : i < t.frontWidth := by
      have := (List.getElem?_eq_some_iff.mp hfull).1
      rwa [h.reduced_rows.2] at this
    have hsame : ∀ j < t.frontWidth, entry (full.take t.frontWidth) j = full.entry j := by
      intro j hj
      simp [entry, List.getElem?_take_of_lt hj]
    simp only [List.drop_zero, Nat.zero_add]
    refine ⟨by rw [List.length_take, hlength]; exact Nat.min_eq_left (by omega), ?_, ?_⟩
    · intro j hj
      rw [hsame j (by omega)]
      exact hzeros j hj
    · rw [hsame i hi]
      exact hpivot
  · show t.width - t.frontWidth = dims.widthOf t.separator
    rw [h.width, h.frontWidth, Nat.add_sub_cancel_left]
  · simp [conditional, Mat.columns]
  · intro row hrow
    obtain ⟨full, hfull, rfl⟩ := List.mem_map.mp hrow
    have := hupper full hfull
    simp only [conditional, Mat.columns, List.length_take, List.length_drop]
    omega
  · show (Mat.columns ⟨_, t.upper.rows⟩ t.width 1).entries.length = _
    rw [entries_last_column _ hupper]
    simp [conditional, Mat.columns]

theorem IsExact.conditional_missed (x : Assignment) : (t.conditional frontals dims).missed x =
    t.upper.rows.map (form · (augmented dims x (frontals ++ t.separator))) := by
  have hupper : ∀ row ∈ t.upper.rows, row.length = t.width + 1 := fun row hrow =>
    h.reduced_rows.1 row (List.mem_of_mem_take hrow)
  have hrhs : (t.conditional frontals dims).rhs = t.upper.rows.map (entry · t.width) :=
    entries_last_column _ hupper
  rw [Conditional.missed, hrhs]
  simp only [conditional, Mat.columns, List.drop_zero, List.map_map, Vec.add, Vec.sub,
    List.zipWith_map, List.zipWith_self]
  refine List.map_congr_left fun row hrow => ?_
  rw [h.form_row (hupper row hrow)]
  rfl

theorem IsExact.form_lower {row : Vec ℝ} (hrow : row ∈ t.lower.rows) (x : Assignment) :
    form row (augmented dims x (frontals ++ t.separator)) = (t.separator.map fun key =>
      form ((row.drop (dims.columnOf (frontals ++ t.separator) key)).take (dims.dimOf key))
        (x key)).sum - row.entry t.width := by
  obtain ⟨hlength, hzeros⟩ := h.lower_row hrow
  have hle := h.frontWidth_le
  obtain ⟨-, hsepNodup, hdisjoint⟩ := List.nodup_append.mp h.nodup
  have hsep : dims.widthOf t.separator = t.width - t.frontWidth := by
    rw [h.width, h.frontWidth, Nat.add_sub_cancel_left]
  have hfront : ∀ a ∈ row.take t.frontWidth, a = 0 := by
    intro a ha
    obtain ⟨j, hj, rfl⟩ := List.mem_iff_getElem.mp ha
    rw [List.length_take] at hj
    have := hzeros j (by omega)
    simpa [entry, show j < row.length by omega] using this
  have hcolumn : ∀ (keys : List Key) (key : Key), key ∉ keys →
      dims.columnOf (keys ++ t.separator) key =
        dims.widthOf keys + dims.columnOf t.separator key := by
    intro keys key hkey
    induction keys with
    | nil => simp
    | cons first keys ih =>
      rw [List.mem_cons, not_or] at hkey
      rw [List.cons_append, Table.columnOf, if_neg hkey.1, ih hkey.2, Table.widthOf_cons,
        Nat.add_assoc]
  rw [h.form_row hlength, form_eq_zero hfront, zero_add, Assignment.form_along_eq_sum x hsepNodup
    (by rw [List.length_take, List.length_drop]; omega)]
  congr 2
  refine List.map_congr_left fun key hkey => ?_
  have hroom := Table.columnOf_add_dimOf_le dims hkey
  rw [hcolumn frontals key fun hmem => hdisjoint key hmem key hkey rfl, List.drop_take,
    List.take_take, List.drop_drop, h.frontWidth, Nat.min_eq_left (by rw [← h.frontWidth]; omega)]

/-- What is left on a separator fits its variables, and misses the values of the lower rows. -/
theorem IsExact.left_spec {f : LinearFactor ℝ} (hleaves : t.Leaves dims (some f)) :
    f.Fits dims ∧ ∀ x, f.missed x =
      t.lower.rows.map (form · (augmented dims x (frontals ++ t.separator))) := by
  obtain ⟨-, hsepNodup, -⟩ := List.nodup_append.mp h.nodup
  have hlower : ∀ row ∈ t.lower.rows, row.length = t.width + 1 := fun row hrow =>
    (h.lower_row hrow).1
  have hleft := h.left_eq hleaves
  rw [entries_last_column t.lower.width hlower] at hleft
  subst hleft
  refine ⟨⟨?_, ?_⟩, fun x => ?_⟩
  · rw [Table.keys, List.map_map]
    exact (List.map_id t.separator).symm ▸ hsepNodup
  · intro block hblock
    obtain ⟨key, hkey, rfl⟩ := List.mem_map.mp hblock
    have hmem : key ∈ frontals ++ t.separator := List.mem_append_right _ hkey
    obtain ⟨n, hn⟩ := h.dims_some key hmem
    refine ⟨by rw [Table.dimOf_eq hn]; exact hn, by simp [Mat.columns, Mat.height], ?_⟩
    intro row hrow
    obtain ⟨full, hfull, rfl⟩ := List.mem_map.mp hrow
    have hlength := hlower full hfull
    have hroom := Table.columnOf_add_dimOf_le dims hmem
    rw [Table.widthOf_append, ← h.width] at hroom
    simp only [Mat.columns, List.length_take, List.length_drop]
    omega
  · refine (LinearFactor.missed_columns x t.separator _ dims.dimOf t.lower.rows t.lower.width _).trans ?_
    exact List.map_congr_left fun row hrow => (h.form_lower hrow x).symm

theorem IsExact.squares_split (x : Assignment) :
    (factors.map (LinearFactor.misfit x)).sum = (t.conditional frontals dims).misfit x +
      squares (t.lower.rows.map (form · (augmented dims x (frontals ++ t.separator)))) := by
  have hreduced := Triangular.squares_reduceRows (t.width + 1) _ h.rows_length
    (augmented dims x (frontals ++ t.separator))
  have hsplit : Triangular.reduceRows (t.width + 1) t.stacked.flatten =
      t.upper.rows ++ t.lower.rows := (List.take_append_drop _ _).symm
  rw [hsplit, List.map_append, squares_append, h.squares_rows] at hreduced
  rw [Conditional.misfit, h.conditional_missed, hreduced]

end Course

/-- The misfit of a factor that may not be there. -/
noncomputable def leftMisfit (u : Option (LinearFactor ℝ)) (x : Assignment) : ℝ :=
  (u.map (LinearFactor.misfit x)).getD 0

/-- **A dense elimination splits the misfit of its factors**, at every assignment, into that of its
    conditional, that of the factor that is left, and a constant that nothing can make smaller.  The
    constant is there only when the separator is empty. -/
theorem eliminate_split {c : Conditional ℝ} {u : Option (LinearFactor ℝ)}
    (h : eliminate factors frontals dims position = .ok (c, u)) (hnodup : frontals.Nodup)
    (hfits : ∀ f ∈ factors, f.Fits dims) :
    c.IsSolvable ∧ (∀ f, u = some f → f.Fits dims) ∧
      ∃ rest : ℝ, 0 ≤ rest ∧ (c.separator ≠ [] → rest = 0) ∧
        (∀ x, (factors.map (LinearFactor.misfit x)).sum = c.misfit x + leftMisfit u x + rest) := by
  obtain ⟨t, ht, rfl, hleaves⟩ := eliminate_eq_ok h
  have hexact := ht.isExact hnodup hfits
  refine ⟨hexact.conditional_isSolvable, ?_, ?_⟩
  · rintro f rfl
    exact (hexact.left_spec hleaves).1
  cases u with
  | some f =>
    refine ⟨0, le_refl _, fun _ => rfl, fun x => ?_⟩
    rw [hexact.squares_split, ← (hexact.left_spec hleaves).2 x, add_zero]
    rfl
  | none =>
    rcases hleaves with ⟨-, hsep | hrows⟩ | ⟨-, -, blocks, hf, -⟩
    · -- without a separator the lower rows are their last entries, whatever the assignment
      refine ⟨squares (t.lower.rows.map fun row => -row.entry t.width), squares_nonneg _,
        fun hne => (hne hsep).elim, fun x => ?_⟩
      rw [hexact.squares_split]
      have hconstant : t.lower.rows.map (form · (augmented dims x (frontals ++ t.separator))) =
          t.lower.rows.map fun row => -row.entry t.width := by
        refine List.map_congr_left fun row hrow => ?_
        rw [hexact.form_lower hrow, hsep, List.map_nil, List.sum_nil, zero_sub]
      rw [hconstant]
      simp [leftMisfit]
    · refine ⟨0, le_refl _, fun _ => rfl, fun x => ?_⟩
      rw [hexact.squares_split, hrows]
      simp [leftMisfit]
    · cases hf

/-! ### Failure -/

theorem keyAtColumn_exists {keys : List Key} (hne : keys ≠ [])
    (hdims : ∀ key ∈ keys, ∃ n, dims.get? key = some n) (column : ℕ) :
    ∃ key ∈ keys, keyAtColumn dims keys column = .ok key := by
  induction keys generalizing column with
  | nil => exact (hne rfl).elim
  | cons first keys ih =>
    cases keys with
    | nil => exact ⟨first, by simp, rfl⟩
    | cons second keys =>
      obtain ⟨n, hn⟩ := hdims first (by simp)
      have hfind := Table.find_eq_ok.mpr hn
      by_cases hlt : column < n
      · refine ⟨first, by simp, ?_⟩
        simp [keyAtColumn, hfind, hlt, bind, Except.bind, pure, Except.pure]
      · obtain ⟨key, hkey, hfound⟩ := ih (by simp)
          (fun key hkey => hdims key (List.mem_cons_of_mem _ hkey)) (column - n)
        refine ⟨key, List.mem_cons_of_mem _ hkey, ?_⟩
        simpa [keyAtColumn, hfind, hlt, bind, Except.bind, pure, Except.pure] using hfound

/-- The first column that has no row or a pivot that is too small. -/
def Course.FailsAt (t : Course ℝ) (column : ℕ) : Prop :=
  t.stacked.flatten.length < t.frontWidth ∧ column = t.stacked.flatten.length ∨
    t.frontWidth ≤ t.stacked.flatten.length ∧
      Vec.maxAbs? t.stacked.flatten.flatten = some t.greatest ∧
      t.upper.diagonal.findIdx? (fun pivot => decide (|pivot| ≤ pivotTolerance * max 1 t.greatest)) =
        some column

/-- The steps up to the stacked rows do not fail on fitting factors whose variables are placed and sized. -/
theorem Course.exists_formed (hnodup : frontals.Nodup) (hfits : ∀ f ∈ factors, f.Fits dims)
    (hdims : ∀ key ∈ frontals, ∃ n, dims.get? key = some n)
    (hplaced : ∀ f ∈ factors, ∀ key ∈ f.keys,
      (∃ i, position.get? key = some i) ∧ ∃ n, dims.get? key = some n) :
    ∃ t : Course ℝ, t.Formed factors frontals dims position := by
  obtain ⟨separator, hseparator⟩ := separatorOf_exists frontals
    fun f hf key hkey => (hplaced f hf key hkey).1
  obtain ⟨hall, hkeys⟩ := separatorOf_covers hseparator hnodup
  obtain ⟨-, hsepMem, -⟩ := separatorOf_eq_ok hseparator
  have hdimsAll : ∀ key ∈ frontals ++ separator, ∃ n, dims.get? key = some n := by
    intro key hkey
    rcases List.mem_append.mp hkey with hkey | hkey
    · exact hdims key hkey
    · obtain ⟨-, f, hf, hkey⟩ := (hsepMem key).mp hkey
      exact (hplaced f hf key hkey).2
  obtain ⟨⟨columns, width⟩, hcolumns⟩ := columnOffsets_exists hdimsAll
  obtain ⟨⟨fronts, frontWidth⟩, hfronts⟩ := columnOffsets_exists hdims
  obtain ⟨-, hwidth, hcolumnsAll⟩ := columnOffsets_eq_ok hcolumns
  obtain ⟨stacked, hstacked, -⟩ := stacked_spec (hcolumnsAll hall) hfits hkeys
  rw [← hwidth] at hstacked
  exact ⟨⟨separator, columns, width, frontWidth, stacked, 0⟩, hseparator, hcolumns,
    ⟨fronts, hfronts⟩, hstacked⟩

/-- Rows that are enough for a variable have a greatest entry. -/
theorem Course.Stacks.maxAbs?_ne_none {t : Course ℝ} (h : t.Stacks factors frontals dims)
    (hwidth : 0 < t.frontWidth) (hheight : t.frontWidth ≤ t.stacked.flatten.length) :
    maxAbs? t.stacked.flatten.flatten ≠ none := by
  have hpos : 0 < t.stacked.flatten.length := hwidth.trans_le hheight
  have hrow := h.rows_length _ (List.getElem_mem hpos)
  cases hentries : t.stacked.flatten.flatten with
  | nil =>
    rw [List.flatten_eq_nil_iff.mp hentries _ (List.getElem_mem hpos)] at hrow
    simp at hrow
  | cons x xs => simp [maxAbs?]

/-- **A dense elimination of fitting factors fails only where a variable is not determined**, and names
    the variable of the first column that has no row or a pivot that is too small. -/
theorem eliminate_fails {e : Error} (h : eliminate factors frontals dims position = .error e)
    (hnodup : frontals.Nodup) (hfits : ∀ f ∈ factors, f.Fits dims) (hwidth : 0 < dims.widthOf frontals)
    (hdims : ∀ key ∈ frontals, ∃ n, dims.get? key = some n)
    (hplaced : ∀ f ∈ factors, ∀ key ∈ f.keys,
      (∃ i, position.get? key = some i) ∧ ∃ n, dims.get? key = some n) :
    ∃ (t : Course ℝ) (column : ℕ) (key : Key), t.Formed factors frontals dims position ∧
      t.FailsAt column ∧ key ∈ frontals ∧ keyAtColumn dims frontals column = .ok key ∧
      e = .indeterminate key := by
  have hne : frontals ≠ [] := by
    rintro rfl
    simp at hwidth
  obtain ⟨t, hformed⟩ := Course.exists_formed hnodup hfits hdims hplaced
  have hstacks := hformed.stacks hnodup hfits
  obtain ⟨fronts, hfronts⟩ := hformed.front_eq
  simp only [eliminate, hformed.separator_eq, hformed.columns_eq, hfronts, bind, Except.bind] at h
  split at h
  · next hheight =>
    obtain ⟨key, hkey, hfound⟩ := keyAtColumn_exists hne hdims (total (factors.map (·.rows)))
    simp only [hfound] at h
    cases h
    rw [← hstacks.count] at hheight hfound
    exact ⟨t, _, key, hformed, .inl ⟨hheight, rfl⟩, hkey, hfound, rfl⟩
  · next hheight =>
    rw [← hstacks.count, not_lt] at hheight
    simp only [hformed.stacked_eq, Mat.entries] at h
    split at h
    · next hnone => exact absurd hnone (hstacks.maxAbs?_ne_none (hstacks.frontWidth ▸ hwidth) hheight)
    · next greatest hgreatest =>
      split at h
      · next column hcolumn =>
        obtain ⟨key, hkey, hfound⟩ := keyAtColumn_exists hne hdims column
        simp only [hfound] at h
        cases h
        simp only [Scalar.abs_real, Scalar.largerOf_real] at hcolumn
        have hformed' : Course.Formed { t with greatest := greatest } factors frontals dims position :=
          ⟨hformed.separator_eq, hformed.columns_eq, hformed.front_eq, hformed.stacked_eq⟩
        exact ⟨_, column, key, hformed', .inr ⟨hheight, hgreatest, hcolumn⟩, hkey, hfound, rfl⟩
      · split at h
        · cases h
        · split at h
          · next hblocks =>
            -- the variables of the separator have columns and sizes, so the cut does not fail
            obtain ⟨key, hkey, hfail⟩ := exists_of_mapM_error hblocks
            have hmem := List.mem_append_right frontals hkey
            obtain ⟨n, hn⟩ := hstacks.dims_some key hmem
            simp only [Table.find_eq_ok.mpr (hstacks.columns key hmem), Table.find_eq_ok.mpr hn] at hfail
            cases hfail
          · cases h

/-! ### One equation -/

/-- One equation for one number. -/
def equation (key : Key) (a b : ℝ) : LinearFactor ℝ := .dense [(key, ⟨1, [[a]]⟩)] [b]

theorem eliminate_equation_eq {key : Key} {dims : Table ℕ} (hdim : dims.get? key = some 1)
    (position : Table ℕ) (a b : ℝ) : eliminate [equation key a b] [key] dims position =
      if |a| ≤ 1e-9 * max 1 (max |a| |b|) then .error (.indeterminate key)
      else .ok (⟨[key], [], dims, ⟨1, [[a]]⟩, ⟨0, [[]]⟩, [b]⟩, none) := by
  have hseparator : separatorOf [equation key a b] [key] position = .ok [] := by
    simp [equation, separatorOf, LinearFactor.keys, Table.keys, distinct, bind, Except.bind, pure,
      Except.pure]
  have hfind : dims.find key = .ok 1 := Table.find_eq_ok.mpr hdim
  have hcolumns : columnOffsets dims [key] = .ok ([(key, 0)], 1) := by
    simp [columnOffsets, hfind, Table.set, bind, Except.bind, pure, Except.pure]
  have hcolumn : Table.find [(key, 0)] key = .ok 0 := by simp [Table.find, Table.get?]
  have hstacked : [equation key a b].mapM (stackedRows dims [(key, 0)] 1) = .ok [[[a, b]]] := by
    simp [equation, stackedRows, stackBlocks, overwrite, stretch, Vec.zeros, hfind, hcolumn, bind,
      Except.bind, pure, Except.pure]
  have hheight : total ([equation key a b].map (·.rows)) = 1 := rfl
  have hreduced : Triangular.reduce ⟨1 + 1, [[a, b]]⟩ = ⟨1 + 1, [[a, b]]⟩ := by
    simp [Triangular.reduce, Triangular.reduceRows, Triangular.Reflection.ofColumn,
      Triangular.Reflection.apply, Vec.scaledNorm_real, Scalar.isZero_real]
  have hgreatest : Vec.maxAbs? [a, b] = some (max |a| |b|) := by
    simp [Vec.maxAbs?, Scalar.maximum_real, Scalar.abs_real]
  have hkey : keyAtColumn dims [key] 0 = .ok key := rfl
  have htolerance : (pivotTolerance : ℝ) = 1e-9 := rfl
  simp only [eliminate, hseparator, hcolumns, List.append_nil, bind, Except.bind, hheight, hstacked,
    List.flatten_cons, List.flatten_nil, hreduced, Mat.entries, hgreatest]
  by_cases hpivot : |a| ≤ 1e-9 * max 1 (max |a| |b|)
  · simp [Mat.top, Mat.diagonal, Scalar.abs_real, Scalar.largerOf_real, htolerance, hpivot, hkey, throw,
      throwThe, MonadExceptOf.throw]
  · simp [Mat.top, Mat.diagonal, Mat.columns, Scalar.abs_real, Scalar.largerOf_real, htolerance, hpivot,
      pure, Except.pure]

theorem eliminate_equation {key : Key} {dims : Table ℕ} (hdim : dims.get? key = some 1)
    (position : Table ℕ) {a b : ℝ} (h : 1e-9 * max 1 (max |a| |b|) < |a|) :
    eliminate [equation key a b] [key] dims position =
      .ok (⟨[key], [], dims, ⟨1, [[a]]⟩, ⟨0, [[]]⟩, [b]⟩, none) := by
  rw [eliminate_equation_eq hdim, if_neg (not_le.mpr h)]

/-- The sum of two numbers is to be zero. -/
def zeroSum (key other : Key) : LinearFactor ℝ := .dense [(key, ⟨1, [[1]]⟩), (other, ⟨1, [[1]]⟩)] [0]

theorem eliminate_zeroSum {key other : Key} (hne : other ≠ key) {dims position : Table ℕ}
    (hdim : dims.get? key = some 1) (hdim' : dims.get? other = some 1) {place : ℕ}
    (hplace : position.get? other = some place) :
    eliminate [zeroSum key other] [key] dims position =
      .ok (⟨[key], [other], dims, ⟨1, [[1]]⟩, ⟨1, [[1]]⟩, [0]⟩, none) := by
  have hfind : dims.find key = .ok 1 := Table.find_eq_ok.mpr hdim
  have hfind' : dims.find other = .ok 1 := Table.find_eq_ok.mpr hdim'
  have hseparator : separatorOf [zeroSum key other] [key] position = .ok [other] := by
    simp [zeroSum, separatorOf, LinearFactor.keys, Table.keys, distinct, Table.find, hplace, hne, bind,
      Except.bind, pure, Except.pure, Except.map]
  have hcolumns : columnOffsets dims ([key] ++ [other]) = .ok ([(key, 0), (other, 1)], 2) := by
    simp [columnOffsets, hfind, hfind', Table.set, hne.symm, bind, Except.bind, pure, Except.pure]
  have hfront : columnOffsets dims [key] = .ok ([(key, 0)], 1) := by
    simp [columnOffsets, hfind, Table.set, bind, Except.bind, pure, Except.pure]
  have hcolumn : Table.find [(key, 0), (other, 1)] key = .ok 0 := by simp [Table.find, Table.get?]
  have hcolumn' : Table.find [(key, 0), (other, 1)] other = .ok 1 := by
    simp [Table.find, Table.get?_cons, hne]
  have hstacked : [zeroSum key other].mapM (stackedRows dims [(key, 0), (other, 1)] 2) =
      .ok [[[1, 1, 0]]] := by
    simp [zeroSum, stackedRows, stackBlocks, overwrite, stretch, Vec.zeros, hfind, hfind', hcolumn,
      hcolumn', bind, Except.bind, pure, Except.pure]
  have hheight : total ([zeroSum key other].map (·.rows)) = 1 := rfl
  have hreduced : Triangular.reduce ⟨2 + 1, [[(1 : ℝ), 1, 0]]⟩ = ⟨2 + 1, [[1, 1, 0]]⟩ := by
    simp [Triangular.reduce, Triangular.reduceRows, Triangular.Reflection.ofColumn,
      Triangular.Reflection.apply, Vec.scaledNorm_real, Scalar.isZero_real]
  have hgreatest : Vec.maxAbs? [(1 : ℝ), 1, 0] = some 1 := by
    norm_num [Vec.maxAbs?, Scalar.maximum_real, Scalar.abs_real]
  have hpivot : ¬ (1 : ℝ) ≤ pivotTolerance := by norm_num [pivotTolerance]
  simp only [eliminate, hseparator, hcolumns, hfront, bind, Except.bind, hheight, hstacked,
    List.flatten_singleton, hreduced, Mat.entries, hgreatest]
  simp [Mat.top, Mat.below, Mat.diagonal, Mat.columns, Scalar.abs_real, Scalar.largerOf_real, hpivot,
    pure, Except.pure]

end Elimination

/-! ### Three numbers -/

namespace Meeting

open Elimination

/-- Three numbers in the order in which they are eliminated. -/
def inTurn : EliminationOrder := ⟨[.number 0, .number 1, .number 2]⟩

def sizes : Table ℕ := [(.number 0, 1), (.number 1, 1), (.number 2, 1)]

/-- Two equations for the first and the third number. -/
noncomputable def first : LinearFactor ℝ :=
  .dense [(.number 0, ⟨1, [[1], [0]]⟩), (.number 2, ⟨1, [[1], [2]]⟩)] [0, 4]

/-- One equation for the second and the third number. -/
noncomputable def second : LinearFactor ℝ :=
  .dense [(.number 1, ⟨1, [[1]]⟩), (.number 2, ⟨1, [[1]]⟩)] [0]

noncomputable def problem : LinearGraph ℝ := ⟨[first, second]⟩

theorem eliminate_first : eliminate [first] [.number 0] sizes inTurn.positions =
    .ok (⟨[.number 0], [.number 2], sizes, ⟨1, [[1]]⟩, ⟨1, [[1]]⟩, [0]⟩,
      some (equation (.number 2) 2 4)) := by
  have hplace : inTurn.positions.get? (.number 2) = some 2 := rfl
  have hseparator : separatorOf [first] [.number 0] inTurn.positions = .ok [.number 2] := by
    simp [first, separatorOf, LinearFactor.keys, Table.keys, distinct, Table.find, hplace, bind,
      Except.bind, pure, Except.pure, Except.map]
  have hcolumns : columnOffsets sizes ([.number 0] ++ [.number 2]) =
      .ok ([(.number 0, 0), (.number 2, 1)], 2) := rfl
  have hfront : columnOffsets sizes [.number 0] = .ok ([(.number 0, 0)], 1) := rfl
  have hheight : total ([first].map (·.rows)) = 2 := rfl
  have hstacked : [first].mapM (stackedRows sizes [(.number 0, 0), (.number 2, 1)] 2) =
      .ok [[[1, 1, 0], [0, 2, 4]]] := rfl
  have hreduced : Triangular.reduce ⟨2 + 1, [[(1 : ℝ), 1, 0], [0, 2, 4]]⟩ =
      ⟨2 + 1, [[1, 1, 0], [0, 2, 4]]⟩ := by
    simp [Triangular.reduce, Triangular.reduceRows, Triangular.Reflection.ofColumn,
      Triangular.Reflection.apply, Vec.scaledNorm_real, Scalar.isZero_real]
  have hgreatest : Vec.maxAbs? [[(1 : ℝ), 1, 0], [0, 2, 4]].flatten = some 4 := by
    norm_num [Vec.maxAbs?, Scalar.maximum_real, Scalar.abs_real]
  have hpivot : ¬ (1 : ℝ) ≤ pivotTolerance * 4 := by norm_num [pivotTolerance]
  simp only [eliminate, hseparator, hcolumns, hfront, bind, Except.bind, hheight, hstacked,
    List.flatten_singleton, hreduced, Mat.entries, hgreatest]
  simp [Mat.top, Mat.below, Mat.diagonal, Mat.columns, Scalar.abs_real, Scalar.largerOf_real, hpivot]
  rfl

theorem eliminate_second : eliminate [second] [.number 1] sizes inTurn.positions =
    .ok (⟨[.number 1], [.number 2], sizes, ⟨1, [[1]]⟩, ⟨1, [[1]]⟩, [0]⟩, none) :=
  eliminate_zeroSum (by decide) rfl rfl (rfl : inTurn.positions.get? (.number 2) = some 2)

end Meeting

end LeastSquares
