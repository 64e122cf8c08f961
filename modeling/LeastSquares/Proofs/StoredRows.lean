/-
  LeastSquares/Proofs/StoredRows.lean
  ===================================
  **The stacked matrix of stored entries takes what the factors ask for as its values.**

  A row of stored entries is a linear form as well.  Storing an entry adds to the form, whether or
  not the place was taken; that the columns ascend matters only where the form is read as a row of
  a matrix.
-/
import LeastSquares.Linear.Sparse
import LeastSquares.Proofs.Stacking

namespace LeastSquares

open Vec

namespace SparseRow

/-- The value of the stored entries at a sequence of unknowns. -/
noncomputable def form (row : SparseRow ℝ) (v : ℕ → ℝ) : ℝ := (row.map fun e => e.2 * v e.1).sum

/-- The stored columns ascend. -/
def Ascending {α : Type} (row : SparseRow α) : Prop := row.Pairwise fun a b => a.1 < b.1

theorem form_store (row : SparseRow ℝ) (column : ℕ) (x : ℝ) (v : ℕ → ℝ) :
    (row.store column x).form v = row.form v + x * v column := by
  induction row with
  | nil => simp [store, form]
  | cons e row ih =>
    simp only [form] at ih
    rw [store]
    split
    · simp only [form, List.map_cons, List.sum_cons]
      ring
    · split
      · next heq =>
        simp only [form, List.map_cons, List.sum_cons, ← heq]
        ring
      · simp only [form, List.map_cons, List.sum_cons, ih]
        ring

theorem form_storeVec (row : SparseRow ℝ) (column : ℕ) (xs : Vec ℝ) (v : ℕ → ℝ) :
    (row.storeVec column xs).form v = row.form v + Vec.form xs fun j => v (column + j) := by
  induction xs generalizing row column with
  | nil => simp [storeVec]
  | cons x xs ih =>
    have hshift : (fun j => v (column + 1 + j)) = fun j => v (column + (j + 1)) := by
      funext j
      rw [Nat.add_assoc, Nat.add_comm 1 j]
    rw [storeVec, ih, hshift, Vec.form_cons, Nat.add_zero, ← add_assoc]
    congr 1
    rw [Scalar.isZero_real]
    split
    · next hzero => rw [of_decide_eq_true hzero, zero_mul, add_zero]
    · exact form_store row column x v

theorem mem_store {row : SparseRow ℝ} {column : ℕ} {x : ℝ} {e : ℕ × ℝ}
    (h : e ∈ row.store column x) : e.1 = column ∨ ∃ old ∈ row, e.1 = old.1 := by
  induction row with
  | nil => exact .inl (by rw [List.mem_singleton.mp h])
  | cons first row ih =>
    rw [store] at h
    split at h
    · rcases List.mem_cons.mp h with rfl | h
      · exact .inl rfl
      · exact .inr ⟨e, h, rfl⟩
    · split at h
      · rcases List.mem_cons.mp h with rfl | h
        · exact .inl rfl
        · exact .inr ⟨e, List.mem_cons_of_mem _ h, rfl⟩
      · rcases List.mem_cons.mp h with rfl | h
        · exact .inr ⟨e, by simp, rfl⟩
        · exact (ih h).imp_right fun ⟨old, hold, heq⟩ => ⟨old, List.mem_cons_of_mem _ hold, heq⟩

theorem ascending_store {row : SparseRow ℝ} (h : row.Ascending) (column : ℕ) (x : ℝ) :
    (row.store column x).Ascending := by
  induction row with
  | nil => simp [store, Ascending]
  | cons first row ih =>
    obtain ⟨hfirst, hrest⟩ := List.pairwise_cons.mp h
    rw [store]
    split
    · next hlt =>
      refine List.pairwise_cons.mpr ⟨fun e he => ?_, h⟩
      rcases List.mem_cons.mp he with rfl | he
      · exact hlt
      · exact hlt.trans (hfirst e he)
    · split
      · next heq =>
        exact List.pairwise_cons.mpr ⟨fun e he => heq.trans_lt (hfirst e he), hrest⟩
      · refine List.pairwise_cons.mpr ⟨fun e he => ?_, ih hrest⟩
        rcases mem_store he with hcolumn | ⟨old, hold, hcolumn⟩
        · omega
        · rw [hcolumn]
          exact hfirst old hold

theorem storeVec_spec {row : SparseRow ℝ} {column width : ℕ} {xs : Vec ℝ} (h : row.Ascending)
    (hbound : ∀ e ∈ row, e.1 < width) (hroom : column + xs.length ≤ width) :
    (row.storeVec column xs).Ascending ∧ ∀ e ∈ row.storeVec column xs, e.1 < width := by
  induction xs generalizing row column with
  | nil => exact ⟨h, hbound⟩
  | cons x xs ih =>
    rw [List.length_cons] at hroom
    rw [storeVec]
    split
    · exact ih h hbound (by omega)
    · refine ih (ascending_store h _ _) (fun e he => ?_) (by omega)
      rcases mem_store he with hcolumn | ⟨old, hold, hcolumn⟩
      · omega
      · rw [hcolumn]
        exact hbound old hold

@[simp] theorem entry_nil (column : ℕ) : entry ([] : SparseRow ℝ) column = 0 := rfl

theorem entry_cons (e : ℕ × ℝ) (row : SparseRow ℝ) (column : ℕ) :
    entry (e :: row) column = if column = e.1 then e.2 else entry row column := by
  by_cases h : column = e.1
  · rw [if_pos h, entry, h, List.lookup_cons_self]
    rfl
  · have hne : (column == e.1) = false := by simpa using h
    rw [if_neg h, entry, List.lookup_cons, hne]
    rfl

theorem entry_eq_zero {row : SparseRow ℝ} {column : ℕ} (h : ∀ e ∈ row, e.1 ≠ column) :
    row.entry column = 0 := by
  induction row with
  | nil => rfl
  | cons first row ih =>
    rw [entry_cons, if_neg (h first (by simp)).symm]
    exact ih fun e he => h e (List.mem_cons_of_mem _ he)

theorem form_eq_sum {row : SparseRow ℝ} {width : ℕ} (h : row.Ascending)
    (hbound : ∀ e ∈ row, e.1 < width) (v : ℕ → ℝ) :
    row.form v = ∑ j : Fin width, row.entry j * v j := by
  induction row with
  | nil => simp [form]
  | cons first row ih =>
    obtain ⟨hfirst, hrest⟩ := List.pairwise_cons.mp h
    have hcolumn := hbound first (by simp)
    have hapart : entry row first.1 = 0 := entry_eq_zero fun e he => (hfirst e he).ne'
    have hsplit : ∀ j : Fin width, entry (first :: row) j * v j =
        (if j = ⟨first.1, hcolumn⟩ then first.2 * v first.1 else 0) + entry row j * v j := by
      intro j
      rw [entry_cons]
      by_cases hj : (j : ℕ) = first.1
      · have hj' : j = ⟨first.1, hcolumn⟩ := Fin.ext hj
        rw [if_pos hj, if_pos hj', hj, hapart, zero_mul, add_zero]
      · have hj' : j ≠ ⟨first.1, hcolumn⟩ := fun heq => hj (congrArg Fin.val heq)
        rw [if_neg hj, if_neg hj', zero_add]
    have hform : form (first :: row) v = first.2 * v first.1 + form row v := by
      simp [form]
    rw [hform, ih hrest fun e he => hbound e (List.mem_cons_of_mem _ he),
      Finset.sum_congr rfl fun j _ => hsplit j, Finset.sum_add_distrib,
      Finset.sum_ite_eq' Finset.univ, if_pos (Finset.mem_univ _)]

end SparseRow

namespace LinearFactor

variable {dims offsets : Table ℕ} {keys : List Key}

theorem form_zipWith_storeVec {rows : List (SparseRow ℝ)} {blockRows : List (Vec ℝ)}
    (column : ℕ) (v : ℕ → ℝ) :
    (List.zipWith (fun row xs => row.storeVec column xs) rows blockRows).map (SparseRow.form · v) =
      Vec.add (rows.map (SparseRow.form · v))
        (blockRows.map (form · fun j => v (column + j))) := by
  refine List.ext_getElem (by simp [Vec.add]) fun i h1 h2 => ?_
  simp only [Vec.add, List.getElem_map, List.getElem_zipWith, SparseRow.form_storeVec]

theorem foldlM_storeVec_spec
    (hoffsets : ∀ key ∈ keys, offsets.get? key = some (dims.columnOf keys key))
    {blocks : Table (Mat ℝ)} {rhs : Vec ℝ} (hkeys : ∀ key ∈ blocks.keys, key ∈ keys)
    (hblocks : ∀ entry ∈ blocks,
      dims.get? entry.1 = some entry.2.width ∧ entry.2.height = rhs.length ∧ entry.2.IsRectangular)
    {rows : List (SparseRow ℝ)} (hcount : rows.length = rhs.length)
    (hrows : ∀ row ∈ rows, row.Ascending ∧ ∀ e ∈ row, e.1 < dims.widthOf keys) :
    ∃ final, blocks.foldlM (fun (rows : List (SparseRow ℝ)) entry => do
        let offset ← offsets.find entry.1
        return List.zipWith (fun row xs => row.storeVec offset xs) rows entry.2.rows) rows =
        Except.ok (ε := Error) final ∧
      final.length = rhs.length ∧
      (∀ row ∈ final, row.Ascending ∧ ∀ e ∈ row, e.1 < dims.widthOf keys) ∧
      ∀ (x : Assignment) (v : ℕ → ℝ),
        (∀ key ∈ keys, ∀ j < dims.dimOf key, v (dims.columnOf keys key + j) = x key j) →
        Vec.sub (final.map (SparseRow.form · v)) rhs = blocks.foldl
          (fun r entry => Vec.add r (entry.2.rows.map (form · (x entry.1))))
          (Vec.sub (rows.map (SparseRow.form · v)) rhs) := by
  induction blocks generalizing rows with
  | nil => exact ⟨rows, rfl, hcount, hrows, fun _ _ _ => rfl⟩
  | cons entry blocks ih =>
    obtain ⟨hdim, hheight, hrect⟩ := hblocks entry (by simp)
    have hkey : entry.1 ∈ keys := hkeys _ (by simp [Table.keys])
    have hsize := Table.dimOf_eq hdim
    have hroom := Table.columnOf_add_dimOf_le dims hkey
    rw [hsize] at hroom
    have hheight : entry.2.rows.length = rhs.length := hheight
    obtain ⟨next, hnext⟩ : ∃ next, next = List.zipWith (fun row xs =>
      SparseRow.storeVec row (dims.columnOf keys entry.1) xs) rows entry.2.rows := ⟨_, rfl⟩
    have hcount' : next.length = rhs.length := by
      rw [hnext, List.length_zipWith, hcount, hheight, Nat.min_self]
    have hrows' : ∀ row ∈ next, row.Ascending ∧ ∀ e ∈ row, e.1 < dims.widthOf keys := by
      intro row hrow
      rw [hnext] at hrow
      obtain ⟨i, hi, rfl⟩ := List.mem_iff_getElem.mp hrow
      rw [List.length_zipWith] at hi
      have hold : i < rows.length := by omega
      have hnew : i < entry.2.rows.length := by omega
      obtain ⟨hascending, hbound⟩ := hrows rows[i] (List.getElem_mem hold)
      have hpart := hrect entry.2.rows[i] (List.getElem_mem hnew)
      rw [List.getElem_zipWith]
      exact SparseRow.storeVec_spec hascending hbound (by omega)
    obtain ⟨final, hfinal, hlength, hwidth, hvalues⟩ :=
      ih (fun key hk => hkeys key (List.mem_cons_of_mem _ hk))
        (fun e he => hblocks e (List.mem_cons_of_mem _ he)) hcount' hrows'
    refine ⟨final, ?_, hlength, hwidth, ?_⟩
    · rw [foldlM_ok_cons (c := next), hfinal]
      rw [Table.find_eq_ok.mpr (hoffsets _ hkey), hnext]
      rfl
    · intro x v hv
      rw [hvalues x v hv, List.foldl_cons, hnext,
        form_zipWith_storeVec, Elimination.add_sub_right_comm]
      congr 3
      refine List.map_congr_left fun row hrow => form_congr fun j hj => ?_
      exact hv _ hkey j (by rw [hsize, ← hrect row hrow]; exact hj)

/-- **The stored rows of a factor give beyond its right-hand side what the factor misses.** -/
theorem sparseRows_spec (hoffsets : ∀ key ∈ keys, offsets.get? key = some (dims.columnOf keys key))
    {f : LinearFactor ℝ} (hfits : f.Fits dims) (hkeys : ∀ key ∈ f.keys, key ∈ keys) :
    ∃ rows, f.sparseRows offsets = .ok rows ∧ rows.length = f.rhsArray.data.length ∧
      (∀ row ∈ rows, row.Ascending ∧ ∀ e ∈ row, e.1 < dims.widthOf keys) ∧
      ∀ (x : Assignment) (v : ℕ → ℝ),
        (∀ key ∈ keys, ∀ j < dims.dimOf key, v (dims.columnOf keys key + j) = x key j) →
        Vec.sub (rows.map (SparseRow.form · v)) f.rhsArray.data = f.missed x := by
  cases f with
  | arrays blocks rhs => exact hfits.elim
  | dense blocks rhs =>
    have hempty : ∀ row : SparseRow ℝ, row ∈ List.replicate rhs.length [] →
        row.Ascending ∧ ∀ e ∈ row, e.1 < dims.widthOf keys := by
      intro row hrow
      rw [List.eq_of_mem_replicate hrow]
      exact ⟨List.Pairwise.nil, by simp⟩
    obtain ⟨final, hfinal, hlength, hbounds, hvalues⟩ :=
      foldlM_storeVec_spec hoffsets hkeys hfits.2 (List.length_replicate ..) hempty
    refine ⟨final, hfinal, hlength, hbounds, fun x v hv => ?_⟩
    refine (hvalues x v hv).trans ?_
    rw [missed]
    congr 1
    refine List.ext_getElem (by simp [Vec.sub, Vec.neg]) fun i h1 h2 => ?_
    simp [Vec.sub, Vec.neg, SparseRow.form]

end LinearFactor

namespace LinearGraph

variable {dims : Table ℕ} {keys : List Key} {g : LinearGraph ℝ}

/-- A linear problem fits an order of variables and their sizes: the order has no repetitions, each
    of its variables has a size that is not zero, and the factors are about these variables and
    have blocks of these sizes. -/
structure Fits {α : Type} (g : LinearGraph α) (keys : List Key) (dims : Table ℕ) : Prop where
  nodup : keys.Nodup
  sized : ∀ key ∈ keys, ∃ n, dims.get? key = some n ∧ 0 < n
  fits : ∀ f ∈ g.factors, f.Fits dims
  listed : ∀ f ∈ g.factors, ∀ key ∈ f.keys, key ∈ keys

/-- A linear problem accords with an order of variables and their sizes: as above, but a variable may
    have the size zero. -/
structure Accords {α : Type} (g : LinearGraph α) (keys : List Key) (dims : Table ℕ) : Prop where
  nodup : keys.Nodup
  sized : ∀ key ∈ keys, ∃ n, dims.get? key = some n
  fits : ∀ f ∈ g.factors, f.Fits dims
  listed : ∀ f ∈ g.factors, ∀ key ∈ f.keys, key ∈ keys

theorem Fits.accords {α : Type} {g : LinearGraph α} (hg : g.Fits keys dims) : g.Accords keys dims :=
  ⟨hg.nodup, fun key hkey => (hg.sized key hkey).imp fun _ hn => hn.1, hg.fits, hg.listed⟩

/-- The right-hand sides of all factors, one after another. -/
def rhs {α : Type} (g : LinearGraph α) : Vec α := g.factors.flatMap (·.rhsArray.data)

/-- What the factors miss at an assignment, one after another. -/
noncomputable def missed (g : LinearGraph ℝ) (x : Assignment) : Vec ℝ :=
  g.factors.flatMap (LinearFactor.missed x)

/-- The sum of the squares of what the factors miss at an assignment. -/
noncomputable def misfit (g : LinearGraph ℝ) (x : Assignment) : ℝ :=
  (g.factors.map (LinearFactor.misfit x)).sum

theorem squares_missed (g : LinearGraph ℝ) (x : Assignment) : squares (g.missed x) = g.misfit x := by
  obtain ⟨factors⟩ := g
  simp only [missed, misfit]
  induction factors with
  | nil => rfl
  | cons f factors ih =>
    rw [List.flatMap_cons, squares_append, ih, List.map_cons, List.sum_cons]
    rfl

theorem mapM_sparseRows_spec {offsets : Table ℕ}
    (hoffsets : ∀ key ∈ keys, offsets.get? key = some (dims.columnOf keys key))
    {factors : List (LinearFactor ℝ)} (hfits : ∀ f ∈ factors, f.Fits dims)
    (hlisted : ∀ f ∈ factors, ∀ key ∈ f.keys, key ∈ keys) :
    ∃ rows, factors.mapM (LinearFactor.sparseRows offsets) = .ok rows ∧
      rows.flatten.length = (factors.flatMap (·.rhsArray.data)).length ∧
      (∀ row ∈ rows.flatten, row.Ascending ∧ ∀ e ∈ row, e.1 < dims.widthOf keys) ∧
      ∀ x, Vec.sub (rows.flatten.map (SparseRow.form · (x.along dims keys)))
        (factors.flatMap (·.rhsArray.data)) = factors.flatMap (LinearFactor.missed x) := by
  induction factors with
  | nil => exact ⟨[], rfl, rfl, by simp, by simp [Vec.sub]⟩
  | cons f factors ih =>
    obtain ⟨stacked, hstacked, hcount, hbounds, hvalues⟩ :=
      ih (fun g hg => hfits g (List.mem_cons_of_mem _ hg))
        (fun g hg => hlisted g (List.mem_cons_of_mem _ hg))
    obtain ⟨rows, hrows, hlength, hbound, hmissed⟩ :=
      LinearFactor.sparseRows_spec hoffsets (hfits f (by simp)) (hlisted f (by simp))
    refine ⟨rows :: stacked, ?_, ?_, ?_, ?_⟩
    · rw [List.mapM_cons, hstacked]
      simp [hrows, bind, Except.bind, pure, Except.pure]
    · rw [List.flatten_cons, List.flatMap_cons, List.length_append, List.length_append, hcount,
        hlength]
    · intro row hrow
      rw [List.flatten_cons, List.mem_append] at hrow
      exact hrow.elim (hbound row) (hbounds row)
    · intro x
      have hhead := hmissed x (x.along dims keys) fun key hkey j hj =>
        Assignment.along_columnOf x hkey hj
      have htail := hvalues x
      rw [Vec.sub] at hhead htail
      rw [List.flatten_cons, List.flatMap_cons, List.map_append, Vec.sub,
        List.zipWith_append (by rw [List.length_map, hlength]), hhead, htail, List.flatMap_cons]

/-- **The stacked matrix gives beyond the right-hand side what the problem misses.** -/
theorem stackedMatrix_spec (hg : g.Accords keys dims) :
    ∃ A, g.stackedMatrix keys dims = .ok A ∧ A.width = dims.widthOf keys ∧
      A.rows.length = g.rhs.length ∧
      (∀ row ∈ A.rows, row.Ascending ∧ ∀ e ∈ row, e.1 < A.width) ∧
      ∀ x, Vec.sub (A.rows.map (SparseRow.form · (x.along dims keys))) g.rhs = g.missed x := by
  obtain ⟨found, hfound⟩ := columnOffsets_exists hg.sized
  obtain ⟨-, hwidth, hcolumns⟩ := columnOffsets_eq_ok hfound
  obtain ⟨rows, hrows, hcount, hbounds, hvalues⟩ :=
    mapM_sparseRows_spec (hcolumns hg.nodup) hg.fits hg.listed
  refine ⟨⟨dims.widthOf keys, rows.flatten⟩, ?_, rfl, hcount, hbounds, hvalues⟩
  have hroom : ¬ (rows.flatten.any fun row => row.any fun e =>
      decide (dims.widthOf keys ≤ e.1)) = true := by
    simp only [List.any_eq_true, decide_eq_true_eq, not_exists, not_and, not_le]
    exact fun row hrow e he => (hbounds row hrow).2 e he
  simp only [stackedMatrix, hfound, bind, Except.bind, hrows, hwidth, if_neg hroom]
  rfl

end LinearGraph

end LeastSquares
