/-
  LeastSquares/Proofs/Stacking.lean
  =================================
  **What factors miss at an assignment, and the rows that they are stacked as.**

  The rows of a factor in the stacked matrix, read as linear forms on the columns of an assignment
  with minus one behind them, are what the factor misses at the assignment.  So the sum of the
  squared values of all stacked rows is the misfit of the factors.
-/
import LeastSquares.Linear.Elimination
import LeastSquares.Proofs.Columns

namespace LeastSquares

open Vec

/-- Rows of one width. -/
def Mat.IsRectangular {α : Type} (m : Mat α) : Prop := ∀ row ∈ m.rows, row.length = m.width

/-- The product of a rectangular matrix and a vector lists the values of its rows. -/
theorem Mat.mulVec?_eq_ok {m : Mat ℝ} (hrect : m.IsRectangular) {xs : Vec ℝ}
    (hwidth : xs.length = m.width) : m.mulVec? xs = .ok (m.rows.map (form · xs.entry)) := by
  have hrows : m.mulVec xs = m.rows.map (form · xs.entry) :=
    List.map_congr_left fun row hrow => dot_eq_form (by rw [hrect row hrow, hwidth])
  rw [mulVec?, if_pos hwidth.symm, hrows]

namespace LinearFactor

/-- A factor fits sizes of variables when it has a matrix for each of some different variables, each
    as wide as its variable and as high as the right-hand side. -/
def Fits {α : Type} (dims : Table ℕ) : LinearFactor α → Prop
  | .dense blocks rhs => blocks.keys.Nodup ∧ ∀ entry ∈ blocks,
      dims.get? entry.1 = some entry.2.width ∧ entry.2.height = rhs.length ∧ entry.2.IsRectangular
  | .arrays _ _ => False

theorem Fits.nodup {α : Type} {dims : Table ℕ} {f : LinearFactor α} (h : f.Fits dims) : f.keys.Nodup := by
  cases f with
  | dense blocks rhs => exact h.1
  | arrays blocks rhs => exact h.elim

/-- What a factor misses at an assignment. -/
noncomputable def missed (x : Assignment) : LinearFactor ℝ → Vec ℝ
  | .dense blocks rhs => blocks.foldl
      (fun r entry => Vec.add r (entry.2.rows.map (form · (x entry.1)))) (Vec.neg rhs)
  | .arrays _ _ => []

/-- The sum of the squares of what a factor misses. -/
noncomputable def misfit (x : Assignment) (f : LinearFactor ℝ) : ℝ := squares (f.missed x)

variable {dims : Table ℕ}

theorem missed_congr {f : LinearFactor ℝ} (hfits : f.Fits dims) {x y : Assignment}
    (h : ∀ key ∈ f.keys, ∀ j < dims.dimOf key, x key j = y key j) : f.missed x = f.missed y := by
  cases f with
  | arrays blocks rhs => rfl
  | dense blocks rhs =>
    obtain ⟨-, hblocks⟩ := hfits
    have hsame : ∀ entry ∈ blocks, entry.2.rows.map (form · (x entry.1)) =
        entry.2.rows.map (form · (y entry.1)) := by
      intro entry hentry
      obtain ⟨hdim, -, hrect⟩ := hblocks entry hentry
      refine List.map_congr_left fun row hrow => form_congr fun j hj => ?_
      refine h entry.1 (List.mem_map.mpr ⟨entry, hentry, rfl⟩) j ?_
      rwa [Table.dimOf_eq hdim, ← hrect row hrow]
    simp only [missed]
    generalize Vec.neg rhs = r
    clear hblocks h
    induction blocks generalizing r with
    | nil => rfl
    | cons entry blocks ih =>
      rw [List.foldl_cons, List.foldl_cons, hsame entry (by simp),
        ih fun e he => hsame e (List.mem_cons_of_mem _ he)]

/-- Where all is zero, a factor misses its right-hand side. -/
theorem missed_zero {f : LinearFactor ℝ} (hfits : f.Fits dims) : f.missed 0 = Vec.neg f.rhsArray.data := by
  cases f with
  | arrays blocks rhs => exact hfits.elim
  | dense blocks rhs =>
    have hheights : ∀ entry ∈ blocks, entry.2.rows.length = (Vec.neg rhs).length := fun entry hentry =>
      (hfits.2 entry hentry).2.1.trans (by simp [Vec.neg])
    simp only [missed]
    change _ = Vec.neg rhs
    generalize Vec.neg rhs = r at hheights ⊢
    clear hfits
    induction blocks with
    | nil => rfl
    | cons entry blocks ih =>
      obtain ⟨hentry, hheights⟩ := List.forall_mem_cons.mp hheights
      have hadd : Vec.add r (entry.2.rows.map (form · ((0 : Assignment) entry.1))) = r := by
        refine List.ext_getElem (by simp [Vec.add, hentry]) fun i _ _ => ?_
        simp only [Vec.add, List.getElem_zipWith, List.getElem_map, Pi.zero_apply, form_zero, add_zero]
      rw [List.foldl_cons, hadd, ih hheights]

end LinearFactor

namespace Elimination

/-! ### Writing blocks into rows -/

theorem stretch_of_length_eq {β : Type} {xs : List β} {n : ℕ} (h : xs.length = n) :
    stretch n xs = xs := by
  subst h
  cases xs with
  | nil => rfl
  | cons x xs => cases xs <;> rfl

theorem length_overwrite {row part : Vec ℝ} {column : ℕ} (h : column + part.length ≤ row.length) :
    (overwrite row column part).length = row.length := by
  simp only [overwrite, List.length_append, List.length_take, List.length_drop]
  omega

theorem form_overwrite {row part : Vec ℝ} {column : ℕ} (h : column + part.length ≤ row.length)
    (hzero : ∀ j < part.length, row.entry (column + j) = 0) (v : ℕ → ℝ) :
    form (overwrite row column part) v = form row v + form part fun j => v (column + j) := by
  have hmid : ∀ a ∈ (row.drop column).take part.length, a = 0 := by
    intro a ha
    obtain ⟨j, hj, rfl⟩ := List.mem_iff_getElem.mp ha
    rw [List.length_take, List.length_drop] at hj
    have := hzero j (by omega)
    simpa [entry, show column + j < row.length by omega] using this
  rw [overwrite, form_append, form_append, form_take_drop row column (by omega),
    form_take_drop (row.drop column) part.length (by rw [List.length_drop]; omega),
    form_eq_zero hmid, List.drop_drop, List.length_append, List.length_take_of_le (by omega)]
  simp only [Nat.add_assoc]
  ring

theorem entry_overwrite_of_disjoint {row part : Vec ℝ} {column j : ℕ}
    (h : column + part.length ≤ row.length) (hj : j < column ∨ column + part.length ≤ j) :
    (overwrite row column part).entry j = row.entry j := by
  have hfront : (row.take column).length = column := List.length_take_of_le (by omega)
  unfold overwrite entry
  simp only [List.getD_eq_getElem?_getD]
  congr 1
  rcases hj with hj | hj
  · rw [List.append_assoc, List.getElem?_append_left (by omega), List.getElem?_take_of_lt hj]
  · rw [List.getElem?_append_right (by rw [List.length_append, hfront]; omega), List.length_append,
      hfront, List.getElem?_drop]
    congr 1
    omega

theorem form_zipWith_overwrite {rows blockRows : List (Vec ℝ)} {column dim width : ℕ}
    (hrows : ∀ row ∈ rows, row.length = width) (hblock : ∀ xs ∈ blockRows, xs.length = dim)
    (hcount : blockRows.length = rows.length) (hroom : column + dim ≤ width)
    (hzero : ∀ row ∈ rows, ∀ j < dim, row.entry (column + j) = 0) (v : ℕ → ℝ) :
    (List.zipWith (fun row xs => overwrite row column (stretch dim xs)) rows blockRows).map
        (form · v) =
      Vec.add (rows.map (form · v)) (blockRows.map (form · fun j => v (column + j))) := by
  refine List.ext_getElem (by simp [Vec.add]) fun i h1 h2 => ?_
  simp only [List.length_map, List.length_zipWith] at h1
  have hi : i < rows.length := by omega
  have hrow := hrows rows[i] (List.getElem_mem hi)
  have hbound : i < blockRows.length := by omega
  have hpart := hblock blockRows[i] (List.getElem_mem hbound)
  simp only [Vec.add, List.getElem_map, List.getElem_zipWith, stretch_of_length_eq hpart]
  refine form_overwrite (by omega) (fun j hj => ?_) v
  exact hzero _ (List.getElem_mem hi) j (hpart ▸ hj)

theorem form_zipWith_rhs {rows : List (Vec ℝ)} {rhs : Vec ℝ} {width : ℕ}
    (hrows : ∀ row ∈ rows, row.length = width) {v : ℕ → ℝ} (hv : v width = -1) :
    (List.zipWith (fun row b => row ++ [b]) rows rhs).map (form · v) =
      Vec.sub (rows.map (form · v)) rhs := by
  refine List.ext_getElem (by simp [Vec.sub]) fun i h1 h2 => ?_
  simp only [List.length_map, List.length_zipWith] at h1
  have hi : i < rows.length := by omega
  have hrow := hrows rows[i] (List.getElem_mem hi)
  simp only [Vec.sub, List.getElem_map, List.getElem_zipWith, form_append, form_cons, form_nil, hrow,
    Nat.add_zero, hv]
  ring

theorem add_sub_right_comm (xs ys zs : Vec ℝ) :
    Vec.add (Vec.sub xs ys) zs = Vec.sub (Vec.add xs zs) ys := by
  refine List.ext_getElem ?_ fun i h1 h2 => ?_
  · simp only [Vec.add, Vec.sub, List.length_zipWith]
    omega
  · simp only [Vec.add, Vec.sub, List.getElem_zipWith]
    ring

variable {dims columns : Table ℕ} {keys : List Key}

/-- One block is written: the rows keep their number and width, and stay zero on the columns of the
    variables on which they were. -/
theorem zipWith_overwrite_spec {entry : Key × Mat ℝ} {rows : List (Vec ℝ)} (hkey : entry.1 ∈ keys)
    (hdim : dims.get? entry.1 = some entry.2.width) (hheight : entry.2.height = rows.length)
    (hrect : entry.2.IsRectangular) (hrows : ∀ row ∈ rows, row.length = dims.widthOf keys)
    {next : List (Vec ℝ)} (hnext : next = List.zipWith (fun row xs =>
      overwrite row (dims.columnOf keys entry.1) (stretch entry.2.width xs)) rows entry.2.rows) :
    next.length = rows.length ∧ (∀ row ∈ next, row.length = dims.widthOf keys) ∧
      ∀ key ∈ keys, key ≠ entry.1 →
        (∀ row ∈ rows, ∀ j < dims.dimOf key, row.entry (dims.columnOf keys key + j) = 0) →
        ∀ row ∈ next, ∀ j < dims.dimOf key, row.entry (dims.columnOf keys key + j) = 0 := by
  have hroom := Table.columnOf_add_dimOf_le dims hkey
  have hsize := Table.dimOf_eq hdim
  have hcount : entry.2.rows.length = rows.length := hheight
  -- a row after the step is a row before it with the block's row written over its columns
  have hsource : ∀ row ∈ next, ∃ old ∈ rows, ∃ part : Vec ℝ, part.length = dims.dimOf entry.1 ∧
      row = overwrite old (dims.columnOf keys entry.1) part := by
    intro row hrow
    rw [hnext] at hrow
    obtain ⟨i, hi, rfl⟩ := List.mem_iff_getElem.mp hrow
    rw [List.length_zipWith] at hi
    have hold : i < rows.length := by omega
    have hnew : i < entry.2.rows.length := by omega
    have hpart := hrect entry.2.rows[i] (List.getElem_mem hnew)
    refine ⟨rows[i], List.getElem_mem hold, _, hpart.trans hsize.symm, ?_⟩
    rw [List.getElem_zipWith, stretch_of_length_eq hpart]
  refine ⟨by rw [hnext, List.length_zipWith, hcount, Nat.min_self], ?_, ?_⟩
  · intro row hrow
    obtain ⟨old, hold, part, hpart, rfl⟩ := hsource row hrow
    rw [length_overwrite (by rw [hpart, hrows old hold]; exact hroom), hrows old hold]
  · intro key hmem hne hzero row hrow j hj
    obtain ⟨old, hold, part, hpart, rfl⟩ := hsource row hrow
    have hapart := Table.columnOf_disjoint dims hmem hkey hne
    rw [entry_overwrite_of_disjoint (by rw [hpart, hrows old hold]; exact hroom)
      (by rw [hpart]; omega)]
    exact hzero old hold j hj

/-- The blocks of a factor are written one after another; where a block is still to be written, the
    rows are zero. -/
theorem foldlM_overwrite_spec
    (hcolumns : ∀ key ∈ keys, columns.get? key = some (dims.columnOf keys key))
    {blocks : Table (Mat ℝ)} {rhs : Vec ℝ} (hkeys : ∀ key ∈ blocks.keys, key ∈ keys)
    (hfits : (LinearFactor.dense blocks rhs).Fits dims) (rows : List (Vec ℝ))
    (hcount : rows.length = rhs.length) (hrows : ∀ row ∈ rows, row.length = dims.widthOf keys)
    (hzero : ∀ key ∈ blocks.keys, ∀ row ∈ rows, ∀ j < dims.dimOf key,
      row.entry (dims.columnOf keys key + j) = 0) :
    ∃ final, blocks.foldlM (fun (rows : List (Vec ℝ)) entry => do
        let column ← columns.find entry.1
        let dim ← dims.find entry.1
        if entry.2.width ≠ dim ∧ entry.2.width ≠ 1 then throw .shapeMismatch
        return List.zipWith (fun row xs => overwrite row column (stretch dim xs)) rows entry.2.rows)
        rows = Except.ok (ε := Error) final ∧
      final.length = rhs.length ∧ (∀ row ∈ final, row.length = dims.widthOf keys) ∧
      ∀ (x : Assignment) (v : ℕ → ℝ),
        (∀ key ∈ keys, ∀ j < dims.dimOf key, v (dims.columnOf keys key + j) = x key j) →
        Vec.sub (final.map (form · v)) rhs = blocks.foldl
          (fun r entry => Vec.add r (entry.2.rows.map (form · (x entry.1))))
          (Vec.sub (rows.map (form · v)) rhs) := by
  induction blocks generalizing rows with
  | nil => exact ⟨rows, rfl, hcount, hrows, fun _ _ _ => rfl⟩
  | cons entry blocks ih =>
    obtain ⟨hnodup, hblocks⟩ := hfits
    obtain ⟨hfresh, hnodup⟩ := List.nodup_cons.mp hnodup
    obtain ⟨hdim, hheight, hrect⟩ := hblocks entry (by simp)
    have hkey : entry.1 ∈ keys := hkeys _ (by simp [Table.keys])
    have hsize := Table.dimOf_eq hdim
    have hroom := Table.columnOf_add_dimOf_le dims hkey
    have hhere := hzero entry.1 (by simp [Table.keys])
    rw [hsize] at hroom hhere
    obtain ⟨next, hnext⟩ : ∃ next, next = List.zipWith (fun row xs =>
      overwrite row (dims.columnOf keys entry.1) (stretch entry.2.width xs)) rows entry.2.rows :=
      ⟨_, rfl⟩
    obtain ⟨hcount', hrows', hothers⟩ := zipWith_overwrite_spec hkey hdim
      (hheight.trans hcount.symm) hrect hrows hnext
    have hzero' : ∀ key ∈ Table.keys blocks, ∀ row ∈ next, ∀ j < dims.dimOf key,
        row.entry (dims.columnOf keys key + j) = 0 := by
      intro key hk
      have hmem : key ∈ Table.keys (entry :: blocks) := List.mem_cons_of_mem _ hk
      exact hothers key (hkeys key hmem) (fun e => hfresh (e ▸ hk)) (hzero key hmem)
    obtain ⟨final, hfinal, hlength, hwidth, hvalues⟩ :=
      ih (fun key hk => hkeys key (List.mem_cons_of_mem _ hk))
        ⟨hnodup, fun e he => hblocks e (List.mem_cons_of_mem _ he)⟩ next (hcount'.trans hcount) hrows'
        hzero'
    refine ⟨final, ?_, hlength, hwidth, ?_⟩
    · rw [foldlM_ok_cons (c := next), hfinal]
      simp only [Table.find_eq_ok.mpr (hcolumns _ hkey), Table.find_eq_ok.mpr hdim]
      rw [hnext]
      simp [bind, Except.bind, pure, Except.pure]
    · intro x v hv
      rw [hvalues x v hv, List.foldl_cons, hnext, form_zipWith_overwrite hrows hrect
        (hheight.trans hcount.symm) hroom hhere, add_sub_right_comm]
      congr 3
      refine List.map_congr_left fun row hrow => form_congr fun j hj => ?_
      exact hv _ hkey j (by rw [hsize, ← hrect row hrow]; exact hj)

/-- **The stacked rows of matrices take what the factor misses as their values.** -/
theorem stackBlocks_spec
    (hcolumns : ∀ key ∈ keys, columns.get? key = some (dims.columnOf keys key))
    {blocks : Table (Mat ℝ)} {rhs : Vec ℝ} (hkeys : ∀ key ∈ blocks.keys, key ∈ keys)
    (hfits : (LinearFactor.dense blocks rhs).Fits dims) :
    ∃ rows, stackBlocks dims columns (dims.widthOf keys) blocks rhs = .ok rows ∧
      rows.length = rhs.length ∧ (∀ row ∈ rows, row.length = dims.widthOf keys + 1) ∧
      ∀ (x : Assignment) (v : ℕ → ℝ),
        (∀ key ∈ keys, ∀ j < dims.dimOf key, v (dims.columnOf keys key + j) = x key j) →
        v (dims.widthOf keys) = -1 →
        rows.map (form · v) = (LinearFactor.dense blocks rhs).missed x := by
  obtain ⟨zeros, hzeros⟩ : ∃ rows : List (Vec ℝ),
      rows = List.replicate rhs.length (Vec.zeros (dims.widthOf keys)) := ⟨_, rfl⟩
  have hrow : ∀ row ∈ zeros, row = List.replicate (dims.widthOf keys) 0 := by
    intro row hrow
    rw [hzeros] at hrow
    exact List.eq_of_mem_replicate hrow
  obtain ⟨final, hfinal, hlength, hwidth, hvalues⟩ := foldlM_overwrite_spec hcolumns hkeys hfits
    zeros (by rw [hzeros, List.length_replicate])
    (fun row h => by rw [hrow row h, List.length_replicate]) (by
      intro key hkey row h j hj
      have := Table.columnOf_add_dimOf_le dims (hkeys key hkey)
      rw [hrow row h]
      simp [entry, show dims.columnOf keys key + j < dims.widthOf keys by omega])
  refine ⟨List.zipWith (fun row b => row ++ [b]) final rhs, ?_, ?_, ?_, ?_⟩
  · simp only [stackBlocks]
    rw [← hzeros, hfinal]
    rfl
  · rw [List.length_zipWith, hlength, Nat.min_self]
  · intro row h
    obtain ⟨i, hi, rfl⟩ := List.mem_iff_getElem.mp h
    rw [List.getElem_zipWith, List.length_append, hwidth _ (List.getElem_mem _), List.length_singleton]
  · intro x v hv hlast
    rw [form_zipWith_rhs hwidth hlast, hvalues x v hv, LinearFactor.missed]
    congr 1
    refine List.ext_getElem (by simp [Vec.sub, Vec.neg, hzeros]) fun i h1 h2 => ?_
    simp [Vec.sub, Vec.neg, hzeros, Vec.zeros, form_replicate_zero]

end Elimination

end LeastSquares
