/-
  LeastSquares/Proofs/NormalMatrices.lean
  =======================================
  **The normal equations that are formed from stored entries are those of the stacked matrix.**

  What is stored row by row is a product of matrices: each row of the stacked matrix adds its multiples to
  the rows of its columns, and the value of every stored row as a linear form says what has been added.
  Read as matrices, the two sides of the normal equations are the product of the stacked matrix with its
  transpose and the product of the transpose with the right-hand side.  They are what a misfit is as a
  function of the unknowns, so problems whose misfits differ by a multiple of the square of the length have
  matrices that differ by that multiple on the diagonal.
-/
import LeastSquares.Proofs.Gradients

namespace LeastSquares

open Vec Matrix

/-! ### Quadratic functions -/

section Quadratic

variable {l m n : Type} [Fintype l] [Fintype m] [Fintype n]

/-- The squared distance as a function of the unknowns. -/
theorem distanceSq_eq_quadratic (A : Matrix m n ℝ) (b : m → ℝ) (y : n → ℝ) :
    distanceSq A b y = y ⬝ᵥ (Aᵀ * A) *ᵥ y - 2 * (y ⬝ᵥ Aᵀ *ᵥ b) + b ⬝ᵥ b := by
  have hsquare : y ⬝ᵥ (Aᵀ * A) *ᵥ y = (A *ᵥ y) ⬝ᵥ (A *ᵥ y) := by
    rw [← mulVec_mulVec, dotProduct_mulVec, vecMul_transpose]
  have hcross : y ⬝ᵥ Aᵀ *ᵥ b = (A *ᵥ y) ⬝ᵥ b := by
    rw [dotProduct_mulVec, vecMul_transpose]
  rw [hsquare, hcross, distanceSq_eq_dotProduct, sub_dotProduct, dotProduct_sub, dotProduct_sub,
    dotProduct_comm b (A *ᵥ y)]
  ring

/-- A symmetric matrix that no vector sees is zero. -/
theorem eq_zero_of_quadratic [DecidableEq n] {Q : Matrix n n ℝ} (hsymm : Q.IsSymm)
    (h : ∀ y, y ⬝ᵥ Q *ᵥ y = 0) : Q = 0 := by
  have hentry : ∀ i j, Pi.single i 1 ⬝ᵥ Q *ᵥ Pi.single j 1 = Q i j := fun i j => by
    rw [mulVec_single_one, single_one_dotProduct]
    rfl
  have hdiagonal : ∀ i, Q i i = 0 := fun i => (hentry i i).symm.trans (h _)
  ext i j
  -- the vector with ones at the two places sees the two entries, which are the same
  have hboth := h (Pi.single i 1 + Pi.single j 1)
  rw [mulVec_add, dotProduct_add, add_dotProduct, add_dotProduct, hentry, hentry, hentry, hentry,
    hdiagonal, hdiagonal, hsymm.apply i j] at hboth
  rw [Matrix.zero_apply]
  linarith

/-- **Squared distances that differ by a multiple of the square of the length** have the same gradient, and
    matrices that differ by that multiple on the diagonal. -/
theorem normal_of_distanceSq [DecidableEq n] {A : Matrix m n ℝ} {b : m → ℝ} {A' : Matrix l n ℝ}
    {b' : l → ℝ} {c : ℝ} (h : ∀ y, distanceSq A' b' y = distanceSq A b y + c * (y ⬝ᵥ y)) :
    A'ᵀ * A' = Aᵀ * A + c • 1 ∧ A'ᵀ *ᵥ b' = Aᵀ *ᵥ b := by
  have hquadratic : ∀ y, y ⬝ᵥ (A'ᵀ * A') *ᵥ y - 2 * (y ⬝ᵥ A'ᵀ *ᵥ b') + b' ⬝ᵥ b' =
      y ⬝ᵥ (Aᵀ * A) *ᵥ y - 2 * (y ⬝ᵥ Aᵀ *ᵥ b) + b ⬝ᵥ b + c * (y ⬝ᵥ y) := by
    intro y
    rw [← distanceSq_eq_quadratic, ← distanceSq_eq_quadratic, h]
  have hconstant : b' ⬝ᵥ b' = b ⬝ᵥ b := by simpa using hquadratic 0
  have hgradient : ∀ y, y ⬝ᵥ A'ᵀ *ᵥ b' = y ⬝ᵥ Aᵀ *ᵥ b := by
    intro y
    have hagainst := hquadratic (-y)
    simp only [mulVec_neg, neg_dotProduct, dotProduct_neg] at hagainst
    linarith [hquadratic y]
  constructor
  · refine sub_eq_zero.mp (eq_zero_of_quadratic ?_ fun y => ?_)
    · rw [IsSymm, transpose_sub, transpose_add, transpose_mul, transpose_mul, transpose_transpose,
        transpose_transpose, transpose_smul, transpose_one]
    · rw [sub_mulVec, add_mulVec, smul_mulVec, one_mulVec, dotProduct_sub, dotProduct_add,
        dotProduct_smul, smul_eq_mul]
      linarith [hquadratic y, hgradient y]
  · exact dotProduct_eq _ _ fun y => by rw [dotProduct_comm, hgradient, dotProduct_comm]

end Quadratic

/-! ### Rows that are added to -/

/-- The sequence that is one at a place and zero elsewhere. -/
def Vec.unit (place j : ℕ) : ℝ := if j = place then 1 else 0

theorem Vec.form_unit (xs : Vec ℝ) (place : ℕ) : form xs (unit place) = xs.entry place :=
  form_eq_entry (if_pos rfl) fun _ hj => .inr (if_neg hj)

namespace SparseRow

/-- The stored columns ascend and are within a width. -/
def IsWithin (width : ℕ) (row : SparseRow ℝ) : Prop := row.Ascending ∧ ∀ e ∈ row, e.1 < width

/-- A row takes its entry as its value where only the unknown of the column is not zero. -/
theorem IsWithin.form_unit {row : SparseRow ℝ} {width column : ℕ} (h : row.IsWithin width)
    (hcolumn : column < width) : row.form (Vec.unit column) = row.entry column := by
  rw [form_eq_sum h.1 h.2, Finset.sum_eq_single (⟨column, hcolumn⟩ : Fin width)]
  · rw [Vec.unit, if_pos rfl, mul_one]
  · intro j _ hne
    rw [Vec.unit, if_neg fun heq => hne (Fin.ext heq), mul_zero]
  · exact fun hnone => absurd (Finset.mem_univ _) hnone

/-- Adding a multiple of a row keeps the columns in order and adds to the value. -/
theorem addScaled_spec {row other : SparseRow ℝ} {width : ℕ} (hrow : row.IsWithin width)
    (hother : other.IsWithin width) (c : ℝ) : (row.addScaled c other).IsWithin width ∧
      ∀ v, (row.addScaled c other).form v = row.form v + c * other.form v := by
  have hbounds := hother.2
  clear hother
  unfold addScaled
  induction other generalizing row with
  | nil => exact ⟨hrow, fun v => by simp [form]⟩
  | cons e other ih =>
    obtain ⟨he, hrest⟩ := List.forall_mem_cons.mp hbounds
    have hstored : (row.store e.1 (c * e.2)).IsWithin width := by
      refine ⟨ascending_store hrow.1 _ _, fun e' he' => ?_⟩
      rcases mem_store he' with hcolumn | ⟨old, hold, hcolumn⟩
      · exact hcolumn ▸ he
      · exact hcolumn ▸ hrow.2 old hold
    obtain ⟨hwithin, hform⟩ := ih hstored hrest
    refine ⟨hwithin, fun v => ?_⟩
    rw [List.foldl_cons, hform, form_store]
    simp only [form, List.map_cons, List.sum_cons]
    ring

end SparseRow

/-! ### The product with the transposed matrix -/

namespace Sparse

/-- Add to the row of each stored column that multiple of a row. -/
def addProducts {α : Type} [Scalar α] (rows : List (SparseRow α)) (row : SparseRow α) :
    List (SparseRow α) :=
  row.foldl (fun rows e => rows.modify e.1 (·.addScaled e.2 row)) rows

section

variable {row : SparseRow ℝ} {width : ℕ} (hrow : row.IsWithin width)

include hrow

/-- A multiple that is added to one of the rows is added to its value. -/
theorem modify_spec {rows : List (SparseRow ℝ)} (hrows : ∀ old ∈ rows, old.IsWithin width) (place : ℕ)
    (c : ℝ) : (∀ new ∈ rows.modify place (·.addScaled c row), new.IsWithin width) ∧
      ∀ v, (rows.modify place (·.addScaled c row)).map (SparseRow.form · v) =
        Vec.addAt (rows.map (SparseRow.form · v)) place (c * row.form v) := by
  have hadded : ∀ i (hi : i < rows.length), (rows[i].addScaled c row).IsWithin width ∧
      ∀ v, (rows[i].addScaled c row).form v = rows[i].form v + c * row.form v := fun i hi =>
    SparseRow.addScaled_spec (hrows _ (List.getElem_mem hi)) hrow c
  constructor
  · intro new hnew
    obtain ⟨i, hi, rfl⟩ := List.mem_iff_getElem.mp hnew
    rw [List.length_modify] at hi
    rw [List.getElem_modify]
    split
    · exact (hadded i hi).1
    · exact hrows _ (List.getElem_mem hi)
  · intro v
    refine List.ext_getElem (by simp) fun i hi hi' => ?_
    rw [List.length_map, List.length_modify] at hi
    simp only [List.getElem_map, List.getElem_modify, Vec.addAt]
    split
    · exact (hadded i hi).2 v
    · rfl

/-- **The rows with their products take the values with the row added** by its value. -/
theorem addProducts_spec {rows : List (SparseRow ℝ)} (hrows : ∀ old ∈ rows, old.IsWithin width) :
    (∀ new ∈ addProducts rows row, new.IsWithin width) ∧
      ∀ v, (addProducts rows row).map (SparseRow.form · v) =
        addRow (rows.map (SparseRow.form · v)) (row, row.form v) := by
  -- the entries that are left get fewer; the row whose multiples are added stays whole
  have hfold : ∀ (left : SparseRow ℝ) (rows : List (SparseRow ℝ)), (∀ old ∈ rows, old.IsWithin width) →
      (∀ new ∈ left.foldl (fun rows e => rows.modify e.1 (·.addScaled e.2 row)) rows,
        new.IsWithin width) ∧
      ∀ v, (left.foldl (fun rows e => rows.modify e.1 (·.addScaled e.2 row)) rows).map
          (SparseRow.form · v) = addRow (rows.map (SparseRow.form · v)) (left, row.form v) := by
    intro left
    induction left with
    | nil => exact fun rows hrows => ⟨hrows, fun v => rfl⟩
    | cons e left ih =>
      intro rows hrows
      obtain ⟨hnext, hvalue⟩ := modify_spec hrow hrows e.1 e.2
      obtain ⟨hwithin, hvalues⟩ := ih _ hnext
      refine ⟨hwithin, fun v => ?_⟩
      rw [List.foldl_cons, hvalues, hvalue, addRow, addRow, List.foldl_cons]
  exact hfold row rows hrows

end

variable {A : Sparse ℝ}

/-- **The product with the transposed matrix takes as its values the transposed matrix of the values.** -/
theorem gram_spec (h : ∀ row ∈ A.rows, SparseRow.IsWithin A.width row) :
    (∀ row ∈ A.gram.rows, SparseRow.IsWithin A.width row) ∧
      ∀ v, A.gram.rows.map (SparseRow.form · v) =
        A.transposeMulVec (A.rows.map (SparseRow.form · v)) := by
  have hfold : ∀ (left rows : List (SparseRow ℝ)), (∀ row ∈ left, row.IsWithin A.width) →
      (∀ old ∈ rows, old.IsWithin A.width) →
      (∀ new ∈ left.foldl addProducts rows, new.IsWithin A.width) ∧
      ∀ v, (left.foldl addProducts rows).map (SparseRow.form · v) =
        (left.zip (left.map (SparseRow.form · v))).foldl addRow (rows.map (SparseRow.form · v)) := by
    intro left
    induction left with
    | nil => exact fun rows _ hrows => ⟨hrows, fun v => rfl⟩
    | cons row left ih =>
      intro rows hleft hrows
      obtain ⟨hrow, hleft⟩ := List.forall_mem_cons.mp hleft
      obtain ⟨hwithin, hvalues⟩ := addProducts_spec hrow hrows
      obtain ⟨hall, hfinal⟩ := ih _ hleft hwithin
      refine ⟨hall, fun v => ?_⟩
      rw [List.foldl_cons, hfinal, hvalues, List.map_cons, List.zip_cons_cons, List.foldl_cons]
  have hempty : ∀ row ∈ List.replicate A.width ([] : SparseRow ℝ), SparseRow.IsWithin A.width row := by
    intro row hrow
    rw [List.eq_of_mem_replicate hrow]
    exact ⟨List.Pairwise.nil, by simp⟩
  obtain ⟨hwithin, hvalues⟩ := hfold A.rows _ h hempty
  refine ⟨hwithin, fun v => (hvalues v).trans ?_⟩
  rw [List.map_replicate]
  rfl

end Sparse

/-! ### Stored entries as matrices -/

/-- The rows of a matrix. -/
def Mat.ofMatrix {m n : ℕ} (M : Matrix (Fin m) (Fin n) ℝ) : Mat ℝ :=
  ⟨n, List.ofFn fun i => List.ofFn (M i)⟩

/-- A vector lists its entries. -/
theorem Vec.ofFn_entry {xs : Vec ℝ} {n : ℕ} (h : xs.length = n) :
    List.ofFn (fun i : Fin n => xs.entry i) = xs := by
  refine List.ext_getElem (by rw [List.length_ofFn, h]) fun i hi hi' => ?_
  simp [entry, List.getD_eq_getElem?_getD, hi']

theorem Vec.dot_eq_sum {xs ys : Vec ℝ} {n : ℕ} (hxs : xs.length = n) (hys : ys.length = n) :
    dot xs ys = ∑ i : Fin n, xs.entry i * ys.entry i := by
  rw [dot, sum_real, ← List.sum_ofFn]
  congr 1
  refine List.ext_getElem (by simp [hxs, hys]) fun i hi hi' => ?_
  rw [List.length_ofFn] at hi'
  simp [entry, List.getD_eq_getElem?_getD, hxs, hys]

namespace Sparse

/-- The rows of what is stored are those of the matrix. -/
theorem toMat_eq_toMatrix (A : Sparse ℝ) : A.toMat = .ofMatrix A.toMatrix := by
  refine congrArg (Mat.mk A.width) (List.ext_getElem (by simp) fun i hi hi' => ?_)
  refine List.ext_getElem (by simp) fun j hj hj' => ?_
  simp [toMatrix]

variable {A : Sparse ℝ}

section

variable (h : ∀ row ∈ A.rows, SparseRow.IsWithin A.width row)

include h

/-- The values where only the unknown of a column is not zero are the entries of the column. -/
theorem entry_map_form_unit {column : ℕ} (hcolumn : column < A.width) (r : Fin A.rows.length) :
    Vec.entry (A.rows.map (SparseRow.form · (Vec.unit column))) r = A.toMatrix r ⟨column, hcolumn⟩ := by
  have hrow := (h _ (List.getElem_mem r.isLt)).form_unit hcolumn
  simp [Vec.entry, List.getD_eq_getElem?_getD, hrow, toMatrix]

/-- The matrix takes beyond a right-hand side what its rows do. -/
theorem ofFn_mulVec_sub {b : Vec ℝ} (hheight : A.rows.length = b.length) (v : ℕ → ℝ) :
    List.ofFn (fun i => (A.toMatrix *ᵥ fun j => v j) i - b.entry i) =
      Vec.sub (A.rows.map (SparseRow.form · v)) b := by
  refine List.ext_getElem (by simp [Vec.sub, hheight]) fun i hi hi' => ?_
  have hb : i < b.length := by simpa [hheight] using hi
  simp [Vec.sub, toMatrix_mulVec h, Vec.entry, List.getD_eq_getElem?_getD, hb]

/-- The product of the transposed matrix and a vector. -/
theorem transposeMulVec_eq {y : Vec ℝ} (hlength : y.length = A.rows.length) :
    A.transposeMulVec y = List.ofFn (A.toMatrixᵀ *ᵥ fun i => y.entry i) := by
  obtain ⟨hwidth, hform⟩ := transposeMulVec_spec (fun row hrow => (h row hrow).2) y
  refine List.ext_getElem (by rw [hwidth, List.length_ofFn]) fun i hi hi' => ?_
  have hcolumn : i < A.width := hwidth ▸ hi
  have hentry : (A.transposeMulVec y)[i] = Vec.form (A.transposeMulVec y) (Vec.unit i) := by
    rw [Vec.form_unit, Vec.entry, List.getD_eq_getElem?_getD, List.getElem?_eq_getElem hi, Option.getD_some]
  have hrows : (A.rows.map (SparseRow.form · (Vec.unit i))).length = A.rows.length := by simp
  rw [hentry, hform, dot_eq_sum hrows hlength, List.getElem_ofFn]
  exact Finset.sum_congr rfl fun r _ => by rw [entry_map_form_unit h hcolumn]; rfl

/-- **The stored product is the product of matrices.** -/
theorem toMat_gram : A.gram.toMat = .ofMatrix (A.toMatrixᵀ * A.toMatrix) := by
  obtain ⟨hwithin, hvalues⟩ := gram_spec h
  have hcolumn : ∀ j : Fin A.width, A.gram.rows.map (SparseRow.form · (Vec.unit j)) =
      List.ofFn fun i => (A.toMatrixᵀ * A.toMatrix) i j := by
    intro j
    have hentries : (fun r : Fin A.rows.length => Vec.entry
        (A.rows.map (SparseRow.form · (Vec.unit j))) r) = fun r => A.toMatrix r j :=
      funext fun r => entry_map_form_unit h j.isLt r
    rw [hvalues, transposeMulVec_eq h (by simp), hentries]
    rfl
  have hheight : A.gram.rows.length = A.width := by
    have hlength := congrArg List.length (hvalues 0)
    rwa [List.length_map, (transposeMulVec_spec (fun row hrow => (h row hrow).2) _).1] at hlength
  refine congrArg (Mat.mk A.width) (List.ext_getElem (by simp [hheight]) fun i hi hi' => ?_)
  rw [List.length_map] at hi
  rw [List.length_ofFn] at hi'
  rw [List.getElem_map, List.getElem_ofFn]
  refine List.ext_getElem (by simp; rfl) fun j hj hj' => ?_
  rw [List.length_ofFn] at hj'
  have hplace := congrArg (·[i]?) (hcolumn ⟨j, hj'⟩)
  have hrow := (hwithin _ (List.getElem_mem hi)).form_unit hj'
  simp only [List.getElem?_map, List.getElem?_ofFn, List.getElem?_eq_getElem hi, Option.map_some,
    dif_pos hi', hrow, Option.some.injEq] at hplace
  rw [List.getElem_map, List.getElem_range, List.getElem_ofFn, hplace]

end

end Sparse

/-! ### The normal equations of a problem -/

/-- The components of an assignment, along the columns of the variables of an order. -/
noncomputable def Assignment.columns (dims : Table ℕ) (keys : List Key) (x : Assignment) :
    Fin (dims.widthOf keys) → ℝ := fun j => x.along dims keys j

namespace LinearGraph

variable {g : LinearGraph ℝ} {keys : List Key} {dims : Table ℕ}

/-- The two sides of the normal equations that are formed for a problem, with the columns in the order of
    given variables, are a matrix and a vector. -/
def HasNormal (g : LinearGraph ℝ) (keys : List Key) (dims : Table ℕ) {n : ℕ}
    (H : Matrix (Fin n) (Fin n) ℝ) (slope : Fin n → ℝ) : Prop :=
  ∃ A, g.normal keys dims = .ok (A, .ofVector (List.ofFn slope)) ∧ A.toMat = .ofMatrix H

/-- The stacked matrix that is formed for a problem, with the columns in the order of given variables, is a
    matrix, and its right-hand side lists those of the factors. -/
def HasStacked (g : LinearGraph ℝ) (keys : List Key) (dims : Table ℕ) {m n : ℕ}
    (A : Matrix (Fin m) (Fin n) ℝ) : Prop :=
  ∃ stored, g.stacked keys dims = .ok (stored, .ofVector g.rhs) ∧ stored.toMat = .ofMatrix A

/-- **What is formed for a problem is one matrix and its normal equations**, and the matrix takes beyond the
    right-hand side what the factors miss as its values. -/
theorem exists_stacked_normal (hg : g.Accords keys dims) :
    ∃ A : Matrix (Fin g.rhs.length) (Fin (dims.widthOf keys)) ℝ, g.HasStacked keys dims A ∧
      g.HasNormal keys dims (Aᵀ * A) (Aᵀ *ᵥ g.rhs.get) ∧
        ∀ x, List.ofFn (A *ᵥ x.columns dims keys - g.rhs.get) = g.missed x := by
  obtain ⟨⟨width, rows⟩, hA, hwidth, hheight, hrows, hmissed⟩ := stackedMatrix_spec hg
  obtain rfl : width = dims.widthOf keys := hwidth
  -- the height of the stored matrix is that of the right-hand side, but not by definition
  obtain ⟨_, A, b, rfl, hb, hstacked, hnormal, hvalues⟩ : ∃ (m : ℕ)
      (A : Matrix (Fin m) (Fin (dims.widthOf keys)) ℝ) (b : Fin m → ℝ), m = g.rhs.length ∧
      List.ofFn b = g.rhs ∧ g.HasStacked keys dims A ∧ g.HasNormal keys dims (Aᵀ * A) (Aᵀ *ᵥ b) ∧
        ∀ x, List.ofFn (A *ᵥ x.columns dims keys - b) = g.missed x := by
    refine ⟨_, Sparse.toMatrix ⟨dims.widthOf keys, rows⟩, fun i => g.rhs.entry i, hheight, ?_,
      ⟨⟨dims.widthOf keys, rows⟩, ?_, Sparse.toMat_eq_toMatrix _⟩,
      ⟨Sparse.gram ⟨dims.widthOf keys, rows⟩, ?_, Sparse.toMat_gram hrows⟩, fun x => ?_⟩
    · exact Vec.ofFn_entry hheight.symm
    · simp only [stacked, hA, stackedRhs_of_fits hg.fits, bind, Except.bind, pure, Except.pure]
    · rw [normal_eq_ok hg.fits hA, Sparse.transposeMulVec_eq hrows hheight.symm]
    · rw [← hmissed]
      exact Sparse.ofFn_mulVec_sub hrows hheight _
  obtain rfl : b = g.rhs.get := List.ofFn_injective (hb.trans (List.ofFn_get _).symm)
  exact ⟨A, hstacked, hnormal, hvalues⟩

/-- A matrix that takes what the factors miss as its values has the misfit as its squared distance. -/
theorem misfit_eq_of_missed {m n : ℕ} {A : Matrix (Fin m) (Fin n) ℝ} {b : Fin m → ℝ} {y : Fin n → ℝ}
    {x : Assignment} (h : List.ofFn (A *ᵥ y - b) = g.missed x) : g.misfit x = distanceSq A b y := by
  rw [← squares_missed, ← h, squares, List.map_ofFn, List.sum_ofFn]
  rfl

/-- **The normal equations that are formed are those of a matrix whose squared distance is the misfit.** -/
theorem exists_normal (hg : g.Accords keys dims) :
    ∃ (m : ℕ) (A : Matrix (Fin m) (Fin (dims.widthOf keys)) ℝ) (b : Fin m → ℝ),
      g.HasNormal keys dims (Aᵀ * A) (Aᵀ *ᵥ b) ∧
        ∀ x, g.misfit x = distanceSq A b (x.columns dims keys) := by
  obtain ⟨A, -, hnormal, hmissed⟩ := exists_stacked_normal hg
  exact ⟨_, A, g.rhs.get, hnormal, fun x => misfit_eq_of_missed (hmissed x)⟩

end LinearGraph

end LeastSquares
