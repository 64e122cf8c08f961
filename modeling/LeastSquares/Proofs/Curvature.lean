/-
  LeastSquares/Proofs/Curvature.lean
  ==================================
  **How fast a misfit grows along a direction.**

  Along every line through zero a misfit is a quadratic function, and its curvature does not depend
  on the right-hand sides.  An elimination reads it off its reduced rows.  A direction that ends at a
  column of a reduced row has at least the square of the pivot as its curvature, and one that is not
  seen by the rows before has no more.
-/
import LeastSquares.Proofs.Conditionals

namespace LeastSquares

open Vec

/-! ### Curvature -/

/-- How fast a function grows along a direction and against it. -/
noncomputable def curvature (M : Assignment → ℝ) (x : Assignment) : ℝ := 0.5 * (M x + M (-x)) - M 0

theorem curvature_add (M N : Assignment → ℝ) (x : Assignment) :
    curvature (fun x => M x + N x) x = curvature M x + curvature N x := by
  simp only [curvature]
  ring

theorem curvature_const (c : ℝ) (x : Assignment) : curvature (fun _ => c) x = 0 := by
  simp only [curvature]
  ring

theorem curvature_zero (M : Assignment → ℝ) : curvature M 0 = 0 := by
  rw [curvature, neg_zero]
  ring

theorem curvature_sum {β : Type} (items : List β) (M : β → Assignment → ℝ) (x : Assignment) :
    curvature (fun x => (items.map (M · x)).sum) x = (items.map fun i => curvature (M i) x).sum := by
  induction items with
  | nil => exact curvature_const 0 x
  | cons i items ih =>
    simp only [List.map_cons, List.sum_cons]
    rw [curvature_add (M i), ih]

namespace Assignment

variable {dims : Table ℕ}

theorem along_neg (x : Assignment) (keys : List Key) (j : ℕ) :
    (-x).along dims keys j = -x.along dims keys j := by
  induction keys generalizing j with
  | nil => simp [along]
  | cons key keys ih =>
    rw [along, along, ih]
    split <;> rfl

theorem along_zero (keys : List Key) (j : ℕ) : along dims 0 keys j = 0 := by
  induction keys generalizing j with
  | nil => rfl
  | cons key keys ih =>
    rw [along, ih]
    split <;> rfl

end Assignment

namespace Elimination

variable {dims : Table ℕ}

/-- The columns of an assignment with zero behind them. -/
def padded (dims : Table ℕ) (x : Assignment) (keys : List Key) (j : ℕ) : ℝ :=
  if j < dims.widthOf keys then x.along dims keys j else 0

theorem form_augmented (row : Vec ℝ) (x : Assignment) (keys : List Key) :
    form row (augmented dims x keys) =
      form row (padded dims x keys) + form row (augmented dims 0 keys) := by
  rw [← form_add_right]
  refine form_congr fun j _ => ?_
  simp only [Pi.add_apply, augmented, padded, Assignment.along_zero]
  split <;> ring

theorem padded_neg (x : Assignment) (keys : List Key) : padded dims (-x) keys = -padded dims x keys := by
  funext j
  simp only [Pi.neg_apply, padded, Assignment.along_neg]
  split <;> simp

/-- **Rows of numbers have the squares of their values as the curvature** of what they miss. -/
theorem curvature_squares (rows : List (Vec ℝ)) (keys : List Key) (x : Assignment) :
    curvature (fun x => squares (rows.map (form · (augmented dims x keys)))) x =
      squares (rows.map (form · (padded dims x keys))) := by
  induction rows with
  | nil => exact curvature_const 0 x
  | cons row rows ih =>
    have hrow : curvature (fun x => form row (augmented dims x keys) ^ 2) x =
        form row (padded dims x keys) ^ 2 := by
      simp only [curvature]
      rw [form_augmented row x, form_augmented row (-x), padded_neg, form_neg_right]
      ring
    simp only [List.map_cons, squares_cons]
    rw [curvature_add fun x => form row (augmented dims x keys) ^ 2, hrow, ih]

end Elimination

/-! ### Factors and conditionals -/

theorem LinearFactor.curvature_nonneg {dims : Table ℕ} {f : LinearFactor ℝ} (hfits : f.Fits dims)
    (x : Assignment) : 0 ≤ curvature f.misfit x := by
  have hdims : ∀ key ∈ f.keys, ∃ n, dims.get? key = some n := by
    intro key hkey
    cases f with
    | arrays blocks rhs => exact hfits.elim
    | dense blocks rhs =>
      obtain ⟨block, hblock, rfl⟩ := List.mem_map.mp hkey
      exact ⟨_, (hfits.2 block hblock).1⟩
  obtain ⟨⟨columns, width⟩, hcolumns⟩ := columnOffsets_exists hdims
  obtain ⟨stacked, -, -, -, hvalues⟩ := Elimination.stacked_spec
    ((columnOffsets_eq_ok hcolumns).2.2 hfits.nodup) (List.forall_mem_singleton.mpr hfits) (by simp)
  simp only [List.map_singleton, List.sum_singleton] at hvalues
  rw [show f.misfit = fun x => squares (stacked.flatten.map
    (form · (Elimination.augmented dims x f.keys))) from funext fun x => (hvalues x).symm,
    Elimination.curvature_squares]
  exact squares_nonneg _

theorem LinearFactor.curvature_congr {dims : Table ℕ} {f : LinearFactor ℝ} (hfits : f.Fits dims)
    {x y : Assignment} (h : ∀ key ∈ f.keys, ∀ j < dims.dimOf key, x key j = y key j) :
    curvature f.misfit x = curvature f.misfit y := by
  have hneg : ∀ key ∈ f.keys, ∀ j < dims.dimOf key, (-x) key j = (-y) key j := fun key hkey j hj =>
    congrArg Neg.neg (h key hkey j hj)
  simp only [curvature, misfit, missed_congr hfits h, missed_congr hfits hneg]

namespace Conditional

variable {dims : Table ℕ} {c : Conditional ℝ}

/-- A conditional whose right-hand side is zero. -/
noncomputable def homogeneous (c : Conditional ℝ) : Conditional ℝ :=
  { c with rhs := c.rhs.map fun _ => 0 }

theorem IsSolvable.homogeneous (hc : c.IsSolvable) : c.homogeneous.IsSolvable :=
  ⟨hc.triangular, hc.triangle_width, hc.coupling_width, hc.coupling_height, hc.coupling_rect,
    (List.length_map _).trans hc.rhs_length⟩

theorem IsProper.homogeneous (hc : c.IsProper dims) : c.homogeneous.IsProper dims :=
  ⟨hc.solvable.homogeneous, hc.dims_eq, hc.sized⟩

theorem Scheduled.homogeneous {known : List Key} {cs : List (Conditional ℝ)} (h : Scheduled known cs) :
    Scheduled known (cs.map Conditional.homogeneous) := by
  induction h with
  | nil known => exact .nil known
  | cons hnodup hnew hseparator _ ih => exact .cons hnodup hnew hseparator ih

/-- What the rows of a conditional make of an assignment. -/
noncomputable def image (c : Conditional ℝ) (x : Assignment) : Vec ℝ :=
  Vec.add (c.triangle.rows.map (form · (x.along c.dims c.frontals)))
    (c.coupling.rows.map (form · (x.along c.dims c.separator)))

theorem image_neg (c : Conditional ℝ) (x : Assignment) : c.image (-x) = (c.image x).map (-·) := by
  have hrow : ∀ (row : Vec ℝ) (keys : List Key),
      form row ((-x).along c.dims keys) = -form row (x.along c.dims keys) := by
    intro row keys
    rw [← form_neg_right]
    exact congrArg (form row) (funext (x.along_neg keys))
  refine List.ext_getElem (by simp [image, Vec.add]) fun i _ _ => ?_
  simp only [image, Vec.add, List.getElem_map, List.getElem_zipWith, hrow]
  ring

theorem image_zero (c : Conditional ℝ) (x : Assignment) : c.image 0 = (c.image x).map fun _ => 0 := by
  have hrow : ∀ (row : Vec ℝ) (keys : List Key), form row (Assignment.along c.dims 0 keys) = 0 := by
    intro row keys
    rw [← form_zero row]
    exact congrArg (form row) (funext (Assignment.along_zero keys))
  refine List.ext_getElem (by simp [image, Vec.add]) fun i _ _ => ?_
  simp only [image, Vec.add, List.getElem_map, List.getElem_zipWith, hrow]
  ring

/-- **The curvature of a conditional** is what it misses without its right-hand side. -/
theorem curvature_misfit (hc : c.IsSolvable) (x : Assignment) :
    curvature c.misfit x = c.homogeneous.misfit x := by
  have hmean : ∀ us bs : Vec ℝ, us.length = bs.length →
      0.5 * (squares (Vec.sub us bs) + squares (Vec.sub (us.map (-·)) bs)) -
        squares (Vec.sub (us.map fun _ => 0) bs) = squares (Vec.sub us (bs.map fun _ => 0)) := by
    intro us
    induction us with
    | nil => simp [Vec.sub]
    | cons u us ih =>
      intro bs h
      cases bs with
      | nil => simp at h
      | cons b bs =>
        have htail := ih bs (by simpa using h)
        simp only [Vec.sub] at htail
        simp only [Vec.sub, List.map_cons, List.zipWith_cons_cons, squares_cons]
        linear_combination htail
  have hlength : (c.image x).length = c.rhs.length := by
    simp [image, Vec.add, hc.coupling_height, hc.rhs_length]
  have hmissed : ∀ y, c.misfit y = squares (Vec.sub (c.image y) c.rhs) := fun _ => rfl
  rw [curvature, hmissed, hmissed, hmissed, image_neg, image_zero c x, hmean _ _ hlength]
  rfl

theorem curvature_nonneg (hc : c.IsSolvable) (x : Assignment) : 0 ≤ curvature c.misfit x := by
  rw [curvature_misfit hc]
  exact squares_nonneg _

end Conditional

namespace Triangular

/-- The entry of rows on their diagonal, which is zero where no row is. -/
def pivot (rows : List (Vec ℝ)) (place : ℕ) : ℝ := entry (rows.getD place []) place

theorem pivot_eq {rows : List (Vec ℝ)} {place : ℕ} {row : Vec ℝ} (h : rows[place]? = some row) :
    pivot rows place = entry row place := by
  rw [pivot, List.getD_eq_getElem?_getD, h, Option.getD_some]

theorem pivot_eq_zero {rows : List (Vec ℝ)} {place : ℕ} (h : rows.length ≤ place) :
    pivot rows place = 0 := by
  rw [pivot, List.getD_eq_getElem?_getD, List.getElem?_eq_none h]
  rfl

section

variable {width place : ℕ} {rows : List (Vec ℝ)}
  (htrapezoidal : ∀ i j, j < i → ∀ row, rows[i]? = some row → entry row j = 0)

include htrapezoidal

/-- From a column on, a direction that ends there sees the pivot of the column alone. -/
theorem squares_drop {v : ℕ → ℝ} (hone : v place = 1) (hbehind : ∀ j, place < j → v j = 0) :
    squares ((rows.drop place).map (form · v)) = pivot rows place ^ 2 := by
  have hbelow : ∀ (i : ℕ) (row : Vec ℝ), rows[place + i]? = some row → form row v = entry row place := by
    intro i row hrow
    refine form_eq_entry hone fun j hj => ?_
    rcases lt_or_gt_of_ne hj with hlt | hgt
    · exact .inl (htrapezoidal (place + i) j (by omega) row hrow)
    · exact .inr (hbehind j hgt)
  rcases le_or_gt rows.length place with hnone | hsome
  · rw [List.drop_eq_nil_of_le hnone, pivot_eq_zero hnone]
    simp
  · have hrest : ∀ y ∈ (rows.drop (place + 1)).map (form · v), y = 0 := by
      refine List.forall_mem_map.mpr fun row hrow => ?_
      obtain ⟨i, hi⟩ := List.mem_iff_getElem?.mp hrow
      rw [List.getElem?_drop, Nat.add_assoc] at hi
      rw [hbelow (1 + i) row hi]
      exact htrapezoidal _ place (by omega) row hi
    rw [List.drop_eq_getElem_cons hsome, List.map_cons, squares_cons,
      (squares_eq_zero_iff _).mpr hrest, add_zero, hbelow 0 rows[place] (by simp [hsome]),
      pivot_eq (List.getElem?_eq_getElem hsome)]

variable (hwidth : ∀ row ∈ rows, row.length = width) (hplace : place < width)
  (hpivots : ∀ i < place, pivot rows i ≠ 0)

include hwidth hplace hpivots

theorem isTriangular_corner : place ≤ rows.length ∧
    IsTriangular ⟨place, (rows.take place).map (·.take place)⟩ := by
  have hcount : place ≤ rows.length := by
    by_contra hlt
    exact hpivots rows.length (by omega) (pivot_eq_zero le_rfl)
  refine ⟨hcount, by simp [hcount], fun i row hrow => ?_⟩
  simp only [List.getElem?_map, Option.map_eq_some_iff] at hrow
  obtain ⟨full, hfull, rfl⟩ := hrow
  have hi : i < place := by
    have := (List.getElem?_eq_some_iff.mp hfull).1
    rw [List.length_take] at this
    omega
  rw [List.getElem?_take_of_lt hi] at hfull
  have hsame : ∀ j < place, entry (full.take place) j = entry full j := by
    intro j hj
    simp [entry, List.getElem?_take_of_lt hj]
  have hlength : (full.take place).length = place := by
    rw [List.length_take, hwidth full (List.mem_of_getElem? hfull)]
    omega
  rw [Nat.zero_add]
  refine ⟨hlength, fun j hj => ?_, ?_⟩
  · rw [hsame j (by omega)]
    exact htrapezoidal i j hj full hfull
  · rw [hsame i hi, ← pivot_eq hfull]
    exact hpivots i hi

/-- The rows above a column are solved by a direction that ends there. -/
theorem exists_unseen_above : ∃ v : ℕ → ℝ, v place = 1 ∧ (∀ j, place < j → v j = 0) ∧
    ∀ row ∈ rows.take place, form row v = 0 := by
  obtain ⟨-, htriangular⟩ := isTriangular_corner htrapezoidal hwidth hplace hpivots
  have hcorner : ((rows.take place).map fun row => -entry row place).length =
      ((rows.take place).map (·.take place)).length := by simp
  obtain ⟨xs, -, -, hsolved, -⟩ := solve_eq_ok htriangular hcorner
  simp only [List.map_map] at hsolved
  obtain ⟨v, hv⟩ : ∃ v : ℕ → ℝ,
      v = fun j => if j < place then entry xs j else if j = place then 1 else 0 := ⟨_, rfl⟩
  have hone : v place = 1 := by simp [hv]
  have hbehind : ∀ j, place < j → v j = 0 := by
    intro j hj
    simp [hv, show ¬ j < place by omega, show j ≠ place by omega]
  refine ⟨v, hone, hbehind, fun row hrow => ?_⟩
  have hlength := hwidth row (List.mem_of_mem_take hrow)
  have hfront : form (row.take place) v = form (row.take place) xs.entry := by
    refine form_congr fun j hj => ?_
    rw [List.length_take] at hj
    simp [hv, show j < place by omega]
  have hback : (form (row.drop place) fun j => v (place + j)) = entry (row.drop place) 0 :=
    form_eq_entry hone fun j hj => .inr (hbehind _ (by omega))
  have hvalue := List.map_inj_left.mp hsolved row hrow
  simp only [Function.comp_apply] at hvalue
  rw [form_take_drop row place (by omega), hfront, hvalue, hback]
  simp [entry]

end

/-- **A direction that no row before sees**: it ends at a column, and the square of the pivot of the
    column is all that the rows make of it. -/
theorem exists_unseen {width place : ℕ} {rows : List (Vec ℝ)} (hrows : ∀ row ∈ rows, row.length = width)
    (hplace : place < width) (hpivots : ∀ i < place, pivot (reduceRows width rows) i ≠ 0) :
    ∃ v : ℕ → ℝ, v place = 1 ∧ (∀ j, place < j → v j = 0) ∧
      squares (rows.map (form · v)) = pivot (reduceRows width rows) place ^ 2 := by
  have htrapezoidal := reduceRows_trapezoidal width rows
  obtain ⟨v, hone, hbehind, habove⟩ := exists_unseen_above htrapezoidal
    (length_reduceRows width rows hrows).2 hplace hpivots
  refine ⟨v, hone, hbehind, ?_⟩
  rw [← squares_reduceRows width rows hrows, ← List.take_append_drop place (reduceRows width rows),
    List.map_append, squares_append, (squares_eq_zero_iff _).mpr (List.forall_mem_map.mpr habove), zero_add,
    squares_drop htrapezoidal hone hbehind, List.take_append_drop]

end Triangular

/-! ### One elimination -/

namespace Elimination

variable {factors : List (LinearFactor ℝ)} {frontals : List Key} {dims : Table ℕ}

namespace Course

variable {t : Course ℝ}

theorem Stacks.curvature_eq (h : t.Stacks factors frontals dims) (x : Assignment) :
    curvature (fun x => (factors.map (LinearFactor.misfit x)).sum) x =
      squares (t.stacked.flatten.map (form · (padded dims x (frontals ++ t.separator)))) := by
  simp only [← h.squares_rows]
  exact curvature_squares _ _ x

/-- The last entries of the stacked rows are no greater than the right-hand sides. -/
theorem Stacks.sq_last_le (h : t.Stacks factors frontals dims) {row : Vec ℝ}
    (hrow : row ∈ t.stacked.flatten) :
    entry row t.width ^ 2 ≤ (factors.map (LinearFactor.misfit 0)).sum := by
  have hwidth := h.widthOf_eq
  have hform : form row (-augmented dims 0 (frontals ++ t.separator)) = entry row t.width := by
    refine form_eq_entry ?_ fun j hne => ?_
    · rw [Pi.neg_apply, ← hwidth, augmented_last, neg_neg]
    · by_cases hlt : j < t.width
      · right
        rw [Pi.neg_apply, augmented, if_pos (hwidth.symm ▸ hlt), Assignment.along_zero, neg_zero]
      · left
        have hlength := h.rows_length row hrow
        simp [entry, show row.length ≤ j by omega]
  rw [← h.squares_rows, ← hform, form_neg_right, neg_sq]
  exact sq_le_squares (List.mem_map_of_mem hrow)

/-- The entries of the stacked rows are no greater than the columns that they are in. -/
theorem Stacks.abs_le (h : t.Stacks factors frontals dims) {K : ℝ} (hK : 0 ≤ K)
    (hrhs : (factors.map (LinearFactor.misfit 0)).sum ≤ K ^ 2)
    (hcolumns : ∀ key ∈ frontals ++ t.separator, ∀ j < dims.dimOf key,
      curvature (fun x => (factors.map (LinearFactor.misfit x)).sum) (.unit key j) ≤ K ^ 2) :
    ∀ row ∈ t.stacked.flatten, ∀ a ∈ row, |a| ≤ K := by
  intro row hrow a ha
  obtain ⟨i, hi, rfl⟩ := List.mem_iff_getElem.mp ha
  have hentry : row[i] = entry row i := by simp [entry, hi]
  have hwidth := h.widthOf_eq
  rw [h.rows_length row hrow] at hi
  refine abs_le_of_sq_le_sq ?_ hK
  rw [hentry]
  rcases Nat.lt_succ_iff_lt_or_eq.mp hi with hlt | heq
  · obtain ⟨key, hkey, j, hj, hcolumn⟩ := Table.exists_columnOf h.nodup (hwidth.symm ▸ hlt)
    have hform : form row (padded dims (.unit key j) (frontals ++ t.separator)) = entry row i := by
      refine form_eq_entry ?_ fun i' hne => .inr ?_
      · rw [padded, if_pos (hwidth.symm ▸ hlt), Assignment.along_unit h.nodup hkey hj (hwidth.symm ▸ hlt),
          if_pos hcolumn]
      · rw [padded]
        split
        · next hlt' => rw [Assignment.along_unit h.nodup hkey hj hlt', if_neg (hcolumn ▸ hne)]
        · rfl
    refine le_trans ?_ (hcolumns key hkey j hj)
    rw [h.curvature_eq, ← hform]
    exact sq_le_squares (List.mem_map_of_mem hrow)
  · rw [heq]
    exact (h.sq_last_le hrow).trans hrhs

theorem Stacks.length_reduced_le (h : t.Stacks factors frontals dims) :
    t.reduced.rows.length ≤ t.stacked.flatten.length := by
  rw [reduced, Triangular.reduce, (Triangular.length_reduceRows (t.width + 1) _ h.rows_length).1]
  exact min_le_left _ _

/-- An entry of the diagonal is a pivot. -/
theorem pivot_of_diagonal {place : ℕ} {a : ℝ} (h : t.upper.diagonal[place]? = some a) :
    place < t.frontWidth ∧ place < t.reduced.rows.length ∧ Triangular.pivot t.reduced.rows place = a := by
  rw [Mat.diagonal, List.getElem?_mapIdx, Option.map_eq_some_iff] at h
  obtain ⟨row, hrow, rfl⟩ := h
  have hplace := (List.getElem?_eq_some_iff.mp hrow).1
  simp only [upper, Mat.top, List.length_take] at hplace
  have hlt : place < t.frontWidth := by omega
  simp only [upper, Mat.top, List.getElem?_take_of_lt hlt] at hrow
  exact ⟨hlt, by omega, Triangular.pivot_eq hrow⟩

/-- An elimination fails at a pivot that is small beside the entries of its rows. -/
theorem FailsAt.exists_small_pivot {column : ℕ} (hfails : t.FailsAt column)
    (h : t.Stacks factors frontals dims) {K : ℝ} (hK : 1 ≤ K)
    (hentries : ∀ row ∈ t.stacked.flatten, ∀ a ∈ row, |a| ≤ K) :
    ∃ place < t.frontWidth, |Triangular.pivot t.reduced.rows place| ≤ pivotTolerance * K := by
  rcases hfails with ⟨hrows, -⟩ | ⟨-, hgreatest, hfound⟩
  · refine ⟨_, hrows, ?_⟩
    rw [Triangular.pivot_eq_zero h.length_reduced_le, abs_zero]
    exact mul_nonneg pivotTolerance_nonneg (zero_le_one.trans hK)
  · obtain ⟨-, -, a, ha, hattained⟩ := maxAbs?_real hgreatest
    obtain ⟨row, hrow, harow⟩ := List.mem_flatten.mp ha
    have hmax : max 1 t.greatest ≤ K := max_le hK (hattained ▸ hentries row hrow a harow)
    obtain ⟨hlt, hsmall, -⟩ := List.findIdx?_eq_some_iff_getElem.mp hfound
    obtain ⟨hplace, -, hpivot⟩ := pivot_of_diagonal (List.getElem?_eq_getElem hlt)
    refine ⟨column, hplace, ?_⟩
    rw [hpivot]
    exact (of_decide_eq_true hsmall).trans (mul_le_mul_of_nonneg_left hmax pivotTolerance_nonneg)

/-- **An elimination fails** where a direction ends at a column of an eliminated variable and the
    rows make little of it. -/
theorem FailsAt.exists_unseen {column : ℕ} (hfails : t.FailsAt column)
    (h : t.Stacks factors frontals dims) {K : ℝ} (hK : 1 ≤ K)
    (hentries : ∀ row ∈ t.stacked.flatten, ∀ a ∈ row, |a| ≤ K) :
    ∃ place < t.frontWidth, ∃ v : ℕ → ℝ, v place = 1 ∧ (∀ j, place < j → v j = 0) ∧
      squares (t.stacked.flatten.map (form · v)) ≤ (pivotTolerance * K) ^ 2 := by
  have hle := h.frontWidth_le
  have hsmall := hfails.exists_small_pivot h hK hentries
  classical
  -- the first small pivot, so that those before it are not zero
  obtain ⟨hplace, hpivot⟩ := Nat.find_spec hsmall
  have hbefore : ∀ i < Nat.find hsmall, Triangular.pivot t.reduced.rows i ≠ 0 := by
    intro i hi hzero
    refine Nat.find_min hsmall hi ⟨hi.trans hplace, ?_⟩
    rw [hzero, abs_zero]
    exact (abs_nonneg _).trans hpivot
  obtain ⟨v, hone, hbehind, hvalue⟩ := Triangular.exists_unseen h.rows_length
    (by omega : Nat.find hsmall < t.width + 1) hbefore
  refine ⟨_, hplace, v, hone, hbehind, ?_⟩
  rw [hvalue]
  exact sq_le_sq' (neg_le_of_abs_le hpivot) (le_of_abs_le hpivot)

/-- **An elimination that succeeds** makes more than the square of a bound of each direction that ends at
    a column of an eliminated variable, when the pivots exceed the bound. -/
theorem IsExact.sq_lt_curvature (h : t.IsExact factors frontals dims) {bound : ℝ} (hbound : 0 ≤ bound)
    (hpivots : ∀ pivot ∈ t.upper.diagonal, bound < |pivot|) {x : Assignment} {place : ℕ}
    (hplace : place < t.frontWidth) (hone : padded dims x (frontals ++ t.separator) place = 1)
    (hzero : ∀ j, place < j → padded dims x (frontals ++ t.separator) j = 0) :
    bound ^ 2 < curvature (t.conditional frontals dims).misfit x := by
  have hmisfit : (t.conditional frontals dims).misfit = fun x =>
      squares (t.upper.rows.map (form · (augmented dims x (frontals ++ t.separator)))) :=
    funext fun x => by rw [Conditional.misfit, h.conditional_missed]
  have hlt : place < t.upper.rows.length := by rw [h.reduced_rows.2]; exact hplace
  have hrow : t.upper.rows[place]? = some t.upper.rows[place] := List.getElem?_eq_getElem hlt
  have hform : form t.upper.rows[place] (padded dims x (frontals ++ t.separator)) =
      entry t.upper.rows[place] place := by
    refine form_eq_entry hone fun j hj => ?_
    rcases lt_or_gt_of_ne hj with hlt | hgt
    · exact .inl ((h.upper_row hrow).2.1 j hlt)
    · exact .inr (hzero j hgt)
  have hmem : entry t.upper.rows[place] place ∈ t.upper.diagonal := by
    rw [Mat.diagonal, List.mem_iff_getElem?]
    exact ⟨place, by rw [List.getElem?_mapIdx, hrow]; rfl⟩
  have hsquare : bound ^ 2 < entry t.upper.rows[place] place ^ 2 := by
    rw [← sq_abs (entry _ _)]
    exact pow_lt_pow_left₀ (hpivots _ hmem) hbound two_ne_zero
  rw [hmisfit, curvature_squares]
  refine hsquare.trans_le ?_
  rw [← hform]
  exact sq_le_squares (List.mem_map_of_mem (List.getElem_mem hlt))

end Course

end Elimination

end LeastSquares
