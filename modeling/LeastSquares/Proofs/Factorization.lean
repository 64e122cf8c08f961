/-
  LeastSquares/Proofs/Factorization.lean
  ======================================
  **A factorization with row exchanges either meets a singular matrix or solves every system.**

  One step takes from every other row the multiple of the pivot row that clears its first entry.  The
  values of the rows at a sequence are then those before the step, less multiples of the value of the
  pivot row, so the step keeps which sequences the rows send to zero and which to a right-hand side that
  is taken through the same step.  A column of zeros leaves its unknown free.
-/
import LeastSquares.Linear.Lu
import LeastSquares.Proofs.NormalMatrices

namespace LeastSquares

open Vec Matrix

theorem Vec.form_ofFn {n : ℕ} (row : Fin n → ℝ) (v : ℕ → ℝ) :
    form (List.ofFn row) v = ∑ j, row j * v j := by
  induction n generalizing v with
  | zero => rfl
  | succ n ih => rw [List.ofFn_succ, form_cons, ih, Fin.sum_univ_succ]; rfl

namespace Lu

/-! ### The pivot row -/

/-- Note the size of the next number of a column, and its place where it is the greatest so far. -/
noncomputable def note (state : ℕ × ℝ × Option ℕ) (x : ℝ) : ℕ × ℝ × Option ℕ :=
  if state.2.1 < |x| then (state.1 + 1, |x|, some state.1) else (state.1 + 1, state.2.1, state.2.2)

/-- What has been noted after a part of a column: its length, a bound of its sizes, and the place of a number
    that is not zero unless the bound is zero. -/
structure Noted (xs : Vec ℝ) (state : ℕ × ℝ × Option ℕ) : Prop where
  length : state.1 = xs.length
  bound : ∀ x ∈ xs, |x| ≤ state.2.1
  nonneg : 0 ≤ state.2.1
  zero : state.2.2 = none → state.2.1 = 0
  place : ∀ place, state.2.2 = some place → ∃ x, xs[place]? = some x ∧ x ≠ 0

theorem Noted.concat {xs : Vec ℝ} {state : ℕ × ℝ × Option ℕ} (h : Noted xs state) (x : ℝ) :
    Noted (xs ++ [x]) (note state x) := by
  have hbefore : ∀ place x', xs[place]? = some x' → (xs ++ [x])[place]? = some x' :=
    fun place x' hx' => by rw [List.getElem?_append_left (List.getElem?_eq_some_iff.mp hx').1, hx']
  have hbound : ∀ {size}, state.2.1 ≤ size → |x| ≤ size → ∀ x' ∈ xs ++ [x], |x'| ≤ size := by
    intro size hold hnew x' hx'
    rcases List.mem_append.mp hx' with hx' | hx'
    · exact (h.bound x' hx').trans hold
    · rwa [List.mem_singleton.mp hx']
  unfold note
  split
  · next hlt =>
    constructor
    · simp [h.length]
    · exact hbound hlt.le le_rfl
    · exact abs_nonneg x
    · exact fun hnone => by cases hnone
    · rintro place ⟨⟩
      refine ⟨x, by simp [h.length], fun hzero => ?_⟩
      rw [hzero, abs_zero] at hlt
      exact absurd h.nonneg (not_le.mpr hlt)
  · next hle =>
    constructor
    · simp [h.length]
    · exact hbound le_rfl (not_lt.mp hle)
    · exact h.nonneg
    · exact h.zero
    · intro place hplace
      obtain ⟨x', hx', hne⟩ := h.place place hplace
      exact ⟨x', hbefore place x' hx', hne⟩

/-- A pivot is not zero, and there is none only in a column of zeros. -/
theorem pivotPlace_spec (xs : Vec ℝ) :
    (pivotPlace xs = none → ∀ x ∈ xs, x = 0) ∧
      ∀ place, pivotPlace xs = some place → ∃ x, xs[place]? = some x ∧ x ≠ 0 := by
  have hnoted : Noted xs (xs.foldl note (0, 0, none)) := by
    induction xs using List.reverseRecOn with
    | nil => exact ⟨rfl, by simp, le_rfl, fun _ => rfl, by simp⟩
    | append_singleton xs x ih => rw [List.foldl_concat]; exact ih.concat x
  have hplace : pivotPlace xs = (xs.foldl note (0, 0, none)).2.2 := by
    rw [pivotPlace]
    congr 3
    funext state x
    simp only [note, Scalar.abs_real]
  rw [hplace]
  refine ⟨fun hnone x hx => ?_, hnoted.place⟩
  have hle := hnoted.bound x hx
  rw [hnoted.zero hnone] at hle
  exact abs_nonpos_iff.mp hle

/-! ### One step -/

/-- A list is known from one of its items and the others. -/
theorem eq_of_eraseIdx {β : Type} {xs ys : List β} {place : ℕ} {x : β} (hxs : xs[place]? = some x)
    (hys : ys[place]? = some x) (h : xs.eraseIdx place = ys.eraseIdx place) : xs = ys := by
  obtain ⟨hx, hxs⟩ := List.getElem?_eq_some_iff.mp hxs
  obtain ⟨hy, hys⟩ := List.getElem?_eq_some_iff.mp hys
  rw [← List.insertIdx_eraseIdx_getElem hx, ← List.insertIdx_eraseIdx_getElem hy, hxs, hys, h]

section

variable {width : ℕ} {rows : List (Vec ℝ)} {pivot : ℝ} {rest : Vec ℝ}

/-- The rows after a step, from the rows besides the pivot row. -/
noncomputable def reduced (pivot : ℝ) (rest : Vec ℝ) (others : List (Vec ℝ)) : List (Vec ℝ) :=
  List.zipWith (fun m (row : Vec ℝ) => Vec.sub row.tail (Vec.scale m rest))
    (others.map fun row => row.headD 0 / pivot) others

/-- The value of a row after a step. -/
theorem map_form_reduced (hpivot : pivot ≠ 0) (hrest : rest.length = width)
    {others : List (Vec ℝ)} (hothers : ∀ row ∈ others, row.length = width + 1) (v : ℕ → ℝ) :
    (reduced pivot rest others).map (form · fun j => v (j + 1)) =
      others.map fun row => form row v - row.headD 0 / pivot * form (pivot :: rest) v := by
  rw [reduced, List.zipWith_map_left, List.zipWith_self, List.map_map]
  refine List.map_congr_left fun row hrow => ?_
  obtain _ | ⟨x, xs⟩ := row
  · exact absurd (hothers _ hrow) (by simp)
  have hlength : xs.length = (Vec.scale (x / pivot) rest).length := by
    have := hothers _ hrow
    rw [List.length_cons] at this
    rw [Vec.scale, List.length_map, hrest]
    omega
  simp only [Function.comp_apply, List.headD_cons, List.tail_cons, form_sub hlength, form_scale, form_cons]
  field_simp
  ring

theorem length_reduced (hrest : rest.length = width) {others : List (Vec ℝ)}
    (hothers : ∀ row ∈ others, row.length = width + 1) :
    ∀ row ∈ reduced pivot rest others, row.length = width := by
  intro row hrow
  obtain ⟨i, hi, rfl⟩ := List.mem_iff_getElem.mp hrow
  simp only [reduced, List.length_zipWith, List.length_map] at hi
  have hi' : i < others.length := by omega
  have hlength := hothers _ (List.getElem_mem hi')
  simp only [reduced, List.getElem_zipWith, Vec.sub, Vec.scale, List.length_zipWith, List.length_tail,
    List.length_map, hrest, hlength]
  omega

/-- A sequence that is sent to zero after the step comes from one that is sent to zero before: the first
    unknown is what the pivot row makes of the others. -/
theorem exists_null_of_reduced (hpivot : pivot ≠ 0) (hrest : rest.length = width) {place : ℕ}
    (hrow : rows[place]? = some (pivot :: rest))
    (hothers : ∀ row ∈ rows.eraseIdx place, row.length = width + 1) {w : ℕ → ℝ} (hfree : ∃ j < width, w j ≠ 0)
    (hzero : ∀ row ∈ reduced pivot rest (rows.eraseIdx place), form row w = 0) :
    ∃ v : ℕ → ℝ, (∃ j < width + 1, v j ≠ 0) ∧ ∀ row ∈ rows, form row v = 0 := by
  obtain ⟨v, hv⟩ : ∃ v : ℕ → ℝ, v = fun j => if j = 0 then -form rest w / pivot else w (j - 1) := ⟨_, rfl⟩
  have hshift : (fun j => v (j + 1)) = w := by simp [hv]
  have hpivotZero : form (pivot :: rest) v = 0 := by
    have hfirst : v 0 = -form rest w / pivot := by simp [hv]
    rw [form_cons, hshift, hfirst, mul_div_cancel₀ _ hpivot, neg_add_cancel]
  obtain ⟨j, hj, hne⟩ := hfree
  refine ⟨v, ⟨j + 1, Nat.succ_lt_succ hj, by simpa [hv] using hne⟩, fun row h => ?_⟩
  obtain ⟨hlt, hget⟩ := List.getElem?_eq_some_iff.mp hrow
  rcases List.mem_cons.mp ((List.getElem_cons_eraseIdx_perm hlt).symm.subset h) with rfl | h
  · rw [hget]
    exact hpivotZero
  · have hvalues := map_form_reduced hpivot hrest hothers v
    rw [hshift, hpivotZero, List.map_eq_replicate_iff.mpr hzero] at hvalues
    have hvalue := List.eq_of_mem_replicate (hvalues ▸ List.mem_map_of_mem h)
    simpa using hvalue

/-- A solution of the system after the step is continued by the first unknown to one of the system before. -/
theorem values_of_reduced (hpivot : pivot ≠ 0) (hrest : rest.length = width) {place : ℕ}
    (hrow : rows[place]? = some (pivot :: rest))
    (hothers : ∀ row ∈ rows.eraseIdx place, row.length = width + 1) {rhs xs : Vec ℝ}
    (hrhs : rhs.length = rows.length) (hxs : xs.length = width)
    (hvalues : (reduced pivot rest (rows.eraseIdx place)).map (form · xs.entry) =
      List.zipWith (fun x m => x - m * rhs.getD place 0) (rhs.eraseIdx place)
        ((rows.eraseIdx place).map fun row => row.headD 0 / pivot)) :
    rows.map (form · (entry ((rhs.getD place 0 - dot rest xs) / pivot :: xs))) = rhs := by
  obtain ⟨y, hy⟩ : ∃ y, y = rhs.getD place 0 := ⟨_, rfl⟩
  obtain ⟨v, hv⟩ : ∃ v, v = entry ((y - dot rest xs) / pivot :: xs) := ⟨_, rfl⟩
  rw [← hy] at hvalues ⊢
  rw [← hv]
  have hshift : (fun j => v (j + 1)) = xs.entry := by simp [hv]
  have hpivotValue : form (pivot :: rest) v = y := by
    rw [form_cons, hshift, hv, entry_cons_zero, dot_eq_form (by omega)]
    field_simp
    ring
  obtain ⟨hlt, hget⟩ := List.getElem?_eq_some_iff.mp hrow
  have hvalueAt : (rows.map (form · v))[place]? = some y := by
    rw [List.getElem?_map, hrow, Option.map_some, hpivotValue]
  have hrhsAt : rhs[place]? = some y := by
    rw [hy, List.getD_eq_getElem?_getD, List.getElem?_eq_getElem (hrhs ▸ hlt), Option.getD_some]
  apply eq_of_eraseIdx hvalueAt hrhsAt
  have hstep := map_form_reduced hpivot hrest hothers v
  rw [hshift, hvalues, hpivotValue] at hstep
  rw [List.eraseIdx_map]
  have hcount : (rhs.eraseIdx place).length = (rows.eraseIdx place).length := by
    rw [List.length_eraseIdx_of_lt hlt, List.length_eraseIdx_of_lt (hrhs ▸ hlt), hrhs]
  refine List.ext_getElem (by rw [List.length_map, hcount]) fun i hi hi' => ?_
  have hat := congrArg (·[i]?) hstep
  rw [List.length_map] at hi
  simp only [List.getElem?_zipWith, List.getElem?_map, List.getElem?_eq_getElem hi,
    List.getElem?_eq_getElem hi', Option.map_some, Option.some.injEq] at hat
  rw [List.getElem_map]
  linarith

/-- **A step solves** every system of its rows when the later steps solve those of the rows after it. -/
theorem solve_cons_spec (hpivot : pivot ≠ 0) (hrest : rest.length = width) {place : ℕ}
    (hrow : rows[place]? = some (pivot :: rest))
    (hothers : ∀ row ∈ rows.eraseIdx place, row.length = width + 1) (hcount : rows.length = width + 1)
    {found : List (LuStep ℝ)} (hsolves : ∀ rhs : Vec ℝ, rhs.length = width →
      (solve found rhs).length = width ∧
        (reduced pivot rest (rows.eraseIdx place)).map (form · (solve found rhs).entry) = rhs)
    {multipliers : Vec ℝ}
    (hmultipliers : multipliers = (rows.eraseIdx place).map fun row => row.headD 0 / pivot)
    {rhs : Vec ℝ} (hrhs : rhs.length = width + 1) :
    (solve (⟨place, multipliers, pivot, rest⟩ :: found) rhs).length = width + 1 ∧
      rows.map (form · (solve (⟨place, multipliers, pivot, rest⟩ :: found) rhs).entry) = rhs := by
  subst hmultipliers
  have hlt := (List.getElem?_eq_some_iff.mp hrow).1
  have hlater : (List.zipWith (fun x m => x - m * rhs.getD place 0) (rhs.eraseIdx place)
      ((rows.eraseIdx place).map fun row => row.headD 0 / pivot)).length = width := by
    rw [List.length_zipWith, List.length_map, List.length_eraseIdx_of_lt hlt,
      List.length_eraseIdx_of_lt (by omega)]
    omega
  obtain ⟨hlength, hvalue⟩ := hsolves _ hlater
  constructor
  · rw [solve, List.length_cons, hlength]
  · rw [solve]
    exact values_of_reduced hpivot hrest hrow hothers (hrhs.trans hcount.symm) hlength hvalue

end

/-! ### The whole factorization -/

/-- **The steps end at a matrix that is singular**, with a sequence that all its rows send to zero, or
    they solve the system exactly for every right-hand side. -/
theorem steps_spec {width : ℕ} {rows : List (Vec ℝ)} (hcount : rows.length = width)
    (hrows : ∀ row ∈ rows, row.length = width) :
    (steps width rows = .error .singular ∧
      ∃ v : ℕ → ℝ, (∃ j < width, v j ≠ 0) ∧ ∀ row ∈ rows, form row v = 0) ∨
    ∃ found, steps width rows = .ok found ∧ ∀ rhs : Vec ℝ, rhs.length = width →
      (solve found rhs).length = width ∧ rows.map (form · (solve found rhs).entry) = rhs := by
  induction width generalizing rows with
  | zero =>
    obtain rfl := List.eq_nil_of_length_eq_zero hcount
    exact .inr ⟨[], rfl, fun rhs hrhs => ⟨rfl, (List.eq_nil_of_length_eq_zero hrhs).symm⟩⟩
  | succ width ih =>
    obtain ⟨hnone, hsome⟩ := pivotPlace_spec (rows.map (·.headD 0))
    rw [steps]
    split
    · next hplace =>
      -- a column of zeros: its unknown is free
      refine .inl ⟨rfl, unit 0, ⟨0, Nat.succ_pos _, by simp [unit]⟩, fun row hrow => ?_⟩
      have hhead := hnone hplace _ (List.mem_map_of_mem hrow)
      rw [form_unit]
      cases row with
      | nil => rfl
      | cons x xs => exact hhead
    · next place hplace =>
      obtain ⟨pivot, hpivotAt, hpivot⟩ := hsome place hplace
      rw [List.getElem?_map, Option.map_eq_some_iff] at hpivotAt
      obtain ⟨pivotRow, hrow, hhead⟩ := hpivotAt
      obtain ⟨hlt, hget⟩ := List.getElem?_eq_some_iff.mp hrow
      have hpivotLength := hrows pivotRow (List.mem_of_getElem? hrow)
      obtain _ | ⟨pivot', rest⟩ := pivotRow
      · cases hpivotLength
      obtain rfl : pivot' = pivot := hhead
      have hrest : rest.length = width := Nat.succ.inj hpivotLength
      have hgetD : rows.getD place [] = pivot' :: rest := by
        rw [List.getD_eq_getElem?_getD, hrow, Option.getD_some]
      have hothers : ∀ row ∈ rows.eraseIdx place, row.length = width + 1 := fun row h =>
        hrows row (List.mem_of_mem_eraseIdx h)
      have hreducedCount : (reduced pivot' rest (rows.eraseIdx place)).length = width := by
        simp [reduced, List.length_eraseIdx_of_lt hlt, hcount]
      simp only [hgetD, List.headD_cons, List.tail_cons]
      rcases ih hreducedCount (length_reduced hrest hothers) with
        ⟨herror, w, hfree, hzero⟩ | ⟨found, hfound, hsolves⟩
      · left
        constructor
        · rw [reduced] at herror
          rw [herror]
          rfl
        · exact exists_null_of_reduced hpivot hrest hrow hothers hfree hzero
      · right
        refine ⟨_, ?_, fun rhs => solve_cons_spec hpivot hrest hrow hothers hcount hsolves rfl⟩
        rw [reduced] at hfound
        rw [hfound]
        rfl

/-- **A factorization fails at a singular matrix only**, and otherwise solves every system. -/
theorem factorize_ofMatrix {n : ℕ} (P : Matrix (Fin n) (Fin n) ℝ) :
    (factorize (.ofMatrix P) = .error .singular ∧ ∃ v ≠ 0, P *ᵥ v = 0) ∨
      ∃ found, factorize (.ofMatrix P) = .ok found ∧
        ∀ y : Fin n → ℝ, ∃ x, solve found (List.ofFn y) = List.ofFn x ∧ P *ᵥ x = y := by
  have hcount : (Mat.ofMatrix P).rows.length = n := List.length_ofFn
  have hrows : ∀ row ∈ (Mat.ofMatrix P).rows, row.length = n := by
    intro row hrow
    obtain ⟨i, rfl⟩ := List.mem_ofFn.mp hrow
    exact List.length_ofFn
  have hvalue : ∀ (v : ℕ → ℝ) i, form (List.ofFn (P i)) v = (P *ᵥ fun j => v j) i := fun v i =>
    form_ofFn _ _
  rcases steps_spec hcount hrows with ⟨herror, v, ⟨j, hj, hne⟩, hzero⟩ | ⟨found, hfound, hsolves⟩
  · refine .inl ⟨herror, fun i => v i, fun h => hne (congrFun h ⟨j, hj⟩), funext fun i => ?_⟩
    rw [← hvalue]
    exact hzero _ (List.mem_ofFn.mpr ⟨i, rfl⟩)
  · refine .inr ⟨found, hfound, fun y => ?_⟩
    obtain ⟨hlength, hvalues⟩ := hsolves (List.ofFn y) List.length_ofFn
    refine ⟨fun i => (solve found (List.ofFn y)).entry i, (ofFn_entry hlength).symm, funext fun i => ?_⟩
    have hrow := congrArg (·[(i : ℕ)]?) hvalues
    simpa [Mat.ofMatrix, hvalue] using hrow

end Lu

end LeastSquares
