/-
  LeastSquares/Proofs/SideBySide.lean
  ===================================
  **Two eliminations whose factors have the same blocks.**

  The right-hand sides travel through an elimination as one more column, the last one.  No reflection
  is made for an earlier column from it, so the rows of the two eliminations agree in all columns before
  it, and so do the pivots.  They part only at the bound for the pivots, which grows with the entries of
  the last column as well.
-/
import LeastSquares.Proofs.Pivots

namespace LeastSquares

open Vec

/-! ### Rows that differ in their last entries -/

namespace Triangular

/-- Rows that agree, but for their last entries. -/
def AgreeBeforeLast (rows rows' : List (Vec ℝ)) : Prop :=
  rows.map List.dropLast = rows'.map List.dropLast

namespace AgreeBeforeLast

variable {rows rows' : List (Vec ℝ)}

theorem length_eq (h : AgreeBeforeLast rows rows') : rows.length = rows'.length := by
  simpa using congrArg List.length h

theorem append {more more' : List (Vec ℝ)} (h : AgreeBeforeLast rows rows')
    (hmore : AgreeBeforeLast more more') : AgreeBeforeLast (rows ++ more) (rows' ++ more') := by
  rw [AgreeBeforeLast, List.map_append, List.map_append, h, hmore]

theorem drop (h : AgreeBeforeLast rows rows') (n : ℕ) : AgreeBeforeLast (rows.drop n) (rows'.drop n) := by
  rw [AgreeBeforeLast, List.map_drop, List.map_drop, h]

theorem take (h : AgreeBeforeLast rows rows') (n : ℕ) : AgreeBeforeLast (rows.take n) (rows'.take n) := by
  rw [AgreeBeforeLast, List.map_take, List.map_take, h]

/-- What is read off the entries before the last ones is the same. -/
theorem map_eq (h : AgreeBeforeLast rows rows') {β : Type} {f : Vec ℝ → β}
    (hrows : ∀ row ∈ rows, f row.dropLast = f row) (hrows' : ∀ row ∈ rows', f row.dropLast = f row) :
    rows.map f = rows'.map f := by
  rw [← List.map_congr_left hrows, ← List.map_congr_left hrows']
  simpa [Function.comp_def] using congrArg (List.map f) h

theorem columns_eq {n : ℕ} (h : AgreeBeforeLast rows rows') (hrows : ∀ row ∈ rows, row.length = n + 1)
    (hrows' : ∀ row ∈ rows', row.length = n + 1) {start count : ℕ} (hroom : start + count ≤ n) :
    (rows.map fun row => (row.drop start).take count) =
      rows'.map fun row => (row.drop start).take count := by
  have hcut : ∀ row : Vec ℝ, row.length = n + 1 →
      (row.dropLast.drop start).take count = (row.drop start).take count := by
    intro row hrow
    rw [List.dropLast_eq_take, hrow, Nat.add_sub_cancel, List.drop_take, List.take_take,
      Nat.min_eq_left (by omega)]
  exact h.map_eq (fun row hrow => hcut row (hrows row hrow)) fun row hrow => hcut row (hrows' row hrow)

end AgreeBeforeLast

section

variable {n : ℕ} {rows rows' : List (Vec ℝ)} (hrows : ∀ row ∈ rows, row.length = n + 1)
  (hrows' : ∀ row ∈ rows', row.length = n + 1)

theorem form_dropLast {row : Vec ℝ} (hrow : row.length = n + 1) {v : ℕ → ℝ} (hv : v n = 0) :
    form row.dropLast v = form row v := by
  rw [form_take_drop row n (by omega), List.dropLast_eq_take, hrow, Nat.add_sub_cancel,
    List.drop_eq_getElem_cons (by omega), List.drop_eq_nil_of_le (by omega)]
  simp [hv]

include hrows hrows'

/-- Rows agree before their last entries when their values agree at the sequences that are zero there. -/
theorem agreeBeforeLast_iff : AgreeBeforeLast rows rows' ↔
    ∀ v : ℕ → ℝ, v n = 0 → rows.map (form · v) = rows'.map (form · v) := by
  constructor
  · intro h v hv
    exact h.map_eq (fun row hrow => form_dropLast (hrows row hrow) hv)
      fun row hrow => form_dropLast (hrows' row hrow) hv
  · intro h
    have hcount : rows.length = rows'.length := by simpa using congrArg List.length (h 0 rfl)
    refine List.ext_getElem (by simpa using hcount) fun i hi hi' => ?_
    rw [List.length_map] at hi hi'
    have hlength := hrows _ (List.getElem_mem hi)
    have hlength' := hrows' _ (List.getElem_mem hi')
    rw [List.getElem_map, List.getElem_map]
    refine List.ext_getElem (by simp [hlength, hlength']) fun j hj hj' => ?_
    rw [List.length_dropLast, hlength, Nat.add_sub_cancel] at hj
    have hvalue : ∀ row : Vec ℝ, form row (Pi.single j 1) = row.entry j := fun row =>
      form_eq_entry (by simp) fun k hk => .inr (by simp [hk])
    have hsame := congrArg (·[i]?) (h (Pi.single j 1) (by simp [hj.ne]))
    simp only [List.getElem?_map, List.getElem?_eq_getElem hi, List.getElem?_eq_getElem hi',
      Option.map_some, hvalue, Option.some.injEq] at hsame
    simpa [entry, hlength, hlength', show j < n + 1 by omega] using hsame

end

theorem AgreeBeforeLast.map_tail {rows rows' : List (Vec ℝ)} (h : AgreeBeforeLast rows rows') :
    AgreeBeforeLast (rows.map List.tail) (rows'.map List.tail) := by
  have hcomm : ∀ rows : List (Vec ℝ), (rows.map List.tail).map List.dropLast =
      (rows.map List.dropLast).map List.tail := by
    intro rows
    simp only [List.map_map]
    exact List.map_congr_left fun row _ => List.tail_dropLast.symm
  rw [AgreeBeforeLast, hcomm, hcomm, h]

theorem AgreeBeforeLast.map_cons {n : ℕ} {rows rows' : List (Vec ℝ)} (h : AgreeBeforeLast rows rows')
    (hrows : ∀ row ∈ rows, row.length = n + 1) (hrows' : ∀ row ∈ rows', row.length = n + 1) (a : ℝ) :
    AgreeBeforeLast (rows.map (a :: ·)) (rows'.map (a :: ·)) := by
  have hcomm : ∀ rows : List (Vec ℝ), (∀ row ∈ rows, row.length = n + 1) →
      (rows.map (a :: ·)).map List.dropLast = (rows.map List.dropLast).map (a :: ·) := by
    intro rows hrows
    simp only [List.map_map]
    refine List.map_congr_left fun row hrow => ?_
    exact List.dropLast_cons_of_ne_nil (List.ne_nil_of_length_eq_add_one (hrows row hrow))
  rw [AgreeBeforeLast, hcomm rows hrows, hcomm rows' hrows', h]

/-- A reflection for an earlier column treats the last entries apart. -/
theorem AgreeBeforeLast.apply {n : ℕ} {r : Reflection ℝ} {first first' : Vec ℝ}
    {others others' : List (Vec ℝ)} (h : AgreeBeforeLast (first :: others) (first' :: others'))
    (hrows : ∀ row ∈ first :: others, row.length = n + 1)
    (hrows' : ∀ row ∈ first' :: others', row.length = n + 1)
    (hlength : r.direction.length = others.length) :
    AgreeBeforeLast ((r.apply first others).1 :: (r.apply first others).2)
      ((r.apply first' others').1 :: (r.apply first' others').2) := by
  have hcount : others.length = others'.length := by simpa using h.length_eq
  obtain ⟨hfirst, hothers⟩ := List.forall_mem_cons.mp hrows
  obtain ⟨hfirst', hothers'⟩ := List.forall_mem_cons.mp hrows'
  obtain ⟨htop, -, hrest⟩ := length_apply hfirst hothers hlength
  obtain ⟨htop', -, hrest'⟩ := length_apply hfirst' hothers' (hlength.trans hcount)
  refine (agreeBeforeLast_iff (List.forall_mem_cons.mpr ⟨htop, hrest⟩)
    (List.forall_mem_cons.mpr ⟨htop', hrest'⟩)).mpr fun v hv => ?_
  have hsame := (agreeBeforeLast_iff hrows hrows').mp h v hv
  rw [List.map_cons, List.map_cons] at hsame
  obtain ⟨hhead, htail⟩ := List.cons.inj hsame
  have hvalues := form_apply hfirst hothers hlength v
  rw [hhead, htail, ← form_apply hfirst' hothers' (hlength.trans hcount) v] at hvalues
  obtain ⟨hone, hall⟩ := Prod.mk.inj hvalues
  rw [List.map_cons, List.map_cons, hone, hall]

theorem reduceRows_cons (width : ℕ) {first : Vec ℝ} {others : List (Vec ℝ)} {r : Reflection ℝ}
    (hr : r = Reflection.ofColumn (first.headD 0) (others.map (·.headD 0))) :
    reduceRows (width + 1) (first :: others) =
      (r.image :: (r.apply first.tail (others.map List.tail)).1) ::
        (reduceRows width (r.apply first.tail (others.map List.tail)).2).map (0 :: ·) := by
  subst hr
  rfl

theorem headD_dropLast {row : Vec ℝ} {n : ℕ} (hrow : row.length = n + 1 + 1) :
    row.dropLast.headD 0 = row.headD 0 := by
  match row, hrow with
  | a :: b :: row, _ => rfl

/-- **Reduction does not mix the last column into the others.** -/
theorem AgreeBeforeLast.reduceRows {n : ℕ} {rows rows' : List (Vec ℝ)} (h : AgreeBeforeLast rows rows')
    (hrows : ∀ row ∈ rows, row.length = n + 1) (hrows' : ∀ row ∈ rows', row.length = n + 1) :
    AgreeBeforeLast (reduceRows (n + 1) rows) (reduceRows (n + 1) rows') := by
  induction n generalizing rows rows' with
  | zero =>
    obtain ⟨hcount, hwidth⟩ := length_reduceRows 1 rows hrows
    obtain ⟨hcount', hwidth'⟩ := length_reduceRows 1 rows' hrows'
    have hnil : ∀ row : Vec ℝ, row.length = 1 → row.dropLast = [] := fun row hrow =>
      List.length_eq_zero_iff.mp (by simp [hrow])
    rw [AgreeBeforeLast, List.map_congr_left fun row hrow => hnil row (hwidth row hrow),
      List.map_congr_left fun row hrow => hnil row (hwidth' row hrow), List.map_const', List.map_const',
      hcount, hcount', h.length_eq]
  | succ n ih =>
    cases rows with
    | nil =>
      obtain rfl := List.length_eq_zero_iff.mp h.length_eq.symm
      rfl
    | cons first others =>
      cases rows' with
      | nil => exact absurd h.length_eq (by simp)
      | cons first' others' =>
        have hheads := h.map_eq (f := (·.headD 0)) (fun row hrow => headD_dropLast (hrows row hrow))
          fun row hrow => headD_dropLast (hrows' row hrow)
        rw [List.map_cons, List.map_cons] at hheads
        obtain ⟨hhead, hheads⟩ := List.cons.inj hheads
        obtain ⟨r, hr⟩ : ∃ r, r = Reflection.ofColumn (first.headD 0) (others.map (·.headD 0)) := ⟨_, rfl⟩
        have hr' : r = Reflection.ofColumn (first'.headD 0) (others'.map (·.headD 0)) := by
          rw [hr, hhead, hheads]
        obtain ⟨htail, htails, hdirection⟩ := ofColumn_fits (hrows first (by simp))
          fun row hrow => hrows row (List.mem_cons_of_mem _ hrow)
        obtain ⟨htail', htails', hdirection'⟩ := ofColumn_fits (hrows' first' (by simp))
          fun row hrow => hrows' row (List.mem_cons_of_mem _ hrow)
        rw [← hr] at hdirection
        rw [← hr'] at hdirection'
        have happly := h.map_tail.apply (List.forall_mem_cons.mpr ⟨htail, htails⟩)
          (List.forall_mem_cons.mpr ⟨htail', htails'⟩) hdirection
        obtain ⟨htop, -, hrest⟩ := length_apply htail htails hdirection
        obtain ⟨htop', -, hrest'⟩ := length_apply htail' htails' hdirection'
        rw [reduceRows_cons (n + 1) hr, reduceRows_cons (n + 1) hr']
        have hfinished := (happly.take 1).map_cons (List.forall_mem_singleton.mpr htop)
          (List.forall_mem_singleton.mpr htop') r.image
        exact hfinished.append ((ih (happly.drop 1) hrest hrest').map_cons
          (length_reduceRows _ _ hrest).2 (length_reduceRows _ _ hrest').2 0)

end Triangular

/-! ### Factors that differ in their right-hand sides -/

namespace LinearFactor

/-- Two factors of the same matrices and of right-hand sides of one length. -/
inductive SameBlocks : LinearFactor ℝ → LinearFactor ℝ → Prop
  | dense (blocks : Table (Mat ℝ)) {rhs rhs' : Vec ℝ} :
      rhs.length = rhs'.length → SameBlocks (.dense blocks rhs) (.dense blocks rhs')

namespace SameBlocks

variable {f f' : LinearFactor ℝ}

theorem keys_eq (h : SameBlocks f f') : f.keys = f'.keys := by
  cases h
  rfl

theorem fits {dims : Table ℕ} (h : SameBlocks f f') (hfits : f.Fits dims) : f'.Fits dims := by
  cases h with
  | dense blocks hlength => exact ⟨hfits.1, fun entry hentry => hlength ▸ hfits.2 entry hentry⟩

theorem map_eq {β : Type} {read : LinearFactor ℝ → β} (hread : ∀ {f f'}, SameBlocks f f' → read f = read f')
    {factors factors' : List (LinearFactor ℝ)} (h : List.Forall₂ SameBlocks factors factors') :
    factors.map read = factors'.map read := by
  induction h with
  | nil => rfl
  | cons hhead _ ih => rw [List.map_cons, List.map_cons, hread hhead, ih]

end SameBlocks

end LinearFactor

open LinearFactor Triangular

namespace Elimination

variable {factors factors' : List (LinearFactor ℝ)} {frontals : List Key} {dims position : Table ℕ}

theorem separatorOf_congr (hsame : List.Forall₂ SameBlocks factors factors') :
    separatorOf factors frontals position = separatorOf factors' frontals position := by
  rw [separatorOf, separatorOf, List.flatMap_def, List.flatMap_def,
    SameBlocks.map_eq SameBlocks.keys_eq hsame]

theorem stackBlocks_agree {columns : Table ℕ} {width : ℕ} {blocks : Table (Mat ℝ)} {rhs rhs' : Vec ℝ}
    (hlength : rhs.length = rhs'.length) {rows rows' : List (Vec ℝ)}
    (h : stackBlocks dims columns width blocks rhs = .ok rows)
    (h' : stackBlocks dims columns width blocks rhs' = .ok rows') : AgreeBeforeLast rows rows' := by
  rw [stackBlocks] at h h'
  obtain ⟨filled, hfilled, h⟩ := bind_eq_ok.mp h
  obtain ⟨filled', hfilled', h'⟩ := bind_eq_ok.mp h'
  cases h
  cases h'
  rw [hlength, hfilled', Except.ok.injEq] at hfilled
  subst hfilled
  refine List.ext_getElem (by simp [hlength]) fun i _ _ => ?_
  simp

theorem stacked_agree (hsame : List.Forall₂ SameBlocks factors factors') {columns : Table ℕ} {width : ℕ}
    {stacked stacked' : List (List (Vec ℝ))}
    (h : factors.mapM (stackedRows dims columns width) = .ok stacked)
    (h' : factors'.mapM (stackedRows dims columns width) = .ok stacked') :
    AgreeBeforeLast stacked.flatten stacked'.flatten := by
  rw [mapM_eq_ok_iff] at h h'
  induction hsame generalizing stacked stacked' with
  | nil =>
    cases h
    cases h'
    rfl
  | cons hhead _ ih =>
    cases h with
    | cons hrows h =>
      cases h' with
      | cons hrows' h' =>
        cases hhead with
        | dense blocks hlength => exact (stackBlocks_agree hlength hrows hrows').append (ih h h')

/-! ### The courses of two eliminations -/

/-- Two courses that differ in their last column at most. -/
structure Course.Alike (t t' : Course ℝ) : Prop where
  separator_eq : t.separator = t'.separator
  columns_eq : t.columns = t'.columns
  width_eq : t.width = t'.width
  frontWidth_eq : t.frontWidth = t'.frontWidth
  agree : AgreeBeforeLast t.stacked.flatten t'.stacked.flatten

namespace Course

variable {t t' : Course ℝ}

theorem Alike.symm (h : t.Alike t') : t'.Alike t :=
  ⟨h.separator_eq.symm, h.columns_eq.symm, h.width_eq.symm, h.frontWidth_eq.symm, h.agree.symm⟩

theorem Formed.alike (hsame : List.Forall₂ SameBlocks factors factors')
    (h : t.Formed factors frontals dims position) (h' : t'.Formed factors' frontals dims position) :
    t.Alike t' := by
  obtain ⟨separator, columns, width, frontWidth, stacked, greatest⟩ := t
  obtain ⟨separator', columns', width', frontWidth', stacked', greatest'⟩ := t'
  obtain ⟨hseparator, hcolumns, ⟨fronts, hfront⟩, hstacked⟩ := h
  obtain ⟨hseparator', hcolumns', ⟨fronts', hfront'⟩, hstacked'⟩ := h'
  simp only at hseparator hcolumns hfront hstacked hseparator' hcolumns' hfront' hstacked'
  rw [separatorOf_congr hsame, hseparator', Except.ok.injEq] at hseparator
  subst hseparator
  rw [hcolumns', Except.ok.injEq, Prod.mk.injEq] at hcolumns
  obtain ⟨rfl, rfl⟩ := hcolumns
  rw [hfront', Except.ok.injEq, Prod.mk.injEq] at hfront
  obtain ⟨-, rfl⟩ := hfront
  exact ⟨rfl, rfl, rfl, rfl, stacked_agree hsame hstacked hstacked'⟩

/-- With right-hand sides that are no longer than one, the scale of the pivots is no greater. -/
theorem Alike.scale_le (halike : t.Alike t') (hstacks : t.Stacks factors frontals dims)
    (hsmall : (factors.map (LinearFactor.misfit 0)).sum ≤ 1)
    (hgreatest : maxAbs? t.stacked.flatten.flatten = some t.greatest)
    (hgreatest' : maxAbs? t'.stacked.flatten.flatten = some t'.greatest) :
    max 1 t.greatest ≤ max 1 t'.greatest := by
  obtain ⟨-, -, a, ha, hattained⟩ := maxAbs?_real hgreatest
  obtain ⟨-, hbound, -⟩ := maxAbs?_real hgreatest'
  refine max_le (le_max_left _ _) ?_
  rw [← hattained]
  obtain ⟨row, hrow, harow⟩ := List.mem_flatten.mp ha
  have hlength := hstacks.rows_length row hrow
  obtain ⟨i, hi, rfl⟩ := List.mem_iff_getElem.mp harow
  rw [hlength] at hi
  rcases Nat.lt_succ_iff_lt_or_eq.mp hi with hlt | rfl
  · -- before the last column the entry is one of the other rows as well
    have hmem : row.dropLast ∈ t'.stacked.flatten.map List.dropLast :=
      halike.agree ▸ List.mem_map_of_mem hrow
    obtain ⟨row', hrow', heq⟩ := List.mem_map.mp hmem
    have hentry : row[i] ∈ row'.dropLast := by
      rw [heq, List.mem_iff_getElem]
      exact ⟨i, by rw [List.length_dropLast, hlength]; omega, List.getElem_dropLast _⟩
    exact (hbound _ (List.mem_flatten.mpr ⟨row', hrow', List.mem_of_mem_dropLast hentry⟩)).trans
      (le_max_right _ _)
  · refine le_trans ?_ (le_max_left _ _)
    have hlast := (hstacks.sq_last_le hrow).trans hsmall
    rw [sq_le_one_iff_abs_le_one] at hlast
    simpa [entry, hlength] using hlast

section

variable (halike : t.Alike t') (hstacks : t.Stacks factors frontals dims)
  (hstacks' : t'.Stacks factors' frontals dims)

include halike hstacks hstacks'

theorem Alike.reduced_agree : AgreeBeforeLast t.reduced.rows t'.reduced.rows := by
  have hrows' := hstacks'.rows_length
  rw [← halike.width_eq] at hrows'
  have hagree := halike.agree.reduceRows hstacks.rows_length hrows'
  rwa [reduced, reduced, Triangular.reduce, Triangular.reduce, ← halike.width_eq]

theorem Alike.reduced_length : (∀ row ∈ t.reduced.rows, row.length = t.width + 1) ∧
    ∀ row ∈ t'.reduced.rows, row.length = t.width + 1 := by
  refine ⟨(length_reduceRows _ _ hstacks.rows_length).2, ?_⟩
  rw [halike.width_eq]
  exact (length_reduceRows _ _ hstacks'.rows_length).2

/-- **The pivots are the same.** -/
theorem Alike.diagonal_eq : t.upper.diagonal = t'.upper.diagonal := by
  obtain ⟨hrows, hrows'⟩ := halike.reduced_length hstacks hstacks'
  have hagree := halike.reduced_agree hstacks hstacks'
  have hle := hstacks.frontWidth_le
  refine List.ext_getElem ?_ fun i hi hi' => ?_
  · simp [upper, Mat.top, Mat.diagonal, ← halike.frontWidth_eq, hagree.length_eq]
  · simp only [Mat.diagonal, upper, Mat.top, List.length_mapIdx, List.length_take, lt_min_iff] at hi hi'
    simp only [Mat.diagonal, upper, Mat.top, List.getElem_mapIdx, List.getElem_take]
    have hsame := List.getElem_of_eq hagree (i := i) (by simpa using hi.2)
    rw [List.getElem_map, List.getElem_map] at hsame
    have hentry : ∀ row : Vec ℝ, row.length = t.width + 1 → row.getD i 0 = row.dropLast.getD i 0 := by
      intro row hrow
      simp [hrow, show i < t.width by omega, show i < t.width + 1 by omega]
    rw [hentry _ (hrows _ (List.getElem_mem hi.2)), hentry _ (hrows' _ (List.getElem_mem hi'.2)), hsame]

/-- **Where the right-hand sides are no longer than one, an elimination fails only with the other.** -/
theorem FailsAt.not_succeeds {column : ℕ} (hfails : t.FailsAt column)
    (hsmall : (factors.map (LinearFactor.misfit 0)).sum ≤ 1) :
    ¬ t'.Succeeds factors' frontals dims position := by
  intro hsucceeds
  have hheight := hsucceeds.height_le
  rw [← hstacks'.count, ← halike.frontWidth_eq, ← halike.agree.length_eq] at hheight
  rcases hfails with ⟨hrows, -⟩ | ⟨-, hgreatest, hfound⟩
  · exact absurd hheight (not_le.mpr hrows)
  · obtain ⟨hlt, hpivot, -⟩ := List.findIdx?_eq_some_iff_getElem.mp hfound
    have hscale := halike.scale_le hstacks hsmall hgreatest hsucceeds.greatest_eq
    have hmem : t.upper.diagonal[column] ∈ t'.upper.diagonal := by
      rw [← halike.diagonal_eq hstacks hstacks']
      exact List.getElem_mem hlt
    refine hsucceeds.pivots _ hmem ?_
    rw [Scalar.abs_real, Scalar.largerOf_real]
    exact (of_decide_eq_true hpivot).trans (mul_le_mul_of_nonneg_left hscale pivotTolerance_nonneg)

/-- **Where all right-hand sides are no longer than one, both eliminations fail at one column.** -/
theorem FailsAt.column_eq {column column' : ℕ} (hfails : t.FailsAt column) (hfails' : t'.FailsAt column')
    (hsmall : (factors.map (LinearFactor.misfit 0)).sum ≤ 1)
    (hsmall' : (factors'.map (LinearFactor.misfit 0)).sum ≤ 1) : column = column' := by
  have hcount := halike.agree.length_eq
  have hfront := halike.frontWidth_eq
  rcases hfails with ⟨hrows, rfl⟩ | ⟨hheight, hgreatest, hfound⟩
  · rcases hfails' with ⟨-, rfl⟩ | ⟨hheight, -⟩
    · exact hcount
    · omega
  · rcases hfails' with ⟨hrows, -⟩ | ⟨-, hgreatest', hfound'⟩
    · omega
    · have hscale : max 1 t.greatest = max 1 t'.greatest :=
        le_antisymm (halike.scale_le hstacks hsmall hgreatest hgreatest')
          (halike.symm.scale_le hstacks' hsmall' hgreatest' hgreatest)
      rw [halike.diagonal_eq hstacks hstacks', hscale, hfound'] at hfound
      exact (Option.some.inj hfound).symm

/-- **What the two eliminations leave** has the same blocks. -/
theorem Alike.left {u u' : Option (LinearFactor ℝ)} (hleaves : t.Leaves dims u)
    (hleaves' : t'.Leaves dims u') : Option.Rel SameBlocks u u' := by
  obtain ⟨hrows, hrows'⟩ := halike.reduced_length hstacks hstacks'
  have hbelow : ∀ row ∈ t.lower.rows, row.length = t.width + 1 := fun row hrow =>
    hrows row (List.mem_of_mem_drop hrow)
  have hbelow' : ∀ row ∈ t'.lower.rows, row.length = t.width + 1 := fun row hrow =>
    hrows' row (List.mem_of_mem_drop hrow)
  have hlower : AgreeBeforeLast t.lower.rows t'.lower.rows := by
    have hdrop := (halike.reduced_agree hstacks hstacks').drop t.frontWidth
    rwa [lower, lower, Mat.below, Mat.below, ← halike.frontWidth_eq]
  have hnone : u = none ↔ u' = none := by
    rw [hleaves.eq_none_iff, hleaves'.eq_none_iff, halike.separator_eq,
      ← List.length_eq_zero_iff (l := t.lower.rows), hlower.length_eq, List.length_eq_zero_iff]
  cases u with
  | none =>
    rw [hnone.mp rfl]
    exact .none
  | some f =>
    cases u' with
    | none => exact absurd (hnone.mpr rfl) (Option.some_ne_none f)
    | some f' =>
      have hblocks : (t.separator.map fun key =>
          (key, t.lower.columns (dims.columnOf (frontals ++ t.separator) key) (dims.dimOf key))) =
          t'.separator.map fun key =>
            (key, t'.lower.columns (dims.columnOf (frontals ++ t'.separator) key) (dims.dimOf key)) := by
        rw [← halike.separator_eq]
        refine List.map_congr_left fun key hkey => congrArg (Prod.mk key) ?_
        have hroom := Table.columnOf_add_dimOf_le dims (List.mem_append_right frontals hkey)
        rw [Table.widthOf_append, ← hstacks.width] at hroom
        exact congrArg (Mat.mk _) (hlower.columns_eq hbelow hbelow' hroom)
      rw [hstacks.left_eq hleaves, hstacks'.left_eq hleaves', hblocks]
      refine .some (.dense _ ?_)
      rw [← halike.width_eq, entries_last_column t.lower.width hbelow,
        entries_last_column t'.lower.width hbelow', List.length_map, List.length_map, hlower.length_eq]

end

end Course

end Elimination

/-! ### Outcomes side by side -/

/-- **An outcome keeps up with another**: where the other is a result, it is a related one, and where the
    other is an error and the two are level, it is the same error. -/
inductive KeepsUp {β γ : Type} (level : Prop) (R : β → γ → Prop) :
    Except Error β → Except Error γ → Prop
  | ok {b : β} {c : γ} : R b c → KeepsUp level R (.ok b) (.ok c)
  | error {outcome : Except Error β} {e : Error} :
      (level → outcome = .error e) → KeepsUp level R outcome (.error e)

namespace KeepsUp

variable {β γ β' γ' : Type} {level : Prop} {R : β → γ → Prop} {S : β' → γ' → Prop}
  {outcome : Except Error β} {outcome' : Except Error γ}

theorem bind (h : KeepsUp level R outcome outcome') {next : β → Except Error β'}
    {next' : γ → Except Error γ'} (hnext : ∀ b c, outcome = .ok b → outcome' = .ok c → R b c →
      KeepsUp level S (next b) (next' c)) : KeepsUp level S (outcome >>= next) (outcome' >>= next') := by
  cases h with
  | ok hrelated => exact hnext _ _ rfl rfl hrelated
  | error herror =>
    refine .error fun hlevel => ?_
    rw [herror hlevel]
    rfl

/-- What keeps up is only a matter of the errors, when nothing is asked of the results. -/
theorem congr (h : KeepsUp level R outcome outcome') {other : Except Error β'} {other' : Except Error γ'}
    (herror : ∀ e, outcome = .error e ↔ other = .error e)
    (herror' : ∀ e, outcome' = .error e ↔ other' = .error e) :
    KeepsUp level (fun _ _ => True) other other' := by
  cases other' with
  | error e =>
    rw [(herror' e).mpr rfl] at h
    cases h with
    | error hsame => exact .error fun hlevel => (herror e).mp (hsame hlevel)
  | ok c =>
    cases h with
    | error => exact absurd ((herror' _).mp rfl) (by simp)
    | ok =>
      cases other with
      | ok b => exact .ok trivial
      | error e => exact absurd ((herror e).mpr rfl) (by simp)

theorem exists_error (h : KeepsUp level R outcome outcome') {e : Error} (he : outcome = .error e) :
    ∃ e', outcome' = .error e' := by
  cases h with
  | ok => cases he
  | error => exact ⟨_, rfl⟩

theorem error_iff (h : KeepsUp level R outcome outcome') (hlevel : level) (e : Error) :
    outcome = .error e ↔ outcome' = .error e := by
  cases h with
  | ok => simp
  | error hsame => rw [hsame hlevel, Except.error.injEq, Except.error.injEq]

end KeepsUp

/-! ### One elimination -/

/-- **An elimination keeps up with another whose factors have the same blocks**, when its right-hand
    sides are no longer than one; level are the two when those of the other are not longer either. -/
theorem Elimination.eliminate_keepsUp {order : EliminationOrder} {dims : Table ℕ}
    {factors factors' : List (LinearFactor ℝ)} {frontals : List Key}
    (hsized : ∀ key ∈ order.keys, ∃ n, dims.get? key = some n ∧ 0 < n) (hne : frontals ≠ [])
    (hleads : Leads order dims frontals factors) (hleads' : Leads order dims frontals factors')
    (hsame : List.Forall₂ SameBlocks factors factors')
    (hsmall : (factors.map (LinearFactor.misfit 0)).sum ≤ 1) {level : Prop}
    (hsmall' : level → (factors'.map (LinearFactor.misfit 0)).sum ≤ 1) :
    KeepsUp level (fun found found' => Option.Rel SameBlocks found.2 found'.2)
      (eliminate factors frontals dims order.positions)
      (eliminate factors' frontals dims order.positions) := by
  have hnodup := hleads.nodup
  cases h' : eliminate factors' frontals dims order.positions with
  | ok found' =>
    obtain ⟨c', u'⟩ := found'
    obtain ⟨t', ht', -, hleaves'⟩ := eliminate_eq_ok h'
    have hstacks' := ht'.stacks hnodup hleads'.fits
    cases h : eliminate factors frontals dims order.positions with
    | ok found =>
      obtain ⟨c, u⟩ := found
      obtain ⟨t, ht, -, hleaves⟩ := eliminate_eq_ok h
      have halike := ht.alike hsame ht'.toFormed
      exact .ok (halike.left (ht.stacks hnodup hleads.fits) hstacks' hleaves hleaves')
    | error e =>
      obtain ⟨t, column, -, hformed, hfails, -⟩ := hleads.fails hsized hne h
      exact absurd ht' (hfails.not_succeeds (hformed.alike hsame ht'.toFormed)
        (hformed.stacks hnodup hleads.fits) hstacks' hsmall)
  | error e' =>
    refine .error fun hlevel => ?_
    obtain ⟨t', column', key', hformed', hfails', -, hkey', rfl⟩ := hleads'.fails hsized hne h'
    have hstacks' := hformed'.stacks hnodup hleads'.fits
    cases h : eliminate factors frontals dims order.positions with
    | ok found =>
      obtain ⟨c, u⟩ := found
      obtain ⟨t, ht, -, -⟩ := eliminate_eq_ok h
      exact absurd ht (hfails'.not_succeeds (ht.alike hsame hformed').symm hstacks'
        (ht.stacks hnodup hleads.fits) (hsmall' hlevel))
    | error e =>
      obtain ⟨t, column, key, hformed, hfails, -, hkey, rfl⟩ := hleads.fails hsized hne h
      have hcolumn := hfails.column_eq (hformed.alike hsame hformed')
        (hformed.stacks hnodup hleads.fits) hstacks' hfails' hsmall (hsmall' hlevel)
      rw [hcolumn, hkey', Except.ok.injEq] at hkey
      rw [hkey]

end LeastSquares
