/-
  LeastSquares/Proofs/UndeterminedVariables.lean
  ==============================================
  **Whether a variable that is named is not determined.**

  A pivot that is exactly zero leaves a direction that no row of the front sees.  It is extended to the
  variables that are eliminated already so that no conditional sees it either, and so the stacked matrix
  sends it to zero: the variable of the pivot is not determined.  Where a front has too few rows, the
  variable is named by counting them, without a look at their entries.  Then some variable of the front
  is not determined, but it may be one before the variable that is named.
-/
import LeastSquares.Proofs.Solvability

namespace LeastSquares

open Vec Matrix

variable {order : EliminationOrder} {dims : Table ℕ} {g : LinearGraph ℝ} {M : Assignment → ℝ}

/-! ### Variables that are not determined -/

/-- **A variable is not determined** by a problem: the stacked matrix sends a vector to zero whose block
    for the variable is not zero. -/
def LinearGraph.IsUndetermined (g : LinearGraph ℝ) (keys : List Key) (dims : Table ℕ) (key : Key) : Prop :=
  ∃ A, g.stackedMatrix keys dims = .ok A ∧ ∃ y : Fin A.width → ℝ, A.toMatrix *ᵥ y = 0 ∧
    ∃ i : Fin A.width, dims.columnOf keys key ≤ i ∧ i < dims.columnOf keys key + dims.dimOf key ∧ y i ≠ 0

/-- A misfit does not grow along some direction in which a variable changes. -/
def IsFlatAt (dims : Table ℕ) (M : Assignment → ℝ) (key : Key) : Prop :=
  ∃ x, curvature M x = 0 ∧ ∃ j < dims.dimOf key, x key j ≠ 0

theorem LinearGraph.isUndetermined_of_isFlatAt {keys : List Key} (hg : g.Accords keys dims) {key : Key}
    (hkey : key ∈ keys) (h : IsFlatAt dims g.misfit key) : g.IsUndetermined keys dims key := by
  obtain ⟨A, hA, hwidth, -, hcurvature⟩ := curvature_eq_dotProduct hg
  obtain ⟨x, hflat, j, hj, hne⟩ := h
  have hroom := Table.columnOf_add_dimOf_le dims hkey
  have hcolumn : dims.columnOf keys key + j < A.width := by omega
  refine ⟨A, hA, fun i => x.along dims keys i, ?_, ⟨_, hcolumn⟩, Nat.le_add_right _ _, ?_, ?_⟩
  · rw [hcurvature] at hflat
    exact dotProduct_self_eq_zero.mp hflat
  · exact Nat.add_lt_add_left hj _
  · simp only [Assignment.along_columnOf x hkey hj]
    exact hne

/-! ### Why an elimination fails -/

namespace Elimination

variable {factors : List (LinearFactor ℝ)} {frontals : List Key} {position : Table ℕ} {t : Course ℝ}

/-- The factors of an elimination have fewer rows than the eliminated variables have components. -/
def RunsOut (factors : List (LinearFactor ℝ)) (frontals : List Key) (dims : Table ℕ) : Prop :=
  total (factors.map (·.rows)) < dims.widthOf frontals

/-- The first pivot of an elimination that is too small is exactly zero. -/
def MeetsZero (factors : List (LinearFactor ℝ)) (frontals : List Key) (dims position : Table ℕ) : Prop :=
  ∃ (t : Course ℝ) (column : ℕ), t.Formed factors frontals dims position ∧ t.FailsAt column ∧
    t.upper.diagonal[column]? = some 0

/-- **What an elimination that fails knows about the variable that it names**, for a notion of being
    undetermined.  After a pivot that is exactly zero it is the named variable that is undetermined; when
    the rows run out, it is the named variable or one that is eliminated with it and before it. -/
structure Names (order : EliminationOrder) (dims : Table ℕ) (undetermined : Key → Prop)
    (factors : List (LinearFactor ℝ)) (frontals : List Key) (key : Key) : Prop where
  mem : key ∈ frontals
  fails : eliminate factors frontals dims order.positions = .error (.indeterminate key)
  ofZero : MeetsZero factors frontals dims order.positions → undetermined key
  ofRows : RunsOut factors frontals dims →
    ∃ other ∈ frontals, order.place other ≤ order.place key ∧ undetermined other

theorem Names.imp {P Q : Key → Prop} {key : Key} (h : Names order dims P factors frontals key)
    (hPQ : ∀ key ∈ frontals, P key → Q key) : Names order dims Q factors frontals key where
  mem := h.mem
  fails := h.fails
  ofZero hzero := hPQ key h.mem (h.ofZero hzero)
  ofRows hrows := by
    obtain ⟨other, hother, hplace, hP⟩ := h.ofRows hrows
    exact ⟨other, hother, hplace, hPQ other hother hP⟩

/-- Where one variable is eliminated alone, it is the one that is named. -/
theorem Names.undetermined {P : Key → Prop} {key key' : Key} (h : Names order dims P factors [key] key')
    (hcause : RunsOut factors [key] dims ∨ MeetsZero factors [key] dims order.positions) : P key' := by
  rcases hcause with hrows | hzero
  · obtain ⟨other, hother, -, hP⟩ := h.ofRows hrows
    rwa [List.mem_singleton.mp h.mem, ← List.mem_singleton.mp hother]
  · exact h.ofZero hzero

/-- The variable that is named for a column has the column. -/
theorem exists_columnOf_keyAtColumn {keys : List Key} (hnodup : keys.Nodup) {column : ℕ} {key : Key}
    (h : keyAtColumn dims keys column = .ok key) (hlt : column < dims.widthOf keys) :
    key ∈ keys ∧ ∃ j < dims.dimOf key, column = dims.columnOf keys key + j := by
  induction keys generalizing column with
  | nil => cases h
  | cons first keys ih =>
    obtain ⟨hfirst, hnodup⟩ := List.nodup_cons.mp hnodup
    rw [Table.widthOf_cons] at hlt
    cases keys with
    | nil =>
      obtain rfl := Except.ok.inj h
      refine ⟨List.mem_singleton_self _, column, hlt, ?_⟩
      rw [Table.columnOf, if_pos rfl, Nat.zero_add]
    | cons second keys =>
      obtain ⟨n, hn, h⟩ := bind_eq_ok.mp h
      have hsize := Table.dimOf_eq (Table.find_eq_ok.mp hn)
      split at h
      · next hhere =>
        obtain rfl := Except.ok.inj h
        refine ⟨List.mem_cons_self, column, by rwa [hsize], ?_⟩
        rw [Table.columnOf, if_pos rfl, Nat.zero_add]
      · next hbeyond =>
        obtain ⟨hkey, j, hj, hcolumn⟩ := ih hnodup h (by omega)
        have hne : key ≠ first := fun heq => hfirst (heq ▸ hkey)
        refine ⟨List.mem_cons_of_mem _ hkey, j, hj, ?_⟩
        rw [Table.columnOf, if_neg hne, hsize]
        omega

namespace Course

/-- The steps of an elimination fail at one column only. -/
theorem Formed.fails_unique {t' : Course ℝ} (h : t.Formed factors frontals dims position)
    (h' : t'.Formed factors frontals dims position) {column column' : ℕ} (hfails : t.FailsAt column)
    (hfails' : t'.FailsAt column') : column = column' := by
  obtain ⟨hseparator, hcolumns, ⟨fronts, hfronts⟩, hstacked⟩ := h
  obtain ⟨hseparator', hcolumns', ⟨fronts', hfronts'⟩, hstacked'⟩ := h'
  obtain ⟨separator, columns, width, frontWidth, stacked, greatest⟩ := t
  obtain ⟨separator', columns', width', frontWidth', stacked', greatest'⟩ := t'
  simp only at hseparator hcolumns hfronts hstacked hseparator' hcolumns' hfronts' hstacked'
  rw [hseparator] at hseparator'
  cases hseparator'
  rw [hcolumns] at hcolumns'
  cases hcolumns'
  rw [hfronts] at hfronts'
  cases hfronts'
  rw [hstacked] at hstacked'
  cases hstacked'
  rcases hfails with ⟨hrows, rfl⟩ | ⟨hrows, hgreatest, hfound⟩ <;>
    rcases hfails' with ⟨hrows', rfl⟩ | ⟨hrows', hgreatest', hfound'⟩
  · rfl
  · exact absurd hrows (not_lt.mpr hrows')
  · exact absurd hrows' (not_lt.mpr hrows)
  · simp only at hgreatest hgreatest'
    rw [hgreatest] at hgreatest'
    cases hgreatest'
    exact Option.some.inj (hfound.symm.trans hfound')

/-- Where its steps fail, an elimination names the variable of the column. -/
theorem Formed.eliminate_eq_error (h : t.Formed factors frontals dims position)
    (hcount : t.stacked.flatten.length = total (factors.map (·.rows))) {column : ℕ}
    (hfails : t.FailsAt column) {key : Key} (hkey : keyAtColumn dims frontals column = .ok key) :
    eliminate factors frontals dims position = .error (.indeterminate key) := by
  obtain ⟨fronts, hfronts⟩ := h.front_eq
  simp only [eliminate, h.separator_eq, h.columns_eq, hfronts, bind, Except.bind]
  rcases hfails with ⟨hrows, rfl⟩ | ⟨hrows, hgreatest, hfound⟩
  · rw [hcount] at hrows hkey
    simp only [if_pos hrows, hkey]
    rfl
  · rw [hcount] at hrows
    have hcolumn : ((Triangular.reduce ⟨t.width + 1, t.stacked.flatten⟩).top t.frontWidth).diagonal.findIdx?
        (fun pivot => decide (|pivot| ≤ pivotTolerance * max 1 t.greatest)) = some column := hfound
    simp only [if_neg (not_lt.mpr hrows), h.stacked_eq, Mat.entries, hgreatest, Scalar.abs_real,
      Scalar.largerOf_real, hcolumn, hkey]
    rfl

theorem FailsAt.lt_frontWidth {column : ℕ} (hfails : t.FailsAt column) : column < t.frontWidth := by
  rcases hfails with ⟨hrows, rfl⟩ | ⟨-, -, hfound⟩
  · exact hrows
  · obtain ⟨hlt, -⟩ := List.findIdx?_eq_some_iff_getElem.mp hfound
    exact (pivot_of_diagonal (List.getElem?_eq_getElem hlt)).1

/-- A pivot that is exactly zero, where an elimination fails, is the first that is. -/
theorem FailsAt.first_zero (h : t.Stacks factors frontals dims) {column : ℕ} (hfails : t.FailsAt column)
    (hzero : t.upper.diagonal[column]? = some 0) : Triangular.pivot t.reduced.rows column = 0 ∧
      ∀ place < column, Triangular.pivot t.reduced.rows place ≠ 0 := by
  obtain ⟨-, hrow, hpivot⟩ := pivot_of_diagonal hzero
  refine ⟨hpivot, fun place hplace hother => ?_⟩
  rcases hfails with ⟨-, rfl⟩ | ⟨-, -, hfound⟩
  · exact absurd hrow (not_lt.mpr h.length_reduced_le)
  · obtain ⟨hlt, -, hbefore⟩ := List.findIdx?_eq_some_iff_getElem.mp hfound
    have hentry := (pivot_of_diagonal (List.getElem?_eq_getElem (hplace.trans hlt))).2.2
    rw [hother] at hentry
    have hsmall : |(0 : ℝ)| ≤ pivotTolerance * max 1 t.greatest := by
      rw [abs_zero]
      exact mul_nonneg pivotTolerance_nonneg (zero_le_one.trans (le_max_left _ _))
    exact hbefore place hplace (decide_eq_true (hentry ▸ hsmall))

/-- Where the rows run out, some pivot is the first that is zero, at the named column or before it. -/
theorem FailsAt.exists_first_zero (h : t.Stacks factors frontals dims) {column : ℕ}
    (hfails : t.FailsAt column) (hrows : t.stacked.flatten.length < t.frontWidth) :
    ∃ place ≤ column, Triangular.pivot t.reduced.rows place = 0 ∧
      ∀ i < place, Triangular.pivot t.reduced.rows i ≠ 0 := by
  obtain rfl : column = t.stacked.flatten.length := by
    rcases hfails with ⟨-, hcolumn⟩ | ⟨henough, -⟩
    · exact hcolumn
    · exact absurd hrows (not_lt.mpr henough)
  have hlast : Triangular.pivot t.reduced.rows t.stacked.flatten.length = 0 :=
    Triangular.pivot_eq_zero h.length_reduced_le
  classical
  have hsome : ∃ place, Triangular.pivot t.reduced.rows place = 0 := ⟨_, hlast⟩
  exact ⟨Nat.find hsome, Nat.find_min' hsome hlast, Nat.find_spec hsome, fun i => Nat.find_min hsome⟩

/-- **A first pivot that is zero** leaves a direction that the factors do not see, in which only the
    eliminated variables change, and the variable of the pivot does. -/
theorem Stacks.exists_null (h : t.Stacks factors frontals dims) {place : ℕ} (hplace : place < t.frontWidth)
    (hzero : Triangular.pivot t.reduced.rows place = 0)
    (hbefore : ∀ i < place, Triangular.pivot t.reduced.rows i ≠ 0) :
    ∃ x : Assignment, (∀ key ∉ frontals, x key = 0) ∧
      curvature (fun x => (factors.map (LinearFactor.misfit x)).sum) x = 0 ∧
      ∀ key ∈ frontals, ∀ j < dims.dimOf key, place = dims.columnOf frontals key + j → x key j = 1 := by
  have hle := h.frontWidth_le
  obtain ⟨v, hone, hbehind, hvalue⟩ := Triangular.exists_unseen h.rows_length
    (by omega : place < t.width + 1) hbefore
  rw [h.frontWidth] at hplace
  obtain ⟨x, hothers, hfrontals, hpadded⟩ := exists_direction h.nodup
    fun j hj => hbehind j (hplace.trans_le hj)
  refine ⟨x, hothers, ?_, fun key hkey j hj hat => ?_⟩
  · rw [h.curvature_eq, hpadded, hvalue]
    change Triangular.pivot t.reduced.rows place ^ 2 = 0
    rw [hzero, sq, zero_mul]
  · rw [hfrontals key hkey j hj, ← hat, hone]

end Course

end Elimination

/-! ### In a problem that is being eliminated -/

namespace Underway

open Elimination

variable {known frontals : List Key} {cs : List (Conditional ℝ)} {left mine others : List (LinearFactor ℝ)}

/-- **The variable of a first pivot that is zero** is not determined: what the next factors do not see is
    extended to the eliminated variables so that nothing sees it. -/
theorem isFlatAt_of_first_zero (h : Underway order dims M (known ++ frontals) cs left)
    (hperm : left.Perm (mine ++ others)) (hothers : ∀ f ∈ others, ∀ key ∈ f.keys, key ∉ frontals)
    {t : Course ℝ} (hstacks : t.Stacks mine frontals dims) {place : ℕ} (hplace : place < t.frontWidth)
    (hzero : Triangular.pivot t.reduced.rows place = 0)
    (hbefore : ∀ i < place, Triangular.pivot t.reduced.rows i ≠ 0) {key : Key} (hkey : key ∈ frontals)
    {j : ℕ} (hj : j < dims.dimOf key) (hat : place = dims.columnOf frontals key + j) :
    IsFlatAt dims M key := by
  obtain ⟨x, hx, hflat, hone⟩ := hstacks.exists_null hplace hzero hbefore
  obtain ⟨y, hy, hunseen⟩ := h.scheduled.exists_unseen (fun c hc => (h.made c hc).proper) h.nodup x
  refine ⟨y, ?_, j, hj, ?_⟩
  · rw [h.curvature_of_unseen hperm hothers hx hy hunseen, hflat]
  · rw [hy key (List.mem_append_right _ hkey) j hj, hone key hkey j hj hat]
    exact one_ne_zero

/-- **An elimination that fails in a run** names a variable, and knows about it what it should. -/
theorem names (h : Underway order dims M (known ++ frontals) cs left)
    (hperm : left.Perm (mine ++ others)) (hleads : Leads order dims frontals mine)
    (hothers : ∀ f ∈ others, ∀ key ∈ f.keys, key ∉ frontals)
    (hsized : ∀ key ∈ order.keys, ∃ n, dims.get? key = some n ∧ 0 < n) (hne : frontals ≠ []) {e : Error}
    (herror : eliminate mine frontals dims order.positions = .error e) :
    ∃ key, e = .indeterminate key ∧ Names order dims (IsFlatAt dims M) mine frontals key := by
  obtain ⟨t, column, key, hformed, hfails, -, hat, rfl⟩ := hleads.fails hsized hne herror
  have hstacks := hformed.stacks hleads.nodup hleads.fits
  obtain ⟨hkey, j, hj, hcolumn⟩ := exists_columnOf_keyAtColumn hleads.nodup hat
    (hstacks.frontWidth ▸ hfails.lt_frontWidth)
  refine ⟨key, rfl, hkey, herror, ?_, ?_⟩
  · rintro ⟨t', column', hformed', hfails', hzero⟩
    obtain rfl := hformed.fails_unique hformed' hfails hfails'
    have hstacks' := hformed'.stacks hleads.nodup hleads.fits
    obtain ⟨hpivot, hbefore⟩ := hfails'.first_zero hstacks' hzero
    exact h.isFlatAt_of_first_zero hperm hothers hstacks' hfails'.lt_frontWidth hpivot hbefore hkey hj hcolumn
  · intro hrows
    rw [RunsOut, ← hstacks.count, ← hstacks.frontWidth] at hrows
    obtain ⟨place, hle, hpivot, hbefore⟩ := hfails.exists_first_zero hstacks hrows
    have hplace := hle.trans_lt hfails.lt_frontWidth
    obtain ⟨other, hother, i, hi, hcolumn'⟩ :=
      Table.exists_columnOf hleads.nodup (hstacks.frontWidth ▸ hplace)
    refine ⟨other, hother, ?_,
      h.isFlatAt_of_first_zero hperm hothers hstacks hplace hpivot hbefore hother hi hcolumn'⟩
    -- a variable behind the named one would have its columns behind the column of the named one
    by_contra hlater
    have hbehind : order.Beyond key j other i := .inl (not_le.mp hlater)
    have hlt := (EliminationOrder.columnOf_lt_iff hleads.ascending hleads.listed hkey hother hj hi).mpr
      hbehind
    omega

end Underway

/-! ### One variable after another -/

namespace BayesNet

open Elimination (Names)

/-- The factors and the variables of the elimination at which a run fails. -/
def stoppedAt {α : Type} [Scalar α] (dims position : Table ℕ) :
    List Key → List (Key × LinearFactor α) → Option (List (LinearFactor α) × List Key)
  | [], _ => none
  | key :: keys, pending =>
    let (mine, others) := pending.partition fun entry => entry.1 = key
    match Elimination.eliminate (mine.map (·.2)) [key] dims position with
    | .error _ => some (mine.map (·.2), [key])
    | .ok (_, update) => stoppedAt dims position keys (others ++ waiting update)

theorem stoppedAt_cons {α : Type} [Scalar α] (position : Table ℕ) (key : Key) (keys : List Key)
    (pending : List (Key × LinearFactor α)) : stoppedAt dims position (key :: keys) pending =
      match Elimination.eliminate ((pending.filter fun e => e.1 = key).map Prod.snd) [key] dims position with
      | .error _ => some ((pending.filter fun e => e.1 = key).map Prod.snd, [key])
      | .ok (_, update) => stoppedAt dims position keys
          (pending.filter (fun e => !decide (e.1 = key)) ++ waiting update) := by
  rw [stoppedAt, List.partition_eq_filter_filter]
  rfl

/-- **A run that fails** does so at an elimination of one variable, which it names. -/
theorem eliminateAll_names (hnodup : order.keys.Nodup)
    (hsized : ∀ key ∈ order.keys, ∃ n, dims.get? key = some n ∧ 0 < n) {todo : List Key}
    (hsuffix : todo <:+ order.keys) {pending : List (Key × LinearFactor ℝ)}
    (hready : ∀ e ∈ pending, Ready order dims todo e) {made : List (Conditional ℝ)}
    (h : Underway order dims M todo.reverse made (pending.map Prod.snd)) {e : Error}
    (herror : eliminateAll dims order.positions todo pending = .error e) :
    ∃ factors key, e = .indeterminate key ∧ key ∈ order.keys ∧
      stoppedAt dims order.positions todo pending = some (factors, [key]) ∧
      Names order dims (IsFlatAt dims M) factors [key] key := by
  induction todo generalizing pending made with
  | nil => cases herror
  | cons key keys ih =>
    rw [eliminateAll_cons] at herror
    rw [stoppedAt_cons]
    cases heliminate : Elimination.eliminate ((pending.filter fun e => e.1 = key).map Prod.snd) [key] dims
        order.positions with
    | error e' =>
      rw [heliminate] at herror
      obtain rfl := Except.error.inj herror
      obtain ⟨hleads, hothers⟩ := leads_of_ready hnodup hsuffix hready
      rw [List.reverse_cons] at h
      obtain ⟨key', rfl, hnames⟩ := h.names (filter_pending_perm pending key) hleads hothers hsized
        (List.cons_ne_nil _ _) heliminate
      obtain rfl := List.mem_singleton.mp hnames.mem
      exact ⟨_, _, rfl, hsuffix.subset List.mem_cons_self, rfl, hnames⟩
    | ok found =>
      obtain ⟨c, u⟩ := found
      obtain ⟨hnext, hstep⟩ := underway_next hnodup hsuffix hready h heliminate
      refine ih ((List.suffix_cons key keys).trans hsuffix) hnext hstep ?_
      rw [heliminate] at herror
      simp only [bind, Except.bind] at herror
      split at herror
      · next e' he' => rw [he', ← Except.error.inj herror]
      · cases herror

end BayesNet

namespace SequentialSolver

open Elimination

/-- The factors and the variables of the elimination at which a solver fails on a problem. -/
def stoppedAt {α : Type} [Scalar α] (s : SequentialSolver α) (g : LinearGraph α) :
    Option (List (LinearFactor α) × List Key) :=
  match BayesNet.assign s.order.positions g with
  | .error _ => none
  | .ok pending => BayesNet.stoppedAt s.dims s.order.positions s.order.keys pending

theorem solve_names (s : SequentialSolver ℝ) (hg : g.Fits s.order.keys s.dims) {e : Error}
    (herror : (s.solve g).result = .error e) :
    ∃ factors key, e = .indeterminate key ∧ s.stoppedAt g = some (factors, [key]) ∧
      Names s.order s.dims (g.IsUndetermined s.order.keys s.dims) factors [key] key := by
  obtain ⟨pending, hassign, hready, hstart⟩ := BayesNet.assign_underway hg.accords
  have hfailed : BayesNet.eliminateAll s.dims s.order.positions s.order.keys pending = .error e := by
    rw [solve] at herror
    split at herror
    · next e' he' =>
      obtain rfl := Except.error.inj herror
      rw [BayesNet.eliminate, hassign] at he'
      simp only [bind, Except.bind] at he'
      split at he'
      · next e'' he'' => rw [he'', ← Except.error.inj he']
      · cases he'
    · next net hnet =>
      obtain ⟨d, hd, -⟩ := BayesNet.solution_of_eliminate hg.accords hnet
      rw [hd] at herror
      cases herror
  obtain ⟨factors, key, rfl, hkey, hstopped, hnames⟩ := BayesNet.eliminateAll_names hg.nodup hg.sized
    (List.suffix_refl _) hready hstart hfailed
  refine ⟨factors, key, rfl, by simp only [stoppedAt, hassign, hstopped], hnames.imp fun other hother => ?_⟩
  obtain rfl := List.mem_singleton.mp hother
  exact LinearGraph.isUndetermined_of_isFlatAt hg.accords hkey

end SequentialSolver

/-! ### Front after front -/

namespace BayesTree

open Elimination (Names)
open FrontForest

/-- The factors and the variables of the front at which a run fails. -/
def stoppedAt {α : Type} [Scalar α] (dims position frontOf : Table ℕ) (count : ℕ) :
    ℕ → List Front → List (ℕ × LinearFactor α) → Option (List (LinearFactor α) × List Key)
  | _, [], _ => none
  | index, front :: fronts, pending =>
    let mine := (pending.filter fun entry => entry.1 = index).map (·.2)
    match Elimination.eliminate mine front.frontals dims position with
    | .error _ => some (mine, front.frontals)
    | .ok (_, update) =>
      match routeUpdate frontOf count update with
      | .error _ => none
      | .ok more => stoppedAt dims position frontOf count (index + 1) fronts (pending ++ more)

/-- **A run over fronts that fails** does so at the elimination of a front, of which it names a variable. -/
theorem eliminateFronts_names {table : Table (List Key)} {forest : FrontForest}
    (h : IsSupernodal order g table forest)
    (hsized : ∀ key ∈ order.keys, ∃ n, dims.get? key = some n ∧ 0 < n) {index : ℕ} {fronts : List Front}
    (hfronts : forest.fronts.drop index = fronts) {pending : List (Parcel ℝ)}
    (hbelongs : ∀ p ∈ pending, Belongs forest p.front p.factor)
    (hat : AtFront order dims M index fronts pending) {found : List (Conditional ℝ)} {e : Error}
    (herror : eliminateFronts dims order.positions forest.frontOf forest.fronts.length index fronts
      (pending.map Parcel.waiting) = (found, some e)) :
    ∃ factors frontals key, e = .indeterminate key ∧ (∀ other ∈ frontals, other ∈ order.keys) ∧
      stoppedAt dims order.positions forest.frontOf forest.fronts.length index fronts
        (pending.map Parcel.waiting) = some (factors, frontals) ∧
      Names order dims (IsFlatAt dims M) factors frontals key := by
  induction fronts generalizing index pending found with
  | nil => cases herror
  | cons front fronts ih =>
    have hfront : forest.fronts[index]? = some front := by
      have hhead := congrArg (·[0]?) hfronts
      simpa using hhead
    have hmine := keys_of_belongs hfront hbelongs
    rw [eliminateFronts, mine_eq] at herror
    rw [stoppedAt, mine_eq]
    cases heliminate : Elimination.eliminate ((pending.filter fun p => p.front = index).map (·.factor))
        front.frontals dims order.positions with
    | error e' =>
      simp only [heliminate, Prod.mk.injEq, Option.some.injEq] at herror
      obtain ⟨-, rfl⟩ := herror
      obtain ⟨made, hunderway⟩ := hat
      obtain ⟨hleads, hothers⟩ := h.leads hfront hbelongs fun p hp hindex =>
        hunderway.fits _ (List.mem_map_of_mem (List.mem_filter.mpr ⟨hp, decide_eq_true hindex.ge⟩))
      rw [List.reverse_cons, List.flatMap_append, List.flatMap_singleton] at hunderway
      obtain ⟨key, rfl, hnames⟩ := hunderway.names (filter_waiting_perm pending index) hleads hothers hsized
        (h.ascending front (List.mem_of_getElem? hfront)).1 heliminate
      exact ⟨_, _, key, rfl, hleads.listed, rfl, hnames⟩
    | ok result =>
      obtain ⟨c, u⟩ := result
      cases hroute : routeUpdate forest.frontOf forest.fronts.length u with
      | error e' =>
        have hfails := h.error_of_stops hfront hmine (.inr ⟨c, u, heliminate, hroute⟩)
        rw [heliminate] at hfails
        cases hfails
      | ok more =>
        obtain ⟨sent, rfl⟩ := exists_parcels more
        obtain ⟨hlater, hnext⟩ := hat.next h hfront hbelongs heliminate hroute
        simp only [heliminate, hroute, Prod.mk.injEq] at herror
        simp only [hroute, ← List.map_append] at herror ⊢
        exact ih (by simpa using congrArg (List.drop 1) hfronts) hlater hnext (Prod.ext rfl herror.2)

end BayesTree

namespace MultifrontalSolver

open Elimination (Names)
open FrontForest

/-- The factors and the variables of the front at which a solver fails on a problem. -/
def stoppedAt {α : Type} [Scalar α] (s : MultifrontalSolver α) (g : LinearGraph α) :
    Option (List (LinearFactor α) × List Key) :=
  let s := (s.prepare g).memory
  match BayesTree.assign s.order.positions s.frontOf s.tree.fronts.length g with
  | .error _ => none
  | .ok pending => BayesTree.stoppedAt s.dims s.order.positions s.frontOf s.tree.fronts.length 0
      s.tree.fronts pending

theorem solve_names {s : MultifrontalSolver ℝ} (hs : s.Coherent) (hg : g.Fits s.order.keys s.dims)
    {e : Error} (herror : (s.solve g).result = .error e) :
    ∃ factors frontals key, e = .indeterminate key ∧ s.stoppedAt g = some (factors, frontals) ∧
      Names s.order s.dims (g.IsUndetermined s.order.keys s.dims) factors frontals key := by
  have hfailed : (s.eliminate g).result = .error e := by
    cases ht : (s.eliminate g).result with
    | error e' =>
      simp only [solve, ht] at herror
      rw [Except.error.inj herror]
    | ok t =>
      obtain ⟨d, hd, -⟩ := solve_of_eliminate hs hg ht
      rw [hd] at herror
      cases herror
  obtain ⟨table, -, hforest, hspec⟩ := ofGraph_isSupernodal hg.nodup hg.listed
  obtain ⟨forest, hsame⟩ : ∃ forest, forest = ofSeparators s.order table := ⟨_, rfl⟩
  rw [← hsame] at hforest hspec
  obtain ⟨pending, hassign, htagged, hbelongs⟩ := BayesTree.assign_eq_ok hspec hg.listed
  have hstart := hspec.atFront_of_tagged hg.accords htagged hbelongs
  obtain ⟨horder, hdims, -, hprepared⟩ := prepare_spec hs g
  obtain ⟨hresult, rfl⟩ := hprepared _ hforest
  have hstopped : s.stoppedAt g = BayesTree.stoppedAt s.dims s.order.positions (s.prepare g).memory.frontOf
      (s.prepare g).memory.tree.fronts.length 0 (s.prepare g).memory.tree.fronts
      (pending.map Parcel.waiting) := by
    simp only [stoppedAt, horder, hdims, hassign]
  simp only [eliminate, hresult, horder, hdims, hassign] at hfailed
  split at hfailed
  · next e' hfailure =>
    obtain rfl := Except.error.inj hfailed
    obtain ⟨factors, frontals, key, rfl, hlisted, hat, hnames⟩ := BayesTree.eliminateFronts_names hspec
      hg.sized rfl hbelongs hstart (Prod.ext rfl hfailure)
    refine ⟨factors, frontals, key, rfl, hstopped.trans hat, hnames.imp fun other hother => ?_⟩
    exact LinearGraph.isUndetermined_of_isFlatAt hg.accords (hlisted other hother)
  · cases hfailed

end MultifrontalSolver

/-! ### Both solvers -/

open Elimination in
/-- **Which variable is not determined when one is named.**  One variable after another, the variable that is
    named is not determined, whether the rows have run out or its pivot is exactly zero.  Front after front
    that is so for a pivot that is exactly zero; where the rows have run out, the named variable or one
    that is eliminated in the same front before it is not determined. -/
theorem undetermined_of_named (hg : g.Fits order.keys dims) :
    (∀ net e, (SequentialSolver.solve ⟨order, dims, net⟩ g).result = .error e →
      ∃ factors key, e = .indeterminate key ∧
        SequentialSolver.stoppedAt ⟨order, dims, net⟩ g = some (factors, [key]) ∧
        eliminate factors [key] dims order.positions = .error (.indeterminate key) ∧
        (RunsOut factors [key] dims ∨ MeetsZero factors [key] dims order.positions →
          g.IsUndetermined order.keys dims key)) ∧
    (∀ s : MultifrontalSolver ℝ, s.Reachable order dims → ∀ e, (s.solve g).result = .error e →
      ∃ factors frontals key, e = .indeterminate key ∧ s.stoppedAt g = some (factors, frontals) ∧
        eliminate factors frontals dims order.positions = .error (.indeterminate key) ∧
        (MeetsZero factors frontals dims order.positions → g.IsUndetermined order.keys dims key) ∧
        (RunsOut factors frontals dims → ∃ other ∈ frontals, order.place other ≤ order.place key ∧
          g.IsUndetermined order.keys dims other)) := by
  constructor
  · intro net e herror
    obtain ⟨factors, key, rfl, hstopped, hnames⟩ := SequentialSolver.solve_names ⟨order, dims, net⟩ hg herror
    exact ⟨factors, key, rfl, hstopped, hnames.fails, hnames.undetermined⟩
  · intro s hs e herror
    obtain ⟨rfl, rfl, hcoherent⟩ := hs.coherent
    obtain ⟨factors, frontals, key, rfl, hstopped, hnames⟩ :=
      MultifrontalSolver.solve_names hcoherent hg herror
    exact ⟨factors, frontals, key, rfl, hstopped, hnames.fails, hnames.ofZero, hnames.ofRows⟩

/-! ### One equation for the second of two numbers -/

namespace SecondOnly

open Elimination

/-- Two numbers in the order in which they are eliminated. -/
def inTurn : EliminationOrder := ⟨[.number 0, .number 1]⟩

def sizes : Table ℕ := [(.number 0, 1), (.number 1, 1)]

/-- An equation that says nothing about the first number. -/
noncomputable def second : LinearFactor ℝ := .dense [(.number 0, ⟨1, [[0]]⟩), (.number 1, ⟨1, [[1]]⟩)] [0]

noncomputable def problem : LinearGraph ℝ := ⟨[second]⟩

/-- The numbers are eliminated together. -/
def forest : FrontForest := ⟨[⟨[.number 0, .number 1], [], none, []⟩], [(.number 0, 0), (.number 1, 0)]⟩

/-- A solver that has not been used. -/
def fresh : MultifrontalSolver ℝ := ⟨inTurn, sizes, none, ⟨[], []⟩, [], none⟩

theorem fits : problem.Fits inTurn.keys sizes := by
  constructor
  · decide
  · have hsize : ∀ key ∈ inTurn.keys, sizes.get? key = some 1 := by decide
    exact fun key hkey => ⟨1, hsize key hkey, Nat.one_pos⟩
  · refine List.forall_mem_singleton.mpr ⟨by decide, List.forall_mem_cons.mpr ⟨?_,
      List.forall_mem_singleton.mpr ?_⟩⟩
    all_goals exact ⟨rfl, rfl, by simp [Mat.IsRectangular]⟩
  · decide

theorem runsOut : RunsOut [second] [.number 0, .number 1] sizes := by
  have hwidth : sizes.widthOf [.number 0, .number 1] = 2 := rfl
  have hheight : total ([second].map (·.rows)) = 1 := rfl
  rw [RunsOut, hwidth, hheight]
  exact Nat.one_lt_two

/-- Together there is one row for two numbers, and the second is named. -/
theorem eliminate_both : eliminate [second] [.number 0, .number 1] sizes inTurn.positions =
    .error (.indeterminate (.number 1)) := by
  have hseparator : separatorOf [second] [.number 0, .number 1] inTurn.positions = .ok [] := by
    simp [second, separatorOf, LinearFactor.keys, Table.keys, distinct, bind, Except.bind, pure, Except.pure]
  have hcolumns : columnOffsets sizes [.number 0, .number 1] =
      .ok ([(.number 0, 0), (.number 1, 1)], 2) := rfl
  have hheight : total ([second].map (·.rows)) = 1 := rfl
  have hkey : keyAtColumn sizes [.number 0, .number 1] 1 = .ok (.number 1) := rfl
  simp only [eliminate, hseparator, List.append_nil, hcolumns, bind, Except.bind, hheight, hkey]
  rfl

/-- The course of eliminating the first number alone. -/
noncomputable def course : Course ℝ :=
  ⟨[.number 1], [(.number 0, 0), (.number 1, 1)], 2, 1, [[[0, 1, 0]]], 1⟩

theorem course_formed : course.Formed [second] [.number 0] sizes inTurn.positions := by
  have hplace : inTurn.positions.get? (.number 1) = some 1 := rfl
  constructor
  · simp [course, second, separatorOf, LinearFactor.keys, Table.keys, distinct, Table.find, hplace, bind,
      Except.bind, pure, Except.pure, Except.map]
  · rfl
  · exact ⟨_, rfl⟩
  · rfl

theorem course_reduced : course.reduced = ⟨2 + 1, [[0, 1, 0]]⟩ := by
  simp [course, Course.reduced, Triangular.reduce, Triangular.reduceRows, Triangular.Reflection.ofColumn,
    Triangular.Reflection.apply, Vec.scaledNorm_real, Scalar.isZero_real]

theorem course_greatest : Vec.maxAbs? course.stacked.flatten.flatten = some 1 := by
  simp [course, Vec.maxAbs?, Scalar.maximum_real, Scalar.abs_real]

theorem course_diagonal : course.upper.diagonal = [0] := by
  rw [Course.upper, course_reduced]
  simp [course, Mat.top, Mat.diagonal]

theorem course_failsAt : course.FailsAt 0 := by
  refine .inr ⟨le_refl 1, course_greatest, ?_⟩
  rw [course_diagonal]
  norm_num [course, pivotTolerance]

/-- Alone the first number has a row, and its pivot is exactly zero. -/
theorem meetsZero : MeetsZero [second] [.number 0] sizes inTurn.positions :=
  ⟨course, 0, course_formed, course_failsAt, by rw [course_diagonal]; rfl⟩

theorem eliminate_first : eliminate [second] [.number 0] sizes inTurn.positions =
    .error (.indeterminate (.number 0)) :=
  course_formed.eliminate_eq_error rfl course_failsAt rfl

theorem sequential_solve : let s : SequentialSolver ℝ := ⟨inTurn, sizes, none⟩
    (s.solve problem).result = .error (.indeterminate (.number 0)) ∧
      s.stoppedAt problem = some ([second], [.number 0]) := by
  intro s
  have hassign : BayesNet.assign inTurn.positions problem = .ok [(.number 0, second)] := rfl
  have hkeys : inTurn.keys = [.number 0, .number 1] := rfl
  constructor
  · have herror : BayesNet.eliminate inTurn sizes problem = .error (.indeterminate (.number 0)) := by
      simp only [BayesNet.eliminate, hassign, bind, Except.bind, hkeys, BayesNet.eliminateAll_cons]
      simp [eliminate_first]
    simp only [s, SequentialSolver.solve, herror]
  · simp only [s, SequentialSolver.stoppedAt, hassign, hkeys, BayesNet.stoppedAt_cons]
    simp [eliminate_first]

theorem multifrontal_solve : (fresh.solve problem).result = .error (.indeterminate (.number 1)) ∧
    fresh.stoppedAt problem = some ([second], [.number 0, .number 1]) := by
  have hforest : FrontForest.ofGraph inTurn problem = .ok forest := rfl
  have hassign : BayesTree.assign inTurn.positions forest.frontOf forest.fronts.length problem =
      .ok [(0, second)] := rfl
  constructor
  · have hfound : BayesTree.eliminateFronts sizes inTurn.positions forest.frontOf forest.fronts.length 0
        forest.fronts [(0, second)] = ([], some (.indeterminate (.number 1))) := by
      simp [forest, BayesTree.eliminateFronts, eliminate_both]
    have hcoherent : fresh.Coherent := MultifrontalSolver.Reachable.fresh.coherent.2.2
    obtain ⟨-, herror, -⟩ := MultifrontalSolver.eliminate_eq hcoherent hforest hassign hfound
    simp only [MultifrontalSolver.solve, herror _ rfl]
  · have hmemory : (fresh.prepare problem).memory = ⟨inTurn, sizes, some problem.structureKey,
        ⟨forest.fronts, [none]⟩, forest.frontOf, none⟩ := rfl
    simp only [MultifrontalSolver.stoppedAt, hmemory, hassign]
    simp [forest, BayesTree.stoppedAt, eliminate_both]

/-- The second number is zero wherever the stacked matrix is. -/
theorem second_determined : ¬ problem.IsUndetermined inTurn.keys sizes (.number 1) := by
  have hoffsets : columnOffsets sizes inTurn.keys = .ok ([(.number 0, 0), (.number 1, 1)], 2) := rfl
  have hcolumns : Table.find [(Key.number 0, 0), (.number 1, 1)] (.number 0) = .ok 0 ∧
      Table.find [(Key.number 0, 0), (.number 1, 1)] (.number 1) = .ok 1 := ⟨rfl, rfl⟩
  have hstacked : problem.stackedMatrix inTurn.keys sizes = .ok ⟨2, [[(1, 1)]]⟩ := by
    simp [LinearGraph.stackedMatrix, hoffsets, hcolumns, problem, second, LinearFactor.sparseRows,
      LinearFactor.sparseBlocks, SparseRow.storeVec, SparseRow.store, bind, Except.bind, pure, Except.pure,
      Scalar.isZero_real]
  rintro ⟨A, hA, y, hy, i, hfirst, -, hne⟩
  rw [hstacked] at hA
  cases hA
  have hcolumn : sizes.columnOf inTurn.keys (.number 1) = 1 := rfl
  rw [hcolumn] at hfirst
  obtain rfl : i = (1 : Fin 2) := Fin.ext (le_antisymm (Nat.lt_succ_iff.mp i.isLt) hfirst)
  have hrow := congrFun hy (0 : Fin 1)
  have hentries : SparseRow.entry [(1, (1 : ℝ))] 0 = 0 ∧ SparseRow.entry [(1, (1 : ℝ))] 1 = 1 := ⟨rfl, rfl⟩
  simp [Sparse.toMatrix, hentries, mulVec, dotProduct, Fin.sum_univ_two] at hrow
  exact hne hrow

/-- **The second number is named and determined.**  Both numbers are eliminated together from one row, and
    so the second is named; but what the stacked matrix sends to zero changes the first alone. -/
theorem named_determined : problem.Fits inTurn.keys sizes ∧ fresh.Reachable inTurn sizes ∧
    (fresh.solve problem).result = .error (.indeterminate (.number 1)) ∧
    fresh.stoppedAt problem = some ([second], [.number 0, .number 1]) ∧
    RunsOut [second] [.number 0, .number 1] sizes ∧
    ¬ problem.IsUndetermined inTurn.keys sizes (.number 1) :=
  ⟨fits, .fresh, multifrontal_solve.1, multifrontal_solve.2, runsOut, second_determined⟩

/-- It is the first number that is not determined, as the elimination of one variable after another says. -/
theorem undetermined_of_named_first : problem.Fits inTurn.keys sizes ∧
    (SequentialSolver.solve ⟨inTurn, sizes, none⟩ problem).result = .error (.indeterminate (.number 0)) ∧
    problem.IsUndetermined inTurn.keys sizes (.number 0) ∧
    (fresh.solve problem).result = .error (.indeterminate (.number 1)) ∧
    ∃ other ∈ [Key.number 0, .number 1], inTurn.place other ≤ inTurn.place (.number 1) ∧
      problem.IsUndetermined inTurn.keys sizes other := by
  obtain ⟨hone, hother⟩ := undetermined_of_named fits
  obtain ⟨hresult, hstopped⟩ := sequential_solve
  obtain ⟨hresult', hstopped'⟩ := multifrontal_solve
  obtain ⟨factors, key, hkey, hat, -, hcause⟩ := hone none _ hresult
  obtain ⟨factors', frontals', key', hkey', hat', -, -, hrows⟩ := hother fresh .fresh _ hresult'
  rw [hstopped, Option.some.injEq, Prod.mk.injEq, List.cons.injEq] at hat
  rw [hstopped', Option.some.injEq, Prod.mk.injEq] at hat'
  obtain ⟨rfl, rfl, -⟩ := hat
  obtain ⟨rfl, rfl⟩ := hat'
  obtain rfl := Error.indeterminate.inj hkey'
  exact ⟨fits, hresult, hcause (.inr meetsZero), hresult', hrows runsOut⟩

end SecondOnly

end LeastSquares
