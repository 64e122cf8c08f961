/-
  LeastSquares/Proofs/Solution.lean
  =================================
  **Steps that solve a linear problem.**

  A step that lists all variables at their sizes is a vector cut into pieces, and its cost is half
  the squared distance of the stacked matrix, applied to the vector, from the right-hand side.  When
  the misfit of a problem is that of a schedule of conditionals and a constant, the step that the
  schedule finds is the only one of least cost.
-/
import LeastSquares.Proofs.NormalEquations

namespace LeastSquares

open Vec Matrix

variable {dims : Table ℕ} {keys : List Key}

/-! ### Steps as vectors -/

namespace Delta

/-- A step lists variables in an order, each with a block of its size. -/
structure Lists (d : Delta ℝ) (keys : List Key) (dims : Table ℕ) : Prop where
  keys_eq : d.keys = keys
  sized : d.IsSized dims

theorem Lists.eq_pieces {d : Delta ℝ} (h : d.Lists keys dims) (hnodup : keys.Nodup) :
    d = ⟨pieces dims keys d.vector⟩ ∧ d.vector.length = dims.widthOf keys := by
  obtain ⟨rfl, hsized⟩ := h
  exact Delta.eq_pieces fun row hrow => hsized row.1 row.2 (Table.get?_of_mem hnodup hrow)

theorem lists_pieces {xs : Vec ℝ} (hlength : xs.length = dims.widthOf keys) :
    Lists ⟨pieces dims keys xs⟩ keys dims := by
  refine ⟨keys_pieces keys xs, fun key block hblock => ?_⟩
  have hkey : key ∈ keys := by
    have := Table.mem_keys_of_get? hblock
    rwa [keys_pieces] at this
  rw [get?_pieces hkey xs] at hblock
  rw [← Option.some.inj hblock, length_piece hkey hlength]

/-- Every assignment is that of a step on the variables of an order. -/
theorem exists_lists (dims : Table ℕ) (hnodup : keys.Nodup) (x : Assignment) : ∃ d : Delta ℝ, d.Lists keys dims ∧
    ∀ key ∈ keys, ∀ j < dims.dimOf key, d.assignment key j = x key j := by
  have hlength : (List.ofFn fun i : Fin (dims.widthOf keys) => x.along dims keys i).length =
      dims.widthOf keys := List.length_ofFn
  refine ⟨_, lists_pieces hlength, fun key hkey j hj => ?_⟩
  refine Assignment.eq_of_along_eq (fun i hi => ?_) hkey hj
  rw [along_pieces hnodup hlength hi]
  simp [entry, List.getD_eq_getElem?_getD, hi]

theorem Lists.along_eq {d : Delta ℝ} (h : d.Lists keys dims) (hnodup : keys.Nodup) {j : ℕ}
    (hj : j < dims.widthOf keys) : d.assignment.along dims keys j = d.vector.entry j := by
  obtain ⟨hd, hlength⟩ := h.eq_pieces hnodup
  rw [← along_pieces hnodup hlength hj, ← hd]

theorem Lists.ext {d d' : Delta ℝ} (h : d.Lists keys dims) (h' : d'.Lists keys dims)
    (hnodup : keys.Nodup)
    (hsame : ∀ key ∈ keys, ∀ j < dims.dimOf key, d.assignment key j = d'.assignment key j) :
    d = d' := by
  obtain ⟨hd, hlength⟩ := h.eq_pieces hnodup
  obtain ⟨hd', hlength'⟩ := h'.eq_pieces hnodup
  have hvector : d.vector = d'.vector := by
    refine List.ext_getElem (hlength.trans hlength'.symm) fun j h1 h2 => ?_
    have hentry := Assignment.along_congr hsame j (hlength ▸ h1)
    rw [h.along_eq hnodup (hlength ▸ h1), h'.along_eq hnodup (hlength ▸ h1)] at hentry
    simpa [entry, List.getD_eq_getElem?_getD, h1, h2] using hentry
  calc d = ⟨pieces dims keys d.vector⟩ := hd
    _ = ⟨pieces dims keys d'.vector⟩ := by rw [hvector]
    _ = d' := hd'.symm

end Delta

/-! ### Costs -/

/-- What a factor leaves at a step that gives its variables blocks of their sizes is what it misses
    at the assignment of the step. -/
theorem LinearFactor.denseResidual_of_covers {blocks : Table (Mat ℝ)} {rhs : Vec ℝ}
    (hfits : (dense blocks rhs).Fits dims) {d : Delta ℝ} (h : d.Covers blocks.keys dims) :
    denseResidual blocks rhs d = .ok ((dense blocks rhs).missed d.assignment) := by
  have hstep : ∀ r, ∀ row ∈ blocks, (do
      let x ← d.get row.1
      let product ← row.2.mulVec? x
      return Vec.add r product : Except Error (Vec ℝ)) =
        .ok (Vec.add r (row.2.rows.map (form · (d.assignment row.1)))) := by
    intro r row hrow
    obtain ⟨hdim, -, hrect⟩ := hfits.2 row hrow
    obtain ⟨block, hblock, hsize⟩ := h row.1 (List.mem_map_of_mem hrow)
    have happly := Mat.mulVec?_eq_ok hrect (hsize.trans (Table.dimOf_eq hdim))
    have hentry : block.entry = d.assignment row.1 := by
      rw [Delta.assignment, hblock, Option.getD_some]
    simp only [Delta.get, Table.find_eq_ok.mpr hblock, bind, Except.bind, happly, hentry]
    rfl
  rw [denseResidual, foldlM_eq_ok_foldl hstep]
  rfl

theorem LinearFactor.residual_of_covers {f : LinearFactor ℝ} (hfits : f.Fits dims) {d : Delta ℝ}
    (h : d.Covers f.keys dims) : f.residual d = .ok (.ofVector (f.missed d.assignment)) := by
  cases f with
  | arrays blocks rhs => exact hfits.elim
  | dense blocks rhs =>
    rw [residual, denseResidual_of_covers hfits h]
    rfl

/-- A factor has its cost at every step that gives its variables blocks of their sizes. -/
theorem LinearFactor.cost_of_blocks {f : LinearFactor ℝ} (hfits : f.Fits dims) {d : Delta ℝ}
    (h : d.Covers f.keys dims) : f.cost d = .ok (1 / 2 * f.misfit d.assignment) := by
  cases f with
  | arrays blocks rhs => exact hfits.elim
  | dense blocks rhs =>
    rw [cost_dense, denseResidual_of_covers hfits h, Except.map, normSq_real]
    norm_num
    rfl

/-- A factor has a cost only at steps that list its variables. -/
theorem LinearFactor.mem_keys_of_cost {f : LinearFactor ℝ} (hfits : f.Fits dims) {d : Delta ℝ} {c : ℝ}
    (hcost : f.cost d = .ok c) : ∀ key ∈ f.keys, key ∈ d.keys := by
  cases f with
  | arrays blocks rhs => exact hfits.elim
  | dense blocks rhs =>
    rw [cost_dense] at hcost
    obtain ⟨r, hr, -⟩ := map_eq_ok.mp hcost
    rw [denseResidual] at hr
    clear hcost hfits
    generalize neg rhs = start at hr
    simp only [keys, Table.keys]
    induction blocks generalizing start with
    | nil => simp
    | cons row blocks ih =>
      rw [List.foldlM_cons] at hr
      obtain ⟨next, hstep, hrest⟩ := bind_eq_ok.mp hr
      obtain ⟨x, hx, -⟩ := bind_eq_ok.mp hstep
      exact List.forall_mem_cons.mpr
        ⟨Table.mem_keys_of_get? (Table.find_eq_ok.mp hx), ih next hrest⟩

theorem LinearGraph.mem_keys_of_cost {g : LinearGraph ℝ} (hfits : ∀ f ∈ g.factors, f.Fits dims)
    {d : Delta ℝ} {c : ℝ} (hcost : g.cost d = .ok c) :
    ∀ f ∈ g.factors, ∀ key ∈ f.keys, key ∈ d.keys := by
  intro f hf
  obtain ⟨costs, hcosts, -⟩ := map_eq_ok.mp hcost
  obtain ⟨_, -, hfactor⟩ := exists_right_of_mem (mapM_eq_ok_iff.mp hcosts) hf
  exact LinearFactor.mem_keys_of_cost (hfits f hf) hfactor

/-- A problem has its cost at every step that gives the variables of its factors blocks of their sizes. -/
theorem LinearGraph.cost_of_blocks {g : LinearGraph ℝ} (hfits : ∀ f ∈ g.factors, f.Fits dims)
    {d : Delta ℝ} (h : ∀ f ∈ g.factors, d.Covers f.keys dims) :
    g.cost d = .ok (1 / 2 * g.misfit d.assignment) := by
  have hcosts : ∀ f ∈ g.factors, f.cost d = .ok (1 / 2 * f.misfit d.assignment) := fun f hf =>
    LinearFactor.cost_of_blocks (hfits f hf) (h f hf)
  rw [cost, mapM_eq_ok_map hcosts, Except.map, sum_real, List.sum_map_mul_left]
  rfl

theorem LinearGraph.cost_eq_ok {g : LinearGraph ℝ} (hg : g.Accords keys dims) {d : Delta ℝ}
    (hd : d.Lists keys dims) : g.cost d = .ok (1 / 2 * g.misfit d.assignment) :=
  cost_of_blocks hg.fits fun f hf =>
    hd.sized.covers fun key hkey => hd.keys_eq ▸ hg.listed f hf key hkey

/-! ### The stacked matrix -/

/-- The stored entries as a matrix. -/
noncomputable def Sparse.toMatrix (A : Sparse ℝ) : Matrix (Fin A.rows.length) (Fin A.width) ℝ :=
  Matrix.of fun i j => A.rows[i].entry j

/-- The matrix applied to unknowns takes the values of the rows. -/
theorem Sparse.toMatrix_mulVec {A : Sparse ℝ} (h : ∀ row ∈ A.rows, row.Ascending ∧ ∀ e ∈ row, e.1 < A.width)
    (v : ℕ → ℝ) (i : Fin A.rows.length) : (A.toMatrix *ᵥ fun j => v j) i = A.rows[i].form v :=
  (SparseRow.form_eq_sum (h _ (List.getElem_mem _)).1 (h _ (List.getElem_mem _)).2 v).symm

namespace LinearGraph

variable {g : LinearGraph ℝ}

/-- The stacked matrix has full column rank. -/
def FullColumnRank (g : LinearGraph ℝ) (keys : List Key) (dims : Table ℕ) : Prop :=
  ∃ A, g.stackedMatrix keys dims = .ok A ∧ A.toMatrix.rank = A.width

/-- A vector solves the normal equations of the stacked matrix and right-hand side. -/
def NormalEquations (g : LinearGraph ℝ) (keys : List Key) (dims : Table ℕ) (xs : Vec ℝ) : Prop :=
  ∃ A, g.stackedMatrix keys dims = .ok A ∧ xs.length = A.width ∧
    A.toMatrixᵀ *ᵥ (A.toMatrix *ᵥ fun j => xs.entry j) = A.toMatrixᵀ *ᵥ fun i => g.rhs.entry i

/-- **A step solves a linear problem**: it lists all variables, every other such step costs more,
    and its vector alone solves the normal equations. -/
structure IsSolvedBy (g : LinearGraph ℝ) (keys : List Key) (dims : Table ℕ) (d : Delta ℝ) :
    Prop where
  lists : d.Lists keys dims
  least : ∃ c, g.cost d = .ok c ∧
    ∀ other : Delta ℝ, other.Lists keys dims → other ≠ d → ∃ c', g.cost other = .ok c' ∧ c < c'
  normal : ∀ xs, g.NormalEquations keys dims xs ↔ xs = d.vector

theorem misfit_eq_distanceSq (hg : g.Accords keys dims) :
    ∃ A, g.stackedMatrix keys dims = .ok A ∧ A.width = dims.widthOf keys ∧
      ∀ x : Assignment, g.misfit x =
        distanceSq A.toMatrix (fun i => g.rhs.entry i) fun j => x.along dims keys j := by
  obtain ⟨A, hA, hwidth, hheight, hrows, hmissed⟩ := stackedMatrix_spec hg
  refine ⟨A, hA, hwidth, fun x => ?_⟩
  rw [← squares_missed, ← hmissed, squares, distanceSq, ← List.sum_ofFn]
  congr 1
  refine List.ext_getElem (by simp [Vec.sub, hheight]) fun i h1 h2 => ?_
  have hi : i < g.rhs.length := by simpa [Vec.sub, hheight] using h1
  simp [Vec.sub, Sparse.toMatrix_mulVec hrows, entry, List.getD_eq_getElem?_getD, hi]

/-- A step whose misfit is strictly less than that of every other solves the problem, and there is
    such a step only when the columns are independent. -/
theorem isSolvedBy_of_strict (hg : g.Accords keys dims) {d : Delta ℝ} (hd : d.Lists keys dims)
    (hstrict : ∀ other : Delta ℝ, other.Lists keys dims → other ≠ d →
      g.misfit d.assignment < g.misfit other.assignment) :
    g.FullColumnRank keys dims ∧ g.IsSolvedBy keys dims d := by
  obtain ⟨A, hA, hwidth, hmisfit⟩ := misfit_eq_distanceSq hg
  obtain ⟨-, hlength⟩ := hd.eq_pieces hg.nodup
  have hunknowns : (fun j : Fin A.width => d.assignment.along dims keys j) =
      fun j : Fin A.width => d.vector.entry j := funext fun j => hd.along_eq hg.nodup (hwidth ▸ j.isLt)
  have hleast : ∀ y, y ≠ (fun j : Fin A.width => d.vector.entry j) →
      distanceSq A.toMatrix (fun i => g.rhs.entry i) (fun j : Fin A.width => d.vector.entry j) <
        distanceSq A.toMatrix (fun i => g.rhs.entry i) y := by
    intro y hy
    have hlengthY : (List.ofFn y).length = dims.widthOf keys := by rw [List.length_ofFn, hwidth]
    have hother : Delta.Lists ⟨Delta.pieces dims keys (List.ofFn y)⟩ keys dims :=
      Delta.lists_pieces hlengthY
    have hunknownsY : (fun j : Fin A.width =>
        (Delta.assignment ⟨Delta.pieces dims keys (List.ofFn y)⟩).along dims keys j) = y := by
      funext j
      rw [Delta.along_pieces hg.nodup hlengthY (hwidth ▸ j.isLt)]
      simp [entry, List.getD_eq_getElem?_getD]
    have hlt := hstrict _ hother fun heq => hy (by rw [← hunknownsY, heq, hunknowns])
    rwa [hmisfit, hmisfit, hunknowns, hunknownsY] at hlt
  obtain ⟨hrank, hnormal⟩ := normalEquations_of_strict hleast
  rw [Fintype.card_fin] at hrank
  refine ⟨⟨A, hA, hrank⟩, hd, ⟨_, cost_eq_ok hg hd, fun other hother hne => ?_⟩, fun xs => ?_⟩
  · exact ⟨_, cost_eq_ok hg hother, by linarith [hstrict other hother hne]⟩
  · constructor
    · rintro ⟨A', hA', hlength', hxs⟩
      rw [hA] at hA'
      cases hA'
      have heq := (hnormal _).mp hxs
      refine List.ext_getElem (by rw [hlength', hlength, hwidth]) fun j h1 h2 => ?_
      have hentry := congrFun heq ⟨j, hlength' ▸ h1⟩
      simpa [entry, List.getD_eq_getElem?_getD, h1, h2] using hentry
    · rintro rfl
      exact ⟨A, hA, by rw [hlength, hwidth], (hnormal _).mpr rfl⟩

theorem misfit_congr (hg : g.Accords keys dims) {x y : Assignment}
    (h : ∀ key ∈ keys, ∀ j < dims.dimOf key, x key j = y key j) : g.misfit x = g.misfit y := by
  refine congrArg List.sum (List.map_congr_left fun f hf => ?_)
  rw [LinearFactor.misfit, LinearFactor.misfit,
    LinearFactor.missed_congr (hg.fits f hf) fun key hkey => h key (hg.listed f hf key hkey)]

theorem misfit_eq_filter (hg : g.Accords keys dims) : ∃ rest : ℝ, 0 ≤ rest ∧ ∀ x, g.misfit x =
    ((g.factors.filter fun f => !f.keys.isEmpty).map (LinearFactor.misfit x)).sum + rest := by
  refine ⟨((g.factors.filter fun f => !(!f.keys.isEmpty)).map
    (LinearFactor.misfit fun _ _ => 0)).sum,
    List.sum_nonneg (List.forall_mem_map.mpr fun _ _ => squares_nonneg _), fun x => ?_⟩
  have hperm := (List.filter_append_perm (fun f => !f.keys.isEmpty) g.factors).map
    (LinearFactor.misfit x)
  have hkeyless : ∀ f ∈ g.factors.filter fun f => !(!f.keys.isEmpty),
      f.misfit x = f.misfit fun _ _ => 0 := by
    intro f hf
    obtain ⟨hf, hempty⟩ := List.mem_filter.mp hf
    have hnil : f.keys = [] := by simpa using hempty
    rw [LinearFactor.misfit, LinearFactor.misfit,
      LinearFactor.missed_congr (hg.fits f hf) fun key hkey => by simp [hnil] at hkey]
  rw [LinearGraph.misfit, ← hperm.sum_eq, List.map_append, List.sum_append,
    List.map_congr_left hkeyless]

/-- The solution misses less than every step but itself. -/
theorem IsSolvedBy.misfit_lt {d : Delta ℝ} (h : g.IsSolvedBy keys dims d) (hg : g.Accords keys dims)
    {other : Delta ℝ} (hother : other.Lists keys dims) (hne : other ≠ d) :
    g.misfit d.assignment < g.misfit other.assignment := by
  obtain ⟨c, hc, hleast⟩ := h.least
  obtain ⟨c', hc', hlt⟩ := hleast other hother hne
  rw [cost_eq_ok hg h.lists, Except.ok.injEq] at hc
  rw [cost_eq_ok hg hother, Except.ok.injEq] at hc'
  linarith

/-- The solution misses no more than any assignment. -/
theorem IsSolvedBy.misfit_le {d : Delta ℝ} (h : g.IsSolvedBy keys dims d) (hg : g.Accords keys dims)
    (x : Assignment) : g.misfit d.assignment ≤ g.misfit x := by
  obtain ⟨other, hother, hx⟩ := Delta.exists_lists dims hg.nodup x
  rw [← misfit_congr hg hx]
  by_cases hsame : other = d
  · rw [hsame]
  · exact (h.misfit_lt hg hother hsame).le

theorem IsSolvedBy.unique {d d' : Delta ℝ} (h : g.IsSolvedBy keys dims d)
    (h' : g.IsSolvedBy keys dims d') : d = d' := by
  by_contra hne
  obtain ⟨c, hc, hleast⟩ := h.least
  obtain ⟨c', hc', hleast'⟩ := h'.least
  obtain ⟨x, hx, hlt⟩ := hleast d' h'.lists (Ne.symm hne)
  obtain ⟨y, hy, hlt'⟩ := hleast' d h.lists hne
  rw [hc', Except.ok.injEq] at hx
  rw [hc, Except.ok.injEq] at hy
  rw [← hx] at hlt
  rw [← hy] at hlt'
  exact lt_asymm hlt hlt'

/-- **A schedule of conditionals solves a problem** whose misfit it splits up to a constant. -/
theorem exists_isSolvedBy_of_schedule (hg : g.Accords keys dims) {cs : List (Conditional ℝ)}
    (hschedule : Conditional.Scheduled [] cs) (hproper : ∀ c ∈ cs, c.IsProper dims)
    (hcover : ∀ key, key ∈ cs.flatMap (·.frontals) ↔ key ∈ keys) {rest : ℝ}
    (hsplit : ∀ x, g.misfit x = (cs.map (Conditional.misfit · x)).sum + rest) :
    ∃ d, (do
        let delta ← cs.foldlM (fun (d : Delta ℝ) (c : Conditional ℝ) => c.solve d) Delta.empty
        delta.ordered keys) = .ok d ∧
      g.FullColumnRank keys dims ∧ g.IsSolvedBy keys dims d := by
  obtain ⟨found, hfold, hfound, hsized, -, hzero⟩ := hschedule.solve_spec hproper
    (d := Delta.empty) rfl fun key block h => by cases h
  rw [List.nil_append] at hfound
  have hmem : ∀ key ∈ keys, key ∈ found.keys := fun key hkey => hfound ▸ (hcover key).mpr hkey
  obtain ⟨d, hordered, hkeys, hget⟩ := Delta.ordered_eq_ok hg.nodup hmem
  have hsame : ∀ key ∈ keys, d.assignment key = found.assignment key := by
    intro key hkey
    rw [Delta.assignment, hget key hkey]
    rfl
  have hd : d.Lists keys dims := by
    refine ⟨hkeys, fun key block hblock => ?_⟩
    have hkey : key ∈ keys := hkeys ▸ Table.mem_keys_of_get? hblock
    exact hsized key block (hget key hkey ▸ hblock)
  have hrest : g.misfit d.assignment = rest := by
    have hsum : (cs.map (Conditional.misfit · found.assignment)).sum = 0 :=
      List.sum_eq_zero (List.forall_mem_map.mpr hzero)
    rw [misfit_congr hg fun key hkey j _ => congrFun (hsame key hkey) j, hsplit, hsum, zero_add]
  refine ⟨d, by simp only [hfold, bind, Except.bind, hordered], isSolvedBy_of_strict hg hd ?_⟩
  intro other hother hne
  have hnonneg : ∀ c ∈ cs, 0 ≤ c.misfit other.assignment := fun c _ => squares_nonneg _
  have hpositive : 0 < (cs.map (Conditional.misfit · other.assignment)).sum := by
    refine lt_of_le_of_ne (List.sum_nonneg (List.forall_mem_map.mpr hnonneg)) fun hsum => hne ?_
    have hall : ∀ c ∈ cs, c.misfit other.assignment = 0 := fun c hc =>
      (List.all_zero_of_le_zero_le_of_sum_eq_zero (List.forall_mem_map.mpr hnonneg) hsum.symm
        (List.mem_map_of_mem hc))
    refine hother.ext hd hg.nodup fun key hkey j hj => ?_
    rw [hsame key hkey]
    exact hschedule.eq_of_misfit_eq_zero hproper hall hzero (by simp) key ((hcover key).mpr hkey) j hj
  rw [hrest, hsplit]
  linarith

theorem fits_equation (key : Key) (a b : ℝ) :
    Fits ⟨[Elimination.equation key a b]⟩ [key] [(key, 1)] := by
  constructor
  · exact List.nodup_singleton key
  · simp [Table.get?]
  · simp [Elimination.equation, LinearFactor.Fits, Table.get?, Table.keys, Mat.height,
      Mat.IsRectangular]
  · simp [Elimination.equation, LinearFactor.keys, Table.keys]

end LinearGraph

end LeastSquares
