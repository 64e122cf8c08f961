/-
  LeastSquares/Proofs/IteratedSolutions.lean
  ==========================================
  **What the iterative solver returns without a warning has a small gradient.**

  The gradient of a problem is summed over its factors: what a factor misses, pulled back to its variables
  by the transposed blocks.  Along the columns of the variables it is the residual of the normal equations,
  since both are the slope of the same misfit.  The vector that the iteration finds is cut into one piece
  for each variable, and so the test on the residual is one on the gradient, whichever factors were marked
  and whatever the solver has solved before.
-/
import LeastSquares.Proofs.ConjugateGradients
import LeastSquares.Proofs.Preconditioner
import LeastSquares.Proofs.StackedSteps

namespace LeastSquares

open Vec Matrix

/-! ### What a factor pulls back -/

namespace Vec

theorem dot_add_left {xs ys zs : Vec ℝ} (h : xs.length = ys.length) (hzs : xs.length ≤ zs.length) :
    dot (Vec.add xs ys) zs = dot xs zs + dot ys zs := by
  have hsum : (Vec.add xs ys).length ≤ zs.length := by
    rw [Vec.add, List.length_zipWith]
    omega
  rw [dot_eq_form hsum, dot_eq_form hzs, dot_eq_form (h ▸ hzs), form_add h]

theorem dot_neg_right (xs ys : Vec ℝ) : dot xs (Vec.neg ys) = -dot xs ys := by
  induction xs generalizing ys with
  | nil => simp [dot, sum]
  | cons x xs ih =>
    cases ys with
    | nil => simp [dot, sum, Vec.neg]
    | cons y ys =>
      have hrest := ih ys
      simp only [dot, sum_real, Vec.neg, List.map_cons, List.zipWith_cons_cons, List.sum_cons] at hrest ⊢
      rw [hrest]
      ring

/-- Squares of vectors whose sum is twice a third. -/
theorem squares_sub_squares {xs ys zs : Vec ℝ} (hxs : xs.length = zs.length) (hys : ys.length = zs.length)
    (h : Vec.add xs ys = Vec.add zs zs) : squares xs - squares ys = 2 * (dot xs zs - dot ys zs) := by
  induction zs generalizing xs ys with
  | nil =>
    obtain rfl := List.eq_nil_of_length_eq_zero hxs
    obtain rfl := List.eq_nil_of_length_eq_zero hys
    simp [dot, sum]
  | cons z zs ih =>
    obtain _ | ⟨x, xs⟩ := xs
    · cases hxs
    obtain _ | ⟨y, ys⟩ := ys
    · cases hys
    obtain ⟨hhead, htail⟩ : x + y = z + z ∧ Vec.add xs ys = Vec.add zs zs := List.cons.inj h
    have hrest := ih (Nat.succ.inj hxs) (Nat.succ.inj hys) htail
    simp only [dot, sum_real, List.zipWith_cons_cons, List.sum_cons, squares_cons] at hrest ⊢
    have hsquare : x ^ 2 - y ^ 2 = (x - y) * (x + y) := by ring
    rw [hhead] at hsquare
    linarith

end Vec

namespace LinearFactor

variable {dims : Table ℕ}

/-- What the blocks of a factor give at an assignment, together with numbers for the rows. -/
noncomputable def gather (v : Assignment) (blocks : Table (Mat ℝ)) (r : Vec ℝ) : Vec ℝ :=
  blocks.foldl (fun r entry => Vec.add r (entry.2.rows.map (form · (v entry.1)))) r

/-- What the blocks give at an assignment, weighed by numbers for the rows. -/
noncomputable def weigh (v : Assignment) (blocks : Table (Mat ℝ)) (r : Vec ℝ) : ℝ :=
  (blocks.map fun entry => dot (entry.2.rows.map (form · (v entry.1))) r).sum

/-- Numbers for the rows of a factor, pulled back to its variables by the transposed blocks. -/
noncomputable def pullBack (r : Vec ℝ) : LinearFactor ℝ → Assignment
  | dense blocks _ => fun key j =>
      (blocks.map fun entry => if entry.1 = key then dot (entry.2.rows.map (·.entry j)) r else 0).sum
  | arrays _ _ => 0

section

variable {blocks : Table (Mat ℝ)} {count : ℕ}

theorem gather_spec (hblocks : ∀ entry ∈ blocks, entry.2.rows.length = count) (v : Assignment)
    {r : Vec ℝ} (hr : r.length = count) : (gather v blocks r).length = count ∧
      ∀ s : Vec ℝ, s.length = count → dot (gather v blocks r) s = dot r s + weigh v blocks s := by
  unfold gather weigh
  induction blocks generalizing r with
  | nil => exact ⟨hr, fun s _ => by simp⟩
  | cons entry blocks ih =>
    obtain ⟨hentry, hblocks⟩ := List.forall_mem_cons.mp hblocks
    have hvalues : r.length = (entry.2.rows.map (form · (v entry.1))).length := by
      rw [List.length_map, hentry, hr]
    have hnext : (Vec.add r (entry.2.rows.map (form · (v entry.1)))).length = count := by
      rw [Vec.add, List.length_zipWith, ← hvalues, Nat.min_self, hr]
    obtain ⟨hlength, hdot⟩ := ih hblocks hnext
    refine ⟨hlength, fun s hs => ?_⟩
    rw [List.foldl_cons, hdot s hs, dot_add_left hvalues (by rw [hr, hs]), List.map_cons, List.sum_cons,
      add_assoc]

/-- Opposite assignments leave together what was there. -/
theorem gather_add_gather_neg (hblocks : ∀ entry ∈ blocks, entry.2.rows.length = count) (v : Assignment)
    {r r' : Vec ℝ} (hr : r.length = count) (hr' : r'.length = count) :
    Vec.add (gather v blocks r) (gather (-v) blocks r') = Vec.add r r' := by
  unfold gather
  induction blocks generalizing r r' with
  | nil => rfl
  | cons entry blocks ih =>
    obtain ⟨hentry, hblocks⟩ := List.forall_mem_cons.mp hblocks
    rw [List.foldl_cons, List.foldl_cons, ih hblocks]
    · refine List.ext_getElem (by simp [Vec.add, hr, hr', hentry]) fun i hi hi' => ?_
      simp only [Vec.add, List.getElem_zipWith, List.getElem_map, Pi.neg_apply, form_neg_right]
      ring
    · simp [Vec.add, hr, hentry]
    · simp [Vec.add, hr', hentry]

end

/-- **What a factor misses on both sides of an assignment** differs by how it weighs what it misses there. -/
theorem misfit_sub_misfit {blocks : Table (Mat ℝ)} {rhs : Vec ℝ} (hfits : (dense blocks rhs).Fits dims)
    (x v : Assignment) : (dense blocks rhs).misfit (x + v) - (dense blocks rhs).misfit (x + -v) =
      4 * weigh v blocks ((dense blocks rhs).missed x) := by
  have hblocks : ∀ entry ∈ blocks, entry.2.rows.length = rhs.length := fun entry hentry =>
    (hfits.2 entry hentry).2.1
  obtain ⟨r, hr⟩ : ∃ r, r = (dense blocks rhs).missed x := ⟨_, rfl⟩
  have hlength : r.length = rhs.length := hr ▸ length_missed hfits x
  have hmoved : ∀ y, (dense blocks rhs).missed (x + y) = gather y blocks r := fun y => by
    rw [missed_add, missed, Vec.neg_neg, hr]
    rfl
  obtain ⟨hplus, hdot⟩ := gather_spec hblocks v hlength
  obtain ⟨hminus, hdot'⟩ := gather_spec hblocks (-v) hlength
  have hopposite := gather_add_gather_neg hblocks v hlength hlength
  have hsum := congrArg (dot · r) hopposite
  simp only [dot_add_left (hplus.trans hminus.symm) (hplus.trans hlength.symm).le,
    dot_add_left rfl (le_refl r.length), hdot r hlength, hdot' r hlength] at hsum
  rw [misfit, misfit, hmoved, hmoved, squares_sub_squares (hplus.trans hlength.symm)
    (hminus.trans hlength.symm) hopposite, hdot r hlength, hdot' r hlength, ← hr]
  linarith

/-- What is pulled back to a component of a variable is what the factor weighs where only that is not zero. -/
theorem pullBack_eq (blocks : Table (Mat ℝ)) (rhs r : Vec ℝ) (key : Key) (j : ℕ) :
    (dense blocks rhs).pullBack r key j = weigh (Assignment.unit key j) blocks r := by
  refine congrArg List.sum (List.map_congr_left fun entry _ => ?_)
  split
  · next hkey =>
    have hunit : Assignment.unit key j entry.1 = Vec.unit j := by
      funext i
      simp [Assignment.unit, Vec.unit, hkey]
    simp only [hunit, form_unit]
  · next hkey =>
    have hzero : Assignment.unit key j entry.1 = 0 := by
      funext i
      simp [Assignment.unit, hkey]
    simp only [hzero, form_zero, List.map_const', dot_replicate_zero]

/-- What is pulled back changes its sign with the numbers for the rows. -/
theorem pullBack_neg (f : LinearFactor ℝ) (r : Vec ℝ) (key : Key) (j : ℕ) :
    f.pullBack (Vec.neg r) key j = -f.pullBack r key j := by
  cases f with
  | arrays blocks rhs => exact neg_zero.symm
  | dense blocks rhs =>
    rw [pullBack_eq, pullBack_eq, weigh, weigh]
    simp only [dot_neg_right]
    rw [List.sum_neg, List.map_map]
    rfl

end LinearFactor

/-! ### The gradient of a problem -/

namespace Assignment

variable {dims : Table ℕ} {keys : List Key}

theorem along_add (x y : Assignment) (keys : List Key) (j : ℕ) :
    (x + y).along dims keys j = x.along dims keys j + y.along dims keys j := by
  induction keys generalizing j with
  | nil => simp [along]
  | cons key keys ih =>
    rw [along, along, along, ih]
    split <;> rfl

/-- The Euclidean length of the components of some variables. -/
noncomputable def norm (dims : Table ℕ) (keys : List Key) (x : Assignment) : ℝ :=
  √(keys.map fun key => ∑ i ∈ Finset.range (dims.dimOf key), x key i ^ 2).sum

theorem norm_eq (x : Assignment) : x.norm dims keys = √(x.columns dims keys ⬝ᵥ x.columns dims keys) := by
  rw [norm, ← sum_along_sq, Finset.sum_range, dotProduct]
  simp only [sq, columns]

/-- An assignment is known along the columns from its components. -/
theorem columns_eq_of_forall (hnodup : keys.Nodup) {x : Assignment} {y : Fin (dims.widthOf keys) → ℝ}
    (h : ∀ key ∈ keys, ∀ j < dims.dimOf key, ∀ i : Fin (dims.widthOf keys),
      (i : ℕ) = dims.columnOf keys key + j → x key j = y i) : x.columns dims keys = y := by
  funext i
  obtain ⟨key, hkey, j, hj, hi⟩ := Table.exists_columnOf hnodup i.isLt
  rw [columns, hi, along_columnOf x hkey hj]
  exact h key hkey j hj i hi

/-- Where one component is one and all else is zero, one column is. -/
theorem columns_unit (hnodup : keys.Nodup) {key : Key} (hkey : key ∈ keys) {j : ℕ}
    (hj : j < dims.dimOf key) {i : Fin (dims.widthOf keys)} (hi : (i : ℕ) = dims.columnOf keys key + j) :
    (unit key j).columns dims keys = Pi.single i 1 := by
  funext i'
  rw [columns, along_unit hnodup hkey hj i'.isLt, ← hi, Pi.single_apply]
  simp only [Fin.ext_iff]

end Assignment

namespace LinearGraph

variable {g : LinearGraph ℝ} {keys : List Key} {dims : Table ℕ}

/-- Numbers for the rows of all factors, pulled back to the variables. -/
noncomputable def pullBack (g : LinearGraph ℝ) (rows : LinearFactor ℝ → Vec ℝ) : Assignment :=
  fun key j => (g.factors.map fun f => f.pullBack (rows f) key j).sum

/-- The gradient of a problem: what its factors miss at an assignment, pulled back to the variables. -/
noncomputable def gradient (g : LinearGraph ℝ) (x : Assignment) : Assignment :=
  g.pullBack (LinearFactor.missed x)

/-- The right-hand sides of a problem, pulled back to the variables. -/
noncomputable def pulledRhs (g : LinearGraph ℝ) : Assignment := g.pullBack (·.rhsArray.data)

/-- The gradient is the slope of the misfit. -/
theorem misfit_sub_misfit (hfits : ∀ f ∈ g.factors, f.Fits dims) (x : Assignment) (key : Key) (j : ℕ) :
    g.misfit (x + .unit key j) - g.misfit (x + -.unit key j) = 4 * g.gradient x key j := by
  rw [sub_eq_iff_eq_add, misfit, misfit, gradient, pullBack, ← List.sum_map_mul_left, ← List.sum_map_add]
  refine congrArg List.sum (List.map_congr_left fun f hf => ?_)
  have hfit := hfits f hf
  cases f with
  | arrays blocks rhs => exact hfit.elim
  | dense blocks rhs => rw [LinearFactor.pullBack_eq, ← LinearFactor.misfit_sub_misfit hfit, sub_add_cancel]

/-- **The gradient is the residual of the normal equations**, along the columns of the variables. -/
theorem columns_gradient (hg : g.Accords keys dims) {m : ℕ}
    {A : Matrix (Fin m) (Fin (dims.widthOf keys)) ℝ} {b : Fin m → ℝ}
    (hmisfit : ∀ x, g.misfit x = distanceSq A b (x.columns dims keys)) (x : Assignment) :
    (g.gradient x).columns dims keys = (Aᵀ * A) *ᵥ x.columns dims keys - Aᵀ *ᵥ b := by
  refine Assignment.columns_eq_of_forall hg.nodup fun key hkey j hj i hi => ?_
  obtain ⟨y, hy⟩ : ∃ y, y = x.columns dims keys := ⟨_, rfl⟩
  obtain ⟨w, hw⟩ : ∃ w : Fin (dims.widthOf keys) → ℝ, w = Pi.single i 1 := ⟨_, rfl⟩
  have hunit := Assignment.columns_unit hg.nodup hkey hj hi
  have hplus : (x + .unit key j).columns dims keys = y + (1 : ℝ) • w := by
    rw [one_smul, hy, hw, ← hunit]
    exact funext fun i => Assignment.along_add ..
  have hminus : (x + -.unit key j).columns dims keys = y + (-1 : ℝ) • w := by
    rw [neg_one_smul, hy, hw, ← hunit]
    exact funext fun i => (Assignment.along_add ..).trans (by rw [Assignment.along_neg]; rfl)
  have hslope := misfit_sub_misfit hg.fits x key j
  rw [hmisfit, hmisfit, hplus, hminus, distanceSq_add_smul, distanceSq_add_smul] at hslope
  have hentry : ((Aᵀ * A) *ᵥ y - Aᵀ *ᵥ b) i = (A *ᵥ y - b) ⬝ᵥ A *ᵥ w := by
    rw [← mulVec_mulVec, ← mulVec_sub, dotProduct_mulVec, ← mulVec_transpose, hw,
      dotProduct_single_one]
  rw [← hy, hentry]
  linarith

/-- What the factors leave at a step that lists the variables is what they miss there. -/
theorem residuals_of_lists (hg : g.Accords keys dims) {d : Delta ℝ} (h : d.Lists keys dims) :
    ∀ f ∈ g.factors, f.residual d = .ok (.ofVector (f.missed d.assignment)) := by
  intro f hf
  apply LinearFactor.residual_of_covers (hg.fits f hf)
  apply h.sized.covers
  intro key hkey
  rw [h.keys_eq]
  exact hg.listed f hf key hkey

theorem columns_pulledRhs (hg : g.Accords keys dims) {m : ℕ}
    {A : Matrix (Fin m) (Fin (dims.widthOf keys)) ℝ} {b : Fin m → ℝ}
    (hmisfit : ∀ x, g.misfit x = distanceSq A b (x.columns dims keys)) :
    g.pulledRhs.columns dims keys = Aᵀ *ᵥ b := by
  have hzero := columns_gradient hg hmisfit 0
  rw [Assignment.columns_zero, mulVec_zero, zero_sub] at hzero
  have hneg : g.gradient 0 = -g.pulledRhs := by
    funext key j
    simp only [gradient, pulledRhs, pullBack, Pi.neg_apply]
    rw [List.sum_neg, List.map_map]
    refine congrArg List.sum (List.map_congr_left fun f hf => ?_)
    exact (LinearFactor.missed_zero (hg.fits f hf)) ▸ LinearFactor.pullBack_neg ..
  rw [hneg] at hzero
  funext i
  have hat := congrFun hzero i
  rw [Assignment.columns, Assignment.along_neg, Pi.neg_apply] at hat
  exact neg_injective hat

end LinearGraph

/-! ### What the solver returns -/

namespace SubgraphSolver

variable {g : LinearGraph ℝ} {keys : List Key} {dims : Table ℕ}

/-- **A problem is least squares for one matrix and one right-hand side**, and what an iteration finds for it
    solves their normal equations, up to the tolerance, when it converges. -/
theorem exists_normal_equations (hg : g.Accords keys dims) :
    ∃ (m : ℕ) (A : Matrix (Fin m) (Fin (dims.widthOf keys)) ℝ) (b : Fin m → ℝ),
      (∀ x, g.misfit x = distanceSq A b (x.columns dims keys)) ∧
      ∀ s : SubgraphSolver ℝ, s.order.keys = keys → s.dims = dims → ∀ found, s.iterate g = .ok found →
        ∃ y : Fin (dims.widthOf keys) → ℝ, found.solution = List.ofFn y ∧
          (found.converged = true → (Aᵀ *ᵥ b = 0 → (Aᵀ * A) *ᵥ y = 0) ∧
            (Aᵀ *ᵥ b ≠ 0 →
              √((Aᵀ *ᵥ b - (Aᵀ * A) *ᵥ y) ⬝ᵥ (Aᵀ *ᵥ b - (Aᵀ * A) *ᵥ y)) <
                max s.parameters.epsilonAbs
                  (s.parameters.epsilonRel * √((Aᵀ *ᵥ b) ⬝ᵥ (Aᵀ *ᵥ b))))) := by
  obtain ⟨⟨width, rows⟩, hA, hwidth, hmisfit⟩ := LinearGraph.misfit_eq_distanceSq hg
  obtain ⟨A', hA', -, hheight, hrows, -⟩ := LinearGraph.stackedMatrix_spec hg
  rw [hA] at hA'
  cases hA'
  obtain rfl : width = dims.widthOf keys := hwidth
  refine ⟨_, _, _, hmisfit, ?_⟩
  rintro s rfl rfl found hfound
  obtain ⟨m, B, k, C, hformed, -, -, -⟩ := Subgraph.exists_preconditioner hg s.mask
  rw [iterate_eq (LinearGraph.normal_eq_ok hg.fits hA), hformed,
    Sparse.transposeMulVec_eq hrows hheight.symm] at hfound
  simp only [bind, Except.bind] at hfound
  rcases Lu.factorize_ofMatrix (Bᵀ * B + Matrix.diagonal (columnSquares C)) with
    ⟨hsingular, -⟩ | ⟨steps, hsteps, hsolves⟩
  · rw [hsingular] at hfound
    cases hfound
  · rw [hsteps] at hfound
    obtain rfl := Except.ok.inj hfound
    have hprecondition : ∀ y : Fin (s.dims.widthOf s.order.keys) → ℝ,
        ∃ z : Fin (s.dims.widthOf s.order.keys) → ℝ, Lu.solve steps (List.ofFn y) = List.ofFn z :=
      fun y => (hsolves y).imp fun _ => And.left
    exact ConjugateGradient.solve_spec (Sparse.mulVec_gram hrows) hprecondition _ _ _

/-- A result without a warning is cut from what an iteration has found when it converged. -/
theorem exists_converged {s : SubgraphSolver ℝ} {d : Delta ℝ} (hresult : (s.solve g).result = .ok d)
    (hquiet : ∀ r ∈ (s.solve g).reports, r.level ≠ .warning) :
    ∃ found, (s.prepare g).memory.iterate g = .ok found ∧ found.converged = true ∧
      Delta.fromVector found.solution s.order.keys s.dims = .ok d := by
  have hmemory := prepare_memory s g
  unfold solve at hresult hquiet
  cases hprepared : (s.prepare g).result with
  | error e => simp [hprepared, bind, Except.bind] at hresult
  | ok =>
    cases hiterated : (s.prepare g).memory.iterate g with
    | error e => simp [hprepared, hiterated, bind, Except.bind] at hresult
    | ok found =>
      simp only [hprepared, hiterated, bind, Except.bind] at hresult hquiet
      rw [hmemory] at hresult
      refine ⟨found, rfl, ?_, hresult⟩
      by_contra hstopped
      refine hquiet _ (List.mem_append_right _ (List.mem_singleton_self _)) ?_
      rw [if_neg hstopped]

/-- **Without a warning the gradient is small.**  Whatever the solver has marked and kept, when it returns a
    step without a warning, the step lists the ordered variables with blocks of their sizes, and there the
    gradient of the problem, what the factors leave pulled back to the variables, is zero where the
    right-hand sides pull back to zero, and else shorter than the absolute tolerance or the relative one. -/
theorem gradient_of_solve {s : SubgraphSolver ℝ} (hg : g.Accords s.order.keys s.dims) {d : Delta ℝ}
    (hresult : (s.solve g).result = .ok d) (hquiet : ∀ r ∈ (s.solve g).reports, r.level ≠ .warning) :
    d.Lists s.order.keys s.dims ∧
    (∀ f ∈ g.factors, f.residual d = .ok (.ofVector (f.missed d.assignment))) ∧
    (g.pulledRhs.norm s.dims s.order.keys = 0 → (g.gradient d.assignment).norm s.dims s.order.keys = 0) ∧
    (g.pulledRhs.norm s.dims s.order.keys ≠ 0 →
      (g.gradient d.assignment).norm s.dims s.order.keys <
        max s.parameters.epsilonAbs
          (s.parameters.epsilonRel * g.pulledRhs.norm s.dims s.order.keys)) := by
  obtain ⟨found, hiterated, hconverged, hcut⟩ := exists_converged hresult hquiet
  obtain ⟨m, A, b, hmisfit, hiterates⟩ := exists_normal_equations hg
  have hmemory := prepare_memory s g
  obtain ⟨y, hsolution, hsolves⟩ := hiterates (s.prepare g).memory (by rw [hmemory]) (by rw [hmemory])
    found hiterated
  obtain ⟨hexact, hclose⟩ := hsolves hconverged
  rw [hsolution] at hcut
  rw [Delta.fromVector_eq hg.nodup hg.sized List.length_ofFn] at hcut
  obtain rfl := Except.ok.inj hcut
  have hlists : Delta.Lists ⟨Delta.pieces s.dims s.order.keys (List.ofFn y)⟩ s.order.keys s.dims :=
    Delta.lists_pieces List.length_ofFn
  have hcolumns := Assignment.columns_pieces hg.nodup y
  have hgradient := LinearGraph.columns_gradient hg hmisfit
    (Delta.assignment ⟨Delta.pieces s.dims s.order.keys (List.ofFn y)⟩)
  have hpulled := LinearGraph.columns_pulledRhs hg hmisfit
  have hzero := sqrt_dotProduct_self_eq_zero (Aᵀ *ᵥ b)
  refine ⟨hlists, LinearGraph.residuals_of_lists hg hlists, ?_, ?_⟩
  all_goals rw [Assignment.norm_eq, Assignment.norm_eq, hpulled, hgradient, hcolumns]
  · intro hnothing
    have hb := hzero.mp hnothing
    rw [hexact hb, hb, sub_zero, dotProduct_zero, Real.sqrt_zero]
  · intro hsomething
    have hshort := hclose fun hb => hsomething (hzero.mpr hb)
    rw [hmemory, ← neg_sub, neg_dotProduct_neg] at hshort
    exact hshort

end SubgraphSolver

namespace TwoNumbers

theorem normal_problem (b c : ℝ) : (problem b c).normal inTurn.keys sizes =
    .ok (⟨2, [[(0, 1), (1, -1)], [(0, -1), (1, 2)]]⟩, .ofVector [-b, b + c]) := by
  have hoffsets : columnOffsets sizes inTurn.keys = .ok ([(.number 0, 0), (.number 1, 1)], 2) := rfl
  have hfirst : Table.find [(Key.number 0, 0), (.number 1, 1)] (.number 0) = .ok 0 := rfl
  have hsecond : Table.find [(Key.number 0, 0), (.number 1, 1)] (.number 1) = .ok 1 := rfl
  have hstacked : (problem b c).stackedMatrix inTurn.keys sizes =
      .ok ⟨2, [[(0, -1), (1, 1)], [(1, 1)]]⟩ := by
    simp [LinearGraph.stackedMatrix, hoffsets, problem, gap, Elimination.equation, LinearFactor.sparseRows,
      LinearFactor.sparseBlocks, hfirst, hsecond, SparseRow.storeVec, SparseRow.store, bind, Except.bind,
      pure, Except.pure, Scalar.isZero_real]
  rw [LinearGraph.normal_eq_ok (problem_fits b c).fits hstacked]
  simp [Sparse.gram, SparseRow.addScaled, SparseRow.store, Sparse.transposeMulVec, Vec.zeros, Vec.addAt,
    LinearGraph.rhs, problem, gap, Elimination.equation, LinearFactor.rhsArray, Tensor.ofVector,
    List.replicate, one_add_one_eq_two]

/-- The solver with marks that it has kept, none of them for the difference. -/
noncomputable def unmarking : SubgraphSolver ℝ :=
  { iterating with
    structureKey := some [[.number 0, .number 1], [.number 1]]
    mask := [false, true] }

/-- Two steps lead to the numbers: after the first, the gradient is half as long as at the start. -/
theorem iterate_unmarking : unmarking.iterate (problem 0 1) = .ok ⟨[1, 1], 2, true⟩ := by
  have hplace : Lu.pivotPlace ([1, 0] : Vec ℝ) = some 0 := by norm_num [Lu.pivotPlace, Scalar.abs_real]
  have hplace' : Lu.pivotPlace ([2] : Vec ℝ) = some 0 := by norm_num [Lu.pivotPlace, Scalar.abs_real]
  have hsteps : Lu.factorize (α := ℝ) ⟨2, [[1, 0], [0, 2]]⟩ = .ok [⟨0, [0], 1, [0]⟩, ⟨0, [], 2, []⟩] := by
    simp [Lu.factorize, Lu.steps, hplace, hplace', Vec.sub, Vec.scale, bind, Except.bind, pure, Except.pure]
  have hfound : ConjugateGradient.solve (Sparse.mulVec ⟨2, [[(0, 1), (1, -1)], [(0, -1), (1, 2)]]⟩)
      (Lu.solve [⟨0, [0], 1, [0]⟩, ⟨0, [], 2, []⟩]) [0, 1] 0.25 0 3 = (⟨[1, 1], 2, true⟩ : Iterate ℝ) := by
    have hfour : √(4 : ℝ) = 2 := by
      rw [show (4 : ℝ) = 2 ^ 2 by norm_num, Real.sqrt_sq zero_le_two]
    norm_num [ConjugateGradient.solve, ConjugateGradient.iterate, ConjugateGradient.step, Sparse.mulVec,
      SparseRow.dot, Lu.solve, Vec.norm, Vec.normSq, Vec.dot, Vec.sum_real, Vec.zeros, Vec.add, Vec.sub,
      Vec.scale, Scalar.isZero_real, Scalar.sqrt_real, Scalar.largerOf_real, hfour, List.replicate]
  have hnormal := normal_problem 0 1
  have hpreconditioner := preconditioner_problem 0 1
  rw [neg_zero, zero_add] at hnormal
  simp only [SubgraphSolver.iterate, unmarking, iterating, hnormal, hpreconditioner, hsteps, bind, Except.bind,
    SubgraphSolver.column, Tensor.ofVector, List.length_cons, List.length_nil, pure, Except.pure, hfound]

/-- The solver returns the numbers after two steps, and reports no warning. -/
theorem gradient_of_solve_unmarking :
    (problem 0 1).Accords unmarking.order.keys unmarking.dims ∧
    (unmarking.solve (problem 0 1)).result = .ok ⟨[(.number 0, [1]), (.number 1, [1])]⟩ ∧
    (unmarking.solve (problem 0 1)).memory.lastIterations = 2 ∧
    (∀ r ∈ (unmarking.solve (problem 0 1)).reports, r.level ≠ .warning) ∧
    (problem 0 1).pulledRhs.norm sizes inTurn.keys = 1 ∧
    ((problem 0 1).gradient (Delta.assignment ⟨[(.number 0, [1]), (.number 1, [1])]⟩)).norm sizes
      inTurn.keys < 0.25 := by
  have hg := (problem_fits 0 1).accords
  have hprepare : unmarking.prepare (problem 0 1) = ⟨.ok (), unmarking, []⟩ := rfl
  have hsolve : unmarking.solve (problem 0 1) =
      ⟨.ok ⟨[(.number 0, [1]), (.number 1, [1])]⟩, { unmarking with lastIterations := 2 },
        [⟨.debug, .iterationConverged 2⟩]⟩ := by
    simp [SubgraphSolver.solve, hprepare, iterate_unmarking, bind, Except.bind]
    rfl
  have hresult : (unmarking.solve (problem 0 1)).result =
      .ok ⟨[(.number 0, [1]), (.number 1, [1])]⟩ := by rw [hsolve]
  have hcount : (unmarking.solve (problem 0 1)).memory.lastIterations = 2 := by rw [hsolve]
  have hquiet : ∀ r ∈ (unmarking.solve (problem 0 1)).reports, r.level ≠ .warning := by simp [hsolve]
  have hpulled : (problem 0 1).pulledRhs.norm sizes inTurn.keys = 1 := by
    have hfirst : (problem 0 1).pulledRhs (.number 0) 0 = 0 := by
      simp [LinearGraph.pulledRhs, LinearGraph.pullBack, LinearFactor.pullBack, problem, gap,
        Elimination.equation, LinearFactor.rhsArray, Tensor.ofVector, Vec.dot, Vec.sum_real, Vec.entry]
    have hsecond : (problem 0 1).pulledRhs (.number 1) 0 = 1 := by
      simp [LinearGraph.pulledRhs, LinearGraph.pullBack, LinearFactor.pullBack, problem, gap,
        Elimination.equation, LinearFactor.rhsArray, Tensor.ofVector, Vec.dot, Vec.sum_real, Vec.entry]
    have hdim : sizes.dimOf (.number 0) = 1 := rfl
    have hdim' : sizes.dimOf (.number 1) = 1 := rfl
    simp [Assignment.norm, inTurn, hdim, hdim', hfirst, hsecond]
  have hsome : (problem 0 1).pulledRhs.norm sizes inTurn.keys ≠ 0 := by
    rw [hpulled]
    exact one_ne_zero
  have hbound : max unmarking.parameters.epsilonAbs (unmarking.parameters.epsilonRel *
      (problem 0 1).pulledRhs.norm unmarking.dims unmarking.order.keys) = 0.25 := by
    norm_num [unmarking, iterating]
  obtain ⟨-, -, -, hshort⟩ := SubgraphSolver.gradient_of_solve hg hresult hquiet
  exact ⟨hg, hresult, hcount, hquiet, hpulled, (hshort hsome).trans_eq hbound⟩

end TwoNumbers

end LeastSquares
