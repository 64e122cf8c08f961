/-
  LeastSquares/Proofs/DampedSteps.lean
  ====================================
  **What the solution of a damped problem is as a step of the problem itself.**

  Damping adds itself to the diagonal of the matrix of the normal equations and leaves the gradient.  What
  an exact backend returns for a damped problem solves these equations, whatever the order that the backend
  eliminates in and the order of the columns.  Since no step misses less with the damping, the cost falls at
  least by what the length of the step is charged; the step leads along the gradient; and for a larger damping
  it is no longer.
-/
import LeastSquares.Proofs.ExactBackends
import LeastSquares.Proofs.NormalMatrices

namespace LeastSquares

open Vec Matrix

/-! ### Steps as columns -/

namespace Assignment

variable {dims : Table ℕ} {keys : List Key}

theorem columns_zero : columns dims keys 0 = 0 := funext fun j => along_zero keys j

theorem lengthSq_eq_dotProduct (hnodup : keys.Nodup) (hperm : keys.Perm dims.keys) (x : Assignment) :
    x.lengthSq dims = x.columns dims keys ⬝ᵥ x.columns dims keys := by
  rw [lengthSq_eq_sum hnodup hperm, Finset.sum_range, dotProduct]
  exact Finset.sum_congr rfl fun j _ => sq _

/-- A vector that is cut into pieces is found again along the columns. -/
theorem columns_pieces (hnodup : keys.Nodup) (y : Fin (dims.widthOf keys) → ℝ) :
    (Delta.assignment ⟨Delta.pieces dims keys (List.ofFn y)⟩).columns dims keys = y := by
  funext j
  rw [columns, Delta.along_pieces hnodup List.length_ofFn j.isLt]
  simp [entry, List.getD_eq_getElem?_getD]

/-- Every vector is that of an assignment along the columns. -/
theorem exists_columns (hnodup : keys.Nodup) (y : Fin (dims.widthOf keys) → ℝ) :
    ∃ x : Assignment, x.columns dims keys = y := ⟨_, columns_pieces hnodup y⟩

end Assignment

namespace Delta

variable {dims : Table ℕ} {keys : List Key} {d : Delta ℝ}

/-- The step that moves nothing has a block of zeros for every variable. -/
theorem covers_zero (h : ∀ key ∈ keys, key ∈ dims.keys) :
    (zero dims).Covers keys dims ∧ (zero dims).assignment = 0 := by
  have hget : ∀ key, (zero dims : Delta ℝ).blocks.get? key = (dims.get? key).map Vec.zeros :=
    Table.get?_mapEntries dims _
  constructor
  · intro key hkey
    obtain ⟨n, hn⟩ := Table.exists_get?_of_mem_keys (h key hkey)
    refine ⟨Vec.zeros n, by rw [hget, hn]; rfl, ?_⟩
    rw [Vec.zeros, List.length_replicate, Table.dimOf_eq hn]
  · funext key j
    rw [assignment, hget]
    cases dims.get? key with
    | none => rfl
    | some n =>
      simp only [Option.map_some, Option.getD_some, entry, Vec.zeros, List.getD_eq_getElem?_getD,
        List.getElem?_replicate]
      split <;> rfl

/-- The vector of a step lists its components along the columns. -/
theorem Covers.vectorOf_eq_columns (h : d.Covers keys dims) :
    d.vectorOf keys = .ok (List.ofFn (d.assignment.columns dims keys)) := by
  obtain ⟨xs, hxs, hlength, hentries⟩ := h.vectorOf_eq_ok
  have hcolumns : xs = List.ofFn (d.assignment.columns dims keys) := by
    refine List.ext_getElem (by rw [hlength, List.length_ofFn]) fun j hj hj' => ?_
    have hentry := hentries j (hlength ▸ hj)
    rw [entry, List.getD_eq_getElem?_getD, List.getElem?_eq_getElem hj, Option.getD_some] at hentry
    rw [hentry, List.getElem_ofFn, Assignment.columns]
  rw [hxs, hcolumns]

/-- The norm of a step is the length of its assignment. -/
theorem Lists.norm_eq (h : d.Lists keys dims) (hnodup : keys.Nodup) (hperm : keys.Perm dims.keys) :
    d.norm = √(d.assignment.lengthSq dims) := by
  obtain ⟨-, hlength⟩ := h.eq_pieces hnodup
  rw [norm, Vec.norm, Scalar.sqrt_real, normSq, dot_eq_sum hlength hlength,
    Assignment.lengthSq_eq_sum hnodup hperm, Finset.sum_range]
  congr 1
  refine Finset.sum_congr rfl fun j _ => ?_
  rw [h.along_eq hnodup j.isLt, sq]

end Delta

/-! ### The normal equations of a damped problem -/

namespace LinearGraph

variable {g : LinearGraph ℝ} {keys : List Key} {dims : Table ℕ} {damping : ℝ}

/-- **The normal equations of a damped problem** have the damping on the diagonal, and steps that miss least
    with the damping solve them. -/
theorem exists_normal_damped (hg : g.Accords keys dims) (hperm : keys.Perm dims.keys) :
    ∃ (m : ℕ) (A : Matrix (Fin m) (Fin (dims.widthOf keys)) ℝ) (b : Fin m → ℝ),
      g.HasNormal keys dims (Aᵀ * A) (Aᵀ *ᵥ b) ∧ ∀ damping, 0 ≤ damping →
        (g.damped damping dims).HasNormal keys dims (Aᵀ * A + damping • 1) (Aᵀ *ᵥ b) ∧
        ∀ x, (∀ y, (g.damped damping dims).misfit x ≤ (g.damped damping dims).misfit y) →
          (Aᵀ * A + damping • 1) *ᵥ x.columns dims keys = Aᵀ *ᵥ b := by
  obtain ⟨m, A, b, hnormal, hmisfit⟩ := exists_normal hg
  refine ⟨m, A, b, hnormal, fun damping hdamping => ?_⟩
  obtain ⟨l, A', b', hnormal', hmisfit'⟩ := exists_normal (hg.damped hperm damping)
  have hdistance : ∀ y, distanceSq A' b' y = distanceSq A b y + damping * (y ⬝ᵥ y) := by
    intro y
    obtain ⟨x, rfl⟩ := Assignment.exists_columns hg.nodup y
    rw [← hmisfit', ← hmisfit, misfit_damped, Real.sq_sqrt hdamping,
      Assignment.lengthSq_eq_dotProduct hg.nodup hperm]
  obtain ⟨hmatrix, hgradient⟩ := normal_of_distanceSq hdistance
  rw [← hmatrix, ← hgradient]
  refine ⟨hnormal', fun x hleast => ?_⟩
  rw [← mulVec_mulVec]
  refine normal_of_least fun y => ?_
  obtain ⟨z, rfl⟩ := Assignment.exists_columns hg.nodup y
  rw [← hmisfit', ← hmisfit']
  exact hleast z

/-! ### Steps that miss least with the damping -/

/-- What the length of a step is charged is no more than what it saves. -/
theorem misfit_add_le_of_least (hdamping : 0 ≤ damping) {x : Assignment}
    (hleast : ∀ y, (g.damped damping dims).misfit x ≤ (g.damped damping dims).misfit y) :
    g.misfit x + damping * x.lengthSq dims ≤ g.misfit 0 := by
  have hzero := hleast 0
  rwa [misfit_damped_zero, misfit_damped, Real.sq_sqrt hdamping] at hzero

/-- **More damping makes no longer steps.**  Each of two steps misses least with its own damping; the sum of
    the two comparisons leaves the difference of the lengths. -/
theorem lengthSq_le_of_least {more : ℝ} (hdamping : 0 ≤ damping) (hmore : damping < more)
    {x y : Assignment} (hx : ∀ z, (g.damped damping dims).misfit x ≤ (g.damped damping dims).misfit z)
    (hy : ∀ z, (g.damped more dims).misfit y ≤ (g.damped more dims).misfit z) :
    y.lengthSq dims ≤ x.lengthSq dims := by
  have hless := hx y
  have hlarge := hy x
  simp only [misfit_damped, Real.sq_sqrt hdamping, Real.sq_sqrt (hdamping.trans hmore.le)] at hless hlarge
  have hproduct : (more - damping) * (y.lengthSq dims - x.lengthSq dims) ≤ 0 := by linarith
  linarith [nonpos_of_mul_nonpos_right hproduct (sub_pos.mpr hmore)]

/-- A solution of damped normal equations leads along the gradient. -/
theorem dotProduct_pos_of_damped {m n : ℕ} {A : Matrix (Fin m) (Fin n) ℝ} {δ slope : Fin n → ℝ}
    (hdamping : 0 < damping) (h : (Aᵀ * A + damping • 1) *ᵥ δ = slope) (hslope : slope ≠ 0) :
    0 < slope ⬝ᵥ δ := by
  have hmoves : δ ≠ 0 := by
    rintro rfl
    exact hslope (h.symm.trans (mulVec_zero _))
  have hlength : 0 < δ ⬝ᵥ δ :=
    lt_of_le_of_ne (Finset.sum_nonneg fun i _ => mul_self_nonneg _) fun hzero =>
      hmoves (dotProduct_self_eq_zero.mp hzero.symm)
  have himage : 0 ≤ (A *ᵥ δ) ⬝ᵥ (A *ᵥ δ) := Finset.sum_nonneg fun i _ => mul_self_nonneg _
  calc 0 < (A *ᵥ δ) ⬝ᵥ (A *ᵥ δ) + damping * (δ ⬝ᵥ δ) := by positivity
    _ = δ ⬝ᵥ (Aᵀ * A + damping • 1) *ᵥ δ := by
      rw [add_mulVec, smul_mulVec, one_mulVec, dotProduct_add, dotProduct_smul, smul_eq_mul,
        ← mulVec_mulVec, dotProduct_mulVec δ Aᵀ, vecMul_transpose]
    _ = slope ⬝ᵥ δ := by rw [h, dotProduct_comm]

/-! ### What exact backends return -/

/-- An exact backend returns a step for a problem, whatever its state and the order that it is made for. -/
def IsAnswered (g : LinearGraph ℝ) (keys : List Key) (dims : Table ℕ) (d : Delta ℝ) : Prop :=
  ∃ (order : EliminationOrder) (backend : Backend ℝ), order.keys.Perm keys ∧
    backend.IsExact order dims ∧ (backend.solve g).result = .ok d

/-- A problem accords with its variables in every order. -/
theorem Accords.perm {α : Type} {g : LinearGraph α} (hg : g.Accords keys dims) {others : List Key}
    (hperm : others.Perm keys) : g.Accords others dims :=
  ⟨hperm.nodup_iff.mpr hg.nodup, fun key hkey => hg.sized key (hperm.mem_iff.mp hkey), hg.fits,
    fun f hf key hkey => hperm.mem_iff.mpr (hg.listed f hf key hkey)⟩

/-- A step that is returned lists the variables in some order and misses least. -/
theorem IsAnswered.least (hg : g.Accords keys dims) {d : Delta ℝ} (h : g.IsAnswered keys dims d) :
    (∃ others : List Key, others.Perm keys ∧ d.Lists others dims) ∧
      ∀ y, g.misfit d.assignment ≤ g.misfit y := by
  obtain ⟨order, backend, hperm, hexact, hd⟩ := h
  have hsolved := hexact.isSolvedBy (hg.perm hperm) hd
  exact ⟨⟨order.keys, hperm, hsolved.lists⟩, hsolved.misfit_le (hg.perm hperm)⟩

theorem IsAnswered.norm_eq (hg : g.Accords keys dims) (hperm : keys.Perm dims.keys) {d : Delta ℝ}
    (h : g.IsAnswered keys dims d) : d.norm = √(d.assignment.lengthSq dims) := by
  obtain ⟨⟨others, hothers, hlists⟩, -⟩ := h.least hg
  exact hlists.norm_eq (hothers.nodup_iff.mpr hg.nodup) (hothers.trans hperm)

/-- **A step of a problem for a damping**, with the matrix and the gradient of the normal equations of the
    problem: its vector along the columns solves the damped equations, the cost falls at least by half of
    the damping for the square of its length, and where there is a gradient, the step leads along it. -/
structure IsDampedStep (g : LinearGraph ℝ) (keys : List Key) (dims : Table ℕ) (damping : ℝ) {n : ℕ}
    (H : Matrix (Fin n) (Fin n) ℝ) (slope : Fin n → ℝ) (d : Delta ℝ) (δ : Fin n → ℝ) : Prop where
  vector : d.vectorOf keys = .ok (List.ofFn δ)
  solves : (H + damping • 1) *ᵥ δ = slope
  pays : ∃ c still, g.cost d = .ok c ∧ g.cost (Delta.zero dims) = .ok still ∧
    c + damping / 2 * d.norm ^ 2 ≤ still
  descends : slope ≠ 0 → 0 < slope ⬝ᵥ δ

/-- What an exact backend returns for a damped problem is such a step. -/
theorem IsAnswered.isDampedStep (hg : g.Accords keys dims) (hperm : keys.Perm dims.keys)
    (hdamping : 0 < damping) {d : Delta ℝ} (h : (g.damped damping dims).IsAnswered keys dims d)
    {m : ℕ} {A : Matrix (Fin m) (Fin (dims.widthOf keys)) ℝ} {slope : Fin (dims.widthOf keys) → ℝ}
    (hsolves : (Aᵀ * A + damping • 1) *ᵥ d.assignment.columns dims keys = slope) :
    g.IsDampedStep keys dims damping (Aᵀ * A) slope d (d.assignment.columns dims keys) := by
  obtain ⟨⟨others, hothers, hlists⟩, hleast⟩ := h.least (hg.damped hperm damping)
  have hcovers : d.Covers keys dims :=
    hlists.sized.covers fun key hkey => hlists.keys_eq ▸ hothers.mem_iff.mpr hkey
  constructor
  · exact hcovers.vectorOf_eq_columns
  · exact hsolves
  · obtain ⟨hstill, hzero⟩ := Delta.covers_zero fun key hkey => (hperm.mem_iff (a := key)).mp hkey
    have hcost : ∀ e : Delta ℝ, e.Covers keys dims → g.cost e = .ok (1 / 2 * g.misfit e.assignment) :=
      fun e he => cost_of_blocks hg.fits fun f hf key hkey => he key (hg.listed f hf key hkey)
    refine ⟨_, _, hcost d hcovers, hcost _ hstill, ?_⟩
    rw [hzero, h.norm_eq (hg.damped hperm damping) hperm, Real.sq_sqrt (Assignment.lengthSq_nonneg _ _)]
    linarith [misfit_add_le_of_least hdamping.le hleast]
  · exact dotProduct_pos_of_damped hdamping hsolves

/-- **Damping adds itself to the diagonal and nothing to the gradient, so damped solutions descend.**  For a
    linear problem and any order of its variables, the normal equations that are formed are a matrix and a
    gradient, and those of the damped problem are the matrix with the damping on the diagonal and the same
    gradient.  What an exact backend returns for the damped problem solves these, pays for its length out of
    the cost that it saves, leads along the gradient where that is not zero, and is no shorter than what an
    exact backend returns for any larger damping. -/
theorem damped_steps_descend (hg : g.Accords keys dims) (hperm : keys.Perm dims.keys) :
    ∃ (H : Matrix (Fin (dims.widthOf keys)) (Fin (dims.widthOf keys)) ℝ)
      (slope : Fin (dims.widthOf keys) → ℝ),
      g.HasNormal keys dims H slope ∧ ∀ damping, 0 < damping →
        (g.damped damping dims).HasNormal keys dims (H + damping • 1) slope ∧
        ∀ d, (g.damped damping dims).IsAnswered keys dims d →
          (∃ δ, g.IsDampedStep keys dims damping H slope d δ) ∧
          ∀ more, damping < more → ∀ d', (g.damped more dims).IsAnswered keys dims d' →
            d'.norm ≤ d.norm := by
  obtain ⟨m, A, b, hnormal, hdamped⟩ := exists_normal_damped hg hperm
  refine ⟨Aᵀ * A, Aᵀ *ᵥ b, hnormal, fun damping hdamping => ?_⟩
  obtain ⟨hform, hsolves⟩ := hdamped damping hdamping.le
  refine ⟨hform, fun d hd => ?_⟩
  have hleast := (hd.least (hg.damped hperm damping)).2
  refine ⟨⟨_, hd.isDampedStep hg hperm hdamping (hsolves _ hleast)⟩, fun more hmore d' hd' => ?_⟩
  have hleast' := (hd'.least (hg.damped hperm more)).2
  rw [hd.norm_eq (hg.damped hperm damping) hperm, hd'.norm_eq (hg.damped hperm more) hperm]
  exact Real.sqrt_le_sqrt (lengthSq_le_of_least hdamping.le hmore hleast hleast')

end LinearGraph

namespace TwoNumbers

/-- An exact backend returns the two numbers that solve the damped equations. -/
theorem damped_answered {b c damping y z : ℝ} (hrhs : b ^ 2 + c ^ 2 ≤ 2) (hone : 1 ≤ damping)
    (hfirst : (1 + damping) * y - z = -b) (hsecond : (2 + damping) * z - y = b + c) :
    ((problem b c).damped damping sizes).IsAnswered inTurn.keys sizes
      ⟨[(.number 0, [y]), (.number 1, [z])]⟩ := by
  have hdamping : 0 ≤ damping := zero_le_one.trans hone
  have hperm : inTurn.keys.Perm sizes.keys := .refl _
  have hg := (problem_fits b c).damped hperm damping
  have htwo : √2 ^ 2 = (2 : ℝ) := Real.sq_sqrt zero_le_two
  have hscale : √(2 + damping) ^ 2 = 2 + damping := Real.sq_sqrt (by linarith)
  have hcolumns : (problem b c).HasColumnsWithin inTurn.keys sizes √2 :=
    ((problem b c).isScaled_iff (problem_fits b c).accords _).mp
      (isScaled_problem (htwo.symm ▸ hrhs) htwo.ge)
  have hscaled := LinearGraph.isScaled_damped (problem_fits b c) hperm hdamping hcolumns
    (show √2 ^ 2 + damping ≤ √(2 + damping) ^ 2 by rw [htwo, hscale])
  have hsteep : IsSteep inTurn sizes ((problem b c).damped damping sizes).misfit
      (Elimination.pivotTolerance * √(2 + damping)) := by
    refine LinearGraph.isSteep_damped (problem_fits b c) hperm ?_
    rw [mul_pow, hscale]
    norm_num [Elimination.pivotTolerance]
    linarith
  obtain ⟨d, hd, -⟩ := both_return fresh_reachable hg none (Real.one_le_sqrt.mpr (by linarith)) hscaled
    hsteep
  have hmisfit : ∀ x, ((problem b c).damped damping sizes).misfit x =
      (x (.number 1) 0 - x (.number 0) 0 - b) ^ 2 + (x (.number 1) 0 - c) ^ 2 +
        damping * (x (.number 0) 0 ^ 2 + x (.number 1) 0 ^ 2) := by
    intro x
    have hlength : x.lengthSq sizes = x (.number 0) 0 ^ 2 + x (.number 1) 0 ^ 2 := by
      simp [Assignment.lengthSq, sizes]
    rw [LinearGraph.misfit_damped, misfit_problem, hlength, Real.sq_sqrt hdamping]
  have hsolved := SequentialSolver.isSolvedBy_of_solve ⟨inTurn, sizes, none⟩ hg.accords hd
  rw [eq_of_isSolvedBy hg.accords hdamping hmisfit hsolved hfirst hsecond] at hd
  exact ⟨inTurn, .sequential ⟨inTurn, sizes, none⟩, .refl _, ⟨rfl, rfl⟩, hd⟩

/-- With the damping one the second number moves two fifths of its way, and with the damping three about a
    fifth. -/
theorem damped_steps_shorten : (problem 0 1).Accords inTurn.keys sizes ∧ inTurn.keys.Perm sizes.keys ∧
    ((problem 0 1).damped 1 sizes).IsAnswered inTurn.keys sizes
      ⟨[(.number 0, [1 / 5]), (.number 1, [2 / 5])]⟩ ∧
    ((problem 0 1).damped 3 sizes).IsAnswered inTurn.keys sizes
      ⟨[(.number 0, [1 / 19]), (.number 1, [4 / 19])]⟩ ∧
    (∃ (H : Matrix (Fin 2) (Fin 2) ℝ) (slope δ : Fin 2 → ℝ),
      (problem 0 1).HasNormal inTurn.keys sizes H slope ∧
        ((problem 0 1).damped 1 sizes).HasNormal inTurn.keys sizes (H + (1 : ℝ) • 1) slope ∧
        (problem 0 1).IsDampedStep inTurn.keys sizes 1 H slope
          ⟨[(.number 0, [1 / 5]), (.number 1, [2 / 5])]⟩ δ) ∧
    (⟨[(.number 0, [1 / 19]), (.number 1, [4 / 19])]⟩ : Delta ℝ).norm ≤
      (⟨[(.number 0, [1 / 5]), (.number 1, [2 / 5])]⟩ : Delta ℝ).norm := by
  have hg := (problem_fits 0 1).accords
  have hperm : inTurn.keys.Perm sizes.keys := .refl _
  have hlong : ((problem 0 1).damped 1 sizes).IsAnswered inTurn.keys sizes
      ⟨[(.number 0, [1 / 5]), (.number 1, [2 / 5])]⟩ :=
    damped_answered (by norm_num) le_rfl (by norm_num) (by norm_num)
  have hshort : ((problem 0 1).damped 3 sizes).IsAnswered inTurn.keys sizes
      ⟨[(.number 0, [1 / 19]), (.number 1, [4 / 19])]⟩ :=
    damped_answered (by norm_num) (by norm_num) (by norm_num) (by norm_num)
  obtain ⟨H, slope, hnormal, hsteps⟩ := LinearGraph.damped_steps_descend hg hperm
  obtain ⟨hdamped, hanswers⟩ := hsteps 1 one_pos
  obtain ⟨⟨δ, hstep⟩, hshorter⟩ := hanswers _ hlong
  exact ⟨hg, hperm, hlong, hshort, ⟨H, slope, δ, hnormal, hdamped, hstep⟩,
    hshorter 3 (by norm_num) _ hshort⟩

end TwoNumbers

end LeastSquares
