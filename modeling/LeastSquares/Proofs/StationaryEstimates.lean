/-
  LeastSquares/Proofs/StationaryEstimates.lean
  ============================================
  **An optimization that starts at a stationary estimate stays there.**

  Where the gradient of the linear problem is zero, the step that moves nothing solves it, with
  damping or without, and it is the only solution when there is one.  So an exact backend returns
  that step or fails, the estimate that it leads to is the old one, and its cost is accepted as it
  has not grown.
-/
import LeastSquares.Proofs.Gradients
import LeastSquares.Proofs.Reweighting

namespace LeastSquares

open Vec

/-- What an exact backend returns solves the problem with matrices and vectors only. -/
theorem Backend.IsExact.isSolvedBy_flat {order : EliminationOrder} {dims : Table ℕ}
    {backend : Backend ℝ} (h : backend.IsExact order dims) {g : LinearGraph ℝ}
    (hg : g.Formed order.keys dims) {d : Delta ℝ} (hd : (backend.solve g).result = .ok d) :
    g.flat.IsSolvedBy order.keys dims d := by
  have hflat : (backend.solve g.flat).result = .ok d := by
    cases backend with
    | sequential s =>
      obtain ⟨rfl, rfl⟩ := h
      exact s.solve_flat (fun f hf => (hg.formed f hf).flattens) hd
    | multifrontal s =>
      obtain ⟨-, rfl, hcoherent⟩ := MultifrontalSolver.Reachable.coherent h
      exact MultifrontalSolver.solve_flat hcoherent (fun f hf => (hg.formed f hf).flattens) hd
    | subgraph s => exact h.elim
    | absent => exact h.elim
  exact h.isSolvedBy hg.accords_flat hflat

namespace Values

/-- A step whose components are all zero leads back to the estimate. -/
theorem retract_still {v : Values ℝ} (hnodup : v.keys.Nodup) {keys : List Key} {d : Delta ℝ}
    (hd : d.Lists keys v.dims) (hperm : keys.Perm v.keys)
    (hzero : ∀ key ∈ keys, ∀ j < v.dims.dimOf key, d.assignment key j = 0) : v.retract d = .ok v := by
  obtain ⟨w, hw⟩ := v.retract_exists (d := d) (fun key n step hn hstep =>
    (hd.sized key step hstep).trans (Table.dimOf_eq hn)) hnodup
  have hsame : w = v := by
    refine ext_assignment hnodup (dims_of_retract hw) fun key n hn j hj => ?_
    have hkey : key ∈ v.keys := keys_dims v ▸ Table.mem_keys_of_get? hn
    rw [assignment_retract hw hkey, hzero key (hperm.symm.subset hkey) j (Table.dimOf_eq hn ▸ hj),
      add_zero]
  rw [hw, hsame]

end Values

namespace Optimizer

/-! ### Optimizations at rest -/

/-- An optimization by the backends that eliminate, with an estimate around which no step misses less
    than the one that moves nothing. -/
structure Stationary (o : Optimizer (Backend ℝ) ℝ) (order : EliminationOrder) (values : Values ℝ)
    (linear : LinearGraph ℝ) : Prop where
  solver_eq : o.solver = Backend.solver
  nodup : values.keys.Nodup
  sized : values.dims = o.dims
  perm : order.keys.Perm values.keys
  linearize_eq : o.graph.linearize values = .ok linear
  formed : linear.Formed order.keys o.dims
  least : ∀ x, linear.flat.misfit 0 ≤ linear.flat.misfit x

/-- A state that is still at an estimate, with its cost; nothing has been rejected. -/
structure Resting (o : Optimizer (Backend ℝ) ℝ) (order : EliminationOrder) (values : Values ℝ)
    (s : OptimizerState (Backend ℝ) ℝ) : Prop where
  values_eq : s.values = values
  cost_eq : o.graph.cost values = .ok s.cost
  history : ∀ c ∈ s.history, c = s.cost
  exact : s.memory.IsExact order o.dims
  accepting : Accepting s.reports

variable {o : Optimizer (Backend ℝ) ℝ} {order : EliminationOrder} {values : Values ℝ}
  {s t : OptimizerState (Backend ℝ) ℝ} {linear : LinearGraph ℝ}

theorem Resting.tells (h : o.Resting order values s) (htells : Tells s t) :
    o.Resting order values t := by
  obtain ⟨more, rfl, hmore⟩ := htells
  exact ⟨h.values_eq, h.cost_eq, h.history, h.exact, h.accepting.append hmore⟩

theorem Resting.asked (h : o.Resting order values s) (hsolver : o.solver = Backend.solver)
    (problem : LinearGraph ℝ) : o.Resting order values (o.asked s problem) :=
  ⟨h.values_eq, h.cost_eq, h.history, by rw [Optimizer.asked, hsolver]; exact h.exact.memory problem,
    h.accepting⟩

/-- Accepting the estimate itself changes the count, the damping and the length of the history. -/
theorem Resting.stepped (h : o.Resting order values s) (hsolver : o.solver = Backend.solver)
    (method : Method) : o.Resting order values (o.stepped method s linear (values, s.cost)) := by
  refine ⟨rfl, h.cost_eq, ?_, (h.asked hsolver _).exact, h.accepting⟩
  exact List.forall_mem_append.mpr ⟨h.history, List.forall_mem_singleton.mpr rfl⟩

/-- The problem of a round is formed, and no step misses less of it than the one that moves
    nothing. -/
theorem Stationary.problem (h : o.Stationary order values linear) (method : Method)
    (s : OptimizerState (Backend ℝ) ℝ) :
    (method.problem o s linear).Formed order.keys o.dims ∧
      ∀ x, (method.problem o s linear).flat.misfit 0 ≤ (method.problem o s linear).flat.misfit x := by
  cases method with
  | gaussNewton => exact ⟨h.formed, h.least⟩
  | levenbergMarquardt =>
    have hperm : order.keys.Perm o.dims.keys := by
      rw [← h.sized, Values.keys_dims]
      exact h.perm
    refine ⟨h.formed.damped hperm _, fun x => ?_⟩
    show (linear.damped s.damping o.dims).flat.misfit 0 ≤ (linear.damped s.damping o.dims).flat.misfit x
    rw [LinearGraph.flat_damped, LinearGraph.misfit_damped_zero]
    exact (h.least x).trans (linear.flat.misfit_le_damped _ _ x)

/-- **The step that an exact backend returns leads nowhere.** -/
theorem Stationary.leads (h : o.Stationary order values linear) (hs : o.Resting order values s)
    (method : Method) {d : Delta ℝ}
    (hanswer : (s.memory.solve (method.problem o s linear)).result = .ok d) :
    o.Leads s.values d (values, s.cost) := by
  obtain ⟨hformed, hleast⟩ := h.problem method s
  have hsolved := hs.exact.isSolvedBy_flat hformed hanswer
  have hstill : values.retract d = .ok values := by
    refine Values.retract_still h.nodup (h.sized ▸ hsolved.lists) h.perm fun key hkey j hj => ?_
    exact hsolved.assignment_eq_zero hformed.accords_flat hleast hkey (h.sized ▸ hj)
  rw [hs.values_eq]
  exact ⟨hstill, hs.cost_eq⟩

/-- **A round ends where it has started**, whether the backend answers or not. -/
theorem Stationary.round_rests (h : o.Stationary order values linear)
    (hs : o.Resting order values s) (method : Method) :
    o.Resting order values ((o.round method).run s).2 ∧ ((o.round method).run s).1 ≠ .ok false := by
  have hlinear : o.graph.linearize s.values = .ok linear := by rw [hs.values_eq, h.linearize_eq]
  have hsolve : o.solver.solve = Backend.solve := by rw [h.solver_eq]; rfl
  have hreports : Accepting (o.solver.solve s.memory (method.problem o s linear)).reports := by
    rw [hsolve]
    exact hs.exact.accepting _
  cases hresult : (s.memory.solve (method.problem o s linear)).result with
  | error e =>
    obtain ⟨t, hrun, htells⟩ := round_refused hlinear hreports (hsolve ▸ hresult)
    rw [hrun]
    exact ⟨(hs.asked h.solver_eq _).tells htells, nofun⟩
  | ok d =>
    have hadmits : method.Admits s.cost s.cost := by
      cases method with
      | gaussNewton => trivial
      | levenbergMarquardt => exact ⟨Scalar.isFinite_real _, le_rfl⟩
    obtain ⟨t, hrun, htells⟩ := round_answered hlinear hreports (hsolve ▸ hresult)
      (h.leads hs method hresult) hadmits
    rw [hrun]
    exact ⟨(hs.stepped h.solver_eq method).tells htells, nofun⟩

end Optimizer

/-! ### A number that is measured as two things -/

namespace Opposed

open Elimination

/-- The number is measured as one and as minus one, equally well. -/
def graph : Graph ℝ :=
  ⟨[⟨.prior (.number 0) (.ofVector [1]), some ⟨[1], .none⟩, some "above"⟩,
    ⟨.prior (.number 0) (.ofVector [-1]), some ⟨[1], .none⟩, some "below"⟩]⟩

/-- What the graph becomes around zero. -/
noncomputable def linear : LinearGraph ℝ := ⟨[equation (.number 0) 1 1, equation (.number 0) 1 (-1)]⟩

theorem isRegular_graph : graph.IsRegular :=
  List.forall_mem_cons.mpr ⟨Measurement.isRegular_prior _ _,
    List.forall_mem_singleton.mpr (Measurement.isRegular_prior _ _)⟩

theorem linearize_eq : graph.linearize (Anchor.estimate 0) = .ok linear := by
  have hequations : graph.linearize (Anchor.estimate 0) =
      .ok ⟨[equation (.number 0) (1 / 1) (-((0 - 1) / 1)),
        equation (.number 0) (1 / 1) (-((0 - -1) / 1))]⟩ := rfl
  rw [hequations, linear]
  norm_num

theorem fits_linear : linear.Fits Anchor.order.keys (Anchor.estimate 0).dims where
  nodup := List.nodup_singleton _
  sized := List.forall_mem_singleton.mpr ⟨1, rfl, Nat.one_pos⟩
  fits := List.forall_mem_cons.mpr ⟨(LinearGraph.fits_equation (.number 0) 1 1).fits _ (by simp),
    (LinearGraph.fits_equation (.number 0) 1 (-1)).fits⟩
  listed := by simp [linear, equation, LinearFactor.keys, Table.keys, Anchor.order]

/-- The two equations pull the number with the same force. -/
theorem isStationary_linear : linear.IsStationary Anchor.order.keys (Anchor.estimate 0).dims := by
  have hmatrix : linear.flat.stackedMatrix Anchor.order.keys (Anchor.estimate 0).dims =
      .ok ⟨1, [[(0, 1)], [(0, 1)]]⟩ := by
    have hoffsets : columnOffsets (Anchor.estimate 0).dims Anchor.order.keys =
        .ok ([(.number 0, 0)], 1) := rfl
    have hrows : linear.flat.factors.mapM (LinearFactor.sparseRows [(.number 0, 0)]) =
        .ok [[[(0, 1)]], [[(0, 1)]]] := by
      simp [linear, LinearGraph.flat, LinearFactor.flat, equation, LinearFactor.sparseRows,
        LinearFactor.sparseBlocks, Table.find, Table.get?, SparseRow.storeVec, SparseRow.store,
        Scalar.isZero_real, bind, Except.bind, pure, Except.pure]
    simp [LinearGraph.stackedMatrix, hoffsets, hrows, bind, Except.bind, pure, Except.pure]
  have hgradient : Sparse.transposeMulVec ⟨1, [[(0, 1)], [(0, 1)]]⟩ [(1 : ℝ), -1] = [0] := by
    norm_num [Sparse.transposeMulVec, Vec.addAt, Vec.zeros]
  have hrhs : linear.flat.stackedRhs = .ok (.ofVector [1, -1]) := rfl
  refine ⟨Sparse.gram ⟨1, [[(0, 1)], [(0, 1)]]⟩, .ofVector [0], ?_, by simp [Tensor.ofVector]⟩
  simp only [LinearGraph.normal, LinearGraph.stacked, hmatrix, hrhs, bind, Except.bind, pure,
    Except.pure, Sparse.transposeMul, Tensor.ofVector, hgradient]

theorem misfit_linear (x : Assignment) :
    linear.misfit x = (x (.number 0) 0 - 1) ^ 2 + (x (.number 0) 0 + 1) ^ 2 := by
  simp [linear, LinearGraph.misfit, LinearFactor.misfit, equation, LinearFactor.missed, Vec.neg, Vec.add]
  ring

theorem curvature_linear (x : Assignment) : curvature linear.misfit x = 2 * x (.number 0) 0 ^ 2 := by
  simp only [curvature, misfit_linear, Pi.neg_apply, Pi.zero_apply]
  ring

theorem solve_linear : ∃ d, (Anchor.sequential.solve linear).result = .ok d := by
  have hscaled : IsScaled Anchor.order (Anchor.estimate 0).dims linear.misfit 2 := by
    refine ⟨by norm_num [misfit_linear], fun key hkey j hj => ?_⟩
    obtain rfl := List.mem_singleton.mp hkey
    obtain rfl : j = 0 := Nat.lt_one_iff.mp hj
    norm_num [curvature_linear, Assignment.unit]
  have hsteep : IsSteep Anchor.order (Anchor.estimate 0).dims linear.misfit
      (pivotTolerance * 2) := by
    intro key hkey j hj x hends
    obtain rfl := List.mem_singleton.mp hkey
    obtain rfl : j = 0 := Nat.lt_one_iff.mp hj
    rw [curvature_linear, hends.one]
    norm_num [pivotTolerance]
  obtain ⟨d, hd, -⟩ := both_return .fresh fits_linear none one_le_two hscaled hsteep
  exact ⟨d, hd⟩

end Opposed

namespace Optimizer

/-! ### From the beginning -/

variable {graph : Graph ℝ} {keys : List Key} {kind : SolverKind} {backend : Backend ℝ}
  {parameters : Parameters ℝ}

theorem start_stationary (hgraph : graph.IsRegular) (hnodup : values.keys.Nodup)
    (horder : order.keys.Nodup) (hbackend : Backend.ofElimination kind values order = .ok backend)
    (hlinear : graph.linearize values = .ok linear) (hkeys : keys.Perm values.keys)
    (hstationary : linear.IsStationary keys values.dims)
    (hstart : start graph values order Backend.solver backend parameters = .ok (o, s)) :
    o.Stationary order values linear ∧ o.Resting order values s := by
  obtain ⟨rfl, hcost, hs⟩ := start_eq_ok hstart
  obtain ⟨hexact, hvalid⟩ := Backend.isExact_ofElimination hbackend
  have hperm : order.keys.Perm values.keys :=
    EliminationOrder.perm_of_validate hvalid horder hnodup
  -- the gradient may be taken in any order of the variables, not only in that of the elimination
  have hleast := hstationary.misfit_le
    (Graph.linearize_formed hgraph (hkeys.nodup_iff.mpr hnodup) hkeys hlinear)
  refine ⟨⟨rfl, hnodup, rfl, hperm, hlinear, Graph.linearize_formed hgraph horder hperm hlinear,
    hleast⟩, ?_⟩
  rw [hs]
  exact ⟨rfl, hcost, List.forall_mem_singleton.mpr rfl, hexact, by simp [Accepting]⟩

/-- **Stationary estimates are fixed points.**  Let the gradient of the linear problem around an
    estimate be zero, whether or not residuals remain, and let a backend that eliminates solve the
    linear problems, with any settings.  After any iterations and loops, whether they have returned
    or failed, the optimization is at the estimate, with its cost, and no step has been rejected;
    what a loop returns from there is the estimate with its cost, and no loop ends with a damping
    that has passed its bound. -/
theorem stationary_stays (hgraph : graph.IsRegular) (hnodup : values.keys.Nodup)
    (horder : order.keys.Nodup) (hbackend : Backend.ofElimination kind values order = .ok backend)
    (hlinear : graph.linearize values = .ok linear) (hkeys : keys.Perm values.keys)
    (hstationary : linear.IsStationary keys values.dims)
    (hstart : start graph values order Backend.solver backend parameters = .ok (o, s))
    (calls : List (Call ℝ)) (hcalls : ∀ call ∈ calls, call.IsOwn) :
    let t := o.after s calls
    t.values = values ∧ t.cost = s.cost ∧ Accepting t.reports ∧
    ∀ method, Accepting ((Method.run method o).run t).2.reports ∧
      ∀ result, ((Method.run method o).run t).1 = .ok result →
        result.values = values ∧ graph.cost values = .ok result.cost ∧
        (∀ c ∈ result.history, c = result.cost) ∧ result.termination ≠ .lambdaUpperBound := by
  intro t
  obtain ⟨ho, hs⟩ :=
    start_stationary hgraph hnodup horder hbackend hlinear hkeys hstationary hstart
  obtain ⟨rfl, hcost, -⟩ := start_eq_ok hstart
  have ht : Resting _ order values t := after_keeps (P := Resting _ order values)
    (fun _ _ hs => hs.tells) (fun method _ hs => ho.round_rests hs method) hcalls hs
  have hsame : t.cost = s.cost := Except.ok.inj (ht.cost_eq.symm.trans hcost)
  refine ⟨ht.values_eq, hsame, ht.accepting, fun method => ?_⟩
  obtain ⟨hend, hnot⟩ := run_keeps (P := Resting _ order values) (fun _ _ hs => hs.tells)
    (fun _ hs => ho.round_rests hs method) ht
  refine ⟨hend.accepting, fun result hresult => ?_⟩
  rw [(run_finished hresult).outcome_eq]
  refine ⟨hend.values_eq, hend.cost_eq, hend.history, ?_⟩
  rw [← (run_finished hresult).outcome_eq]
  exact hnot result hresult

/-- An undamped iteration from zero leaves the number between the two measurements, each of which
    it still misses. -/
theorem stationary_stays_opposed :
    Opposed.graph.IsRegular ∧
    Opposed.linear.IsStationary Anchor.order.keys (Anchor.estimate 0).dims ∧
    ∃ o s, start Opposed.graph (Anchor.estimate 0) Anchor.order Backend.solver
        (.sequential Anchor.sequential) Parameters.standard = .ok (o, s) ∧
      ∃ d u, o.iterate.run s = (.ok d, u) ∧ u.iterations = 1 ∧ u.values = Anchor.estimate 0 ∧
        u.cost = s.cost := by
  have hgraph := Opposed.isRegular_graph
  have hstationary := Opposed.isStationary_linear
  have hnodup : (Anchor.estimate 0).keys.Nodup := List.nodup_singleton _
  have horder : Anchor.order.keys.Nodup := List.nodup_singleton _
  have hbackend : Backend.ofElimination .sequential (Anchor.estimate 0) Anchor.order =
      .ok (.sequential Anchor.sequential) := rfl
  obtain ⟨o, s, hstart⟩ : ∃ o s, start Opposed.graph (Anchor.estimate 0) Anchor.order Backend.solver
    (.sequential Anchor.sequential) Parameters.standard = .ok (o, s) := ⟨_, _, rfl⟩
  have hlinear := Opposed.linearize_eq
  obtain ⟨ho, hs⟩ := start_stationary hgraph hnodup horder hbackend hlinear (.refl _) hstationary
    hstart
  obtain ⟨hvalues, hcost, -⟩ := stationary_stays hgraph hnodup horder hbackend hlinear (.refl _)
    hstationary hstart [.iterate] (by simp [Call.IsOwn])
  obtain ⟨-, -, hbegin⟩ := start_eq_ok hstart
  have hsolve : o.solver.solve = Backend.solve := by rw [ho.solver_eq]; rfl
  obtain ⟨d, hd⟩ := Opposed.solve_linear
  have hanswer : (s.memory.solve Opposed.linear).result = .ok d := by rw [hbegin]; exact hd
  have hround : o.graph.linearize s.values = .ok Opposed.linear := by
    rw [hs.values_eq, ho.linearize_eq]
  obtain ⟨u, hrun, htells⟩ := iterate_answered hround (hsolve ▸ hs.exact.accepting _)
    (hsolve ▸ hanswer) (ho.leads hs .gaussNewton hanswer)
  have hafter : o.after s [.iterate] = u := by rw [after, after, perform, run_forget, hrun]
  rw [hafter] at hvalues hcost
  refine ⟨hgraph, hstationary, o, s, hstart, d, u, hrun, ?_, hvalues, hcost⟩
  rw [htells.quiet.iterations_eq, hbegin]

end Optimizer

end LeastSquares
