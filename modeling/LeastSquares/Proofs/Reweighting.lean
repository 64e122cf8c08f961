/-
  LeastSquares/Proofs/Reweighting.lean
  ====================================
  **Steps of an affine graph by an exact backend never make the cost greater.**

  The linear problem misses at the step that solves it no more than at the step that moves nothing, with
  damping or without.  Since the cost lies below the weighted squares, it does not grow; so every
  undamped step descends, and every search accepts the first damping that it tries.
-/
import LeastSquares.Proofs.AffineGraphs
import LeastSquares.Proofs.DampedProblems
import LeastSquares.Proofs.ExactBackends
import LeastSquares.Proofs.SolverAgreement

namespace LeastSquares

open Vec

namespace Optimizer

/-! ### Exact optimizations -/

/-- An optimization of a graph that follows terms with proper losses, by the backends that eliminate, for
    an order that lists its variables. -/
structure Exact (o : Optimizer (Backend ℝ) ℝ) (order : EliminationOrder) (terms : Terms) : Prop where
  solver_eq : o.solver = Backend.solver
  nodup : order.keys.Nodup
  perm : order.keys.Perm o.dims.keys
  follows : o.graph.Follows o.dims terms
  proper : terms.IsProper

/-- A state of such an optimization that has come down so far: its history never grows, and nothing has
    been rejected. -/
structure Descending (o : Optimizer (Backend ℝ) ℝ) (order : EliminationOrder) (terms : Terms)
    (s : OptimizerState (Backend ℝ) ℝ) : Prop where
  sized : s.values.dims = o.dims
  cost_eq : s.cost = terms.cost s.values.assignment
  exact : s.memory.IsExact order o.dims
  chain : s.history.IsChain fun old new => new ≤ old
  last : s.history.getLast? = some s.cost
  accepting : Accepting s.reports

variable {o : Optimizer (Backend ℝ) ℝ} {order : EliminationOrder} {terms : Terms}
  {s t : OptimizerState (Backend ℝ) ℝ} {linear : LinearGraph ℝ} {method : Method}

theorem Descending.tells (h : o.Descending order terms s) (htells : Tells s t) :
    o.Descending order terms t := by
  obtain ⟨more, rfl, hmore⟩ := htells
  exact ⟨h.sized, h.cost_eq, h.exact, h.chain, h.last, h.accepting.append hmore⟩

theorem Descending.asked (h : o.Descending order terms s) (hsolver : o.solver = Backend.solver)
    (problem : LinearGraph ℝ) : o.Descending order terms (o.asked s problem) :=
  ⟨h.sized, h.cost_eq, by rw [Optimizer.asked, hsolver]; exact h.exact.memory problem, h.chain, h.last,
    h.accepting⟩

/-- A step that can be accepted in a state. -/
structure Descent (o : Optimizer (Backend ℝ) ℝ) (terms : Terms) (s : OptimizerState (Backend ℝ) ℝ)
    (step : Values ℝ × ℝ) : Prop where
  sized : step.1.dims = o.dims
  cost_eq : step.2 = terms.cost step.1.assignment
  le : step.2 ≤ s.cost

theorem Descending.stepped (h : o.Descending order terms s) (method : Method)
    (hsolver : o.solver = Backend.solver) {step : Values ℝ × ℝ} (hstep : o.Descent terms s step) :
    o.Descending order terms (o.stepped method s linear step) := by
  refine ⟨hstep.sized, hstep.cost_eq, (h.asked hsolver _).exact, ?_, by simp [Optimizer.stepped, taken],
    h.accepting⟩
  have hchain : (s.history ++ [step.2]).IsChain fun old new => new ≤ old := by
    rw [List.isChain_append]
    refine ⟨h.chain, .singleton _, fun old hold new hnew => ?_⟩
    rw [h.last, Option.mem_some_iff] at hold
    rw [List.head?_cons, Option.mem_some_iff] at hnew
    rw [← hold, ← hnew]
    exact hstep.le
  exact hchain

/-- The problem of a round accords with the order; it misses no less than the linear problem, and as much
    at the step that moves nothing. -/
theorem problem_spec (hnodup : order.keys.Nodup) (hperm : order.keys.Perm o.dims.keys)
    (hfits : ∀ f ∈ linear.factors, f.Fits o.dims) (method : Method) :
    (method.problem o s linear).Accords order.keys o.dims ∧
      (∀ x, linear.misfit x ≤ (method.problem o s linear).misfit x) ∧
      (method.problem o s linear).misfit 0 = linear.misfit 0 := by
  cases method with
  | gaussNewton => exact ⟨LinearGraph.accords_of_fits hnodup hperm hfits, fun x => le_rfl, rfl⟩
  | levenbergMarquardt =>
    have hdims : o.dims.keys.Nodup := hperm.nodup_iff.mp hnodup
    exact ⟨LinearGraph.accords_of_fits hnodup hperm (LinearGraph.fits_damped hdims hfits),
      linear.misfit_le_damped _ _, linear.misfit_damped_zero _ _⟩

/-- **The step that an exact backend returns can be accepted.** -/
theorem Exact.descent (ho : o.Exact order terms) (method : Method) (hs : o.Descending order terms s)
    (hlinear : o.graph.linearize s.values = .ok linear) {d : Delta ℝ}
    (hanswer : (s.memory.solve (method.problem o s linear)).result = .ok d) :
    ∃ step, o.Leads s.values d step ∧ o.Descent terms s step := by
  obtain ⟨_, hsame, -, hfits, hmisfit⟩ := ho.follows.linearize_eq ho.proper hs.sized
  rw [hlinear, Except.ok.injEq] at hsame
  subst hsame
  obtain ⟨haccords, hle, hzero⟩ := problem_spec (s := s) ho.nodup ho.perm hfits method
  have hsolved := hs.exact.isSolvedBy haccords hanswer
  have hvalues : s.values.keys.Nodup := by
    rw [← Values.keys_dims, hs.sized]
    exact ho.perm.nodup_iff.mp ho.nodup
  obtain ⟨w, hretract⟩ := s.values.retract_exists (d := d) (fun key n step hn hstep =>
    (hsolved.lists.sized key step hstep).trans (Table.dimOf_eq (hs.sized ▸ hn))) hvalues
  have hcost := ho.follows.cost_retract hs.sized hretract
  have hsized := (Values.dims_of_retract hretract).trans hs.sized
  refine ⟨(w, terms.cost (s.values.assignment + d.assignment)), ⟨hretract, hcost⟩, hsized, ?_, ?_⟩
  · have hcost' := ho.follows.cost_eq hsized
    rw [hcost, Except.ok.injEq] at hcost'
    exact hcost'
  · have hdecrease : linear.misfit d.assignment ≤ linear.misfit 0 :=
      calc linear.misfit d.assignment ≤ _ := hle _
        _ ≤ _ := hsolved.misfit_le haccords 0
        _ = _ := hzero
    rw [hmisfit, hmisfit, add_zero] at hdecrease
    have hbound := Terms.cost_le ho.proper s.values.assignment (s.values.assignment + d.assignment)
    rw [hs.cost_eq]
    show terms.cost _ ≤ _
    linarith

/-- **What becomes of a round**: it passes on the error of the backend, or accepts the first step that it
    has tried. -/
theorem Exact.round_cases (ho : o.Exact order terms) (hs : o.Descending order terms s)
    (method : Method) :
    ∃ linear, o.graph.linearize s.values = .ok linear ∧
      (∀ e, (s.memory.solve (method.problem o s linear)).result = .error e →
        ∃ t, (o.round method).run s = (.error e, t) ∧
          Tells (o.asked s (method.problem o s linear)) t ∧ o.Descending order terms t) ∧
      ∀ d, (s.memory.solve (method.problem o s linear)).result = .ok d →
        ∃ step t, o.Leads s.values d step ∧ o.Descent terms s step ∧
          (o.round method).run s = (.ok true, t) ∧
          Tells (o.stepped method s linear step) t ∧ o.Descending order terms t := by
  obtain ⟨linear, hlinear, -⟩ := ho.follows.linearize_eq ho.proper hs.sized
  have hsolve : o.solver.solve = Backend.solve := by rw [ho.solver_eq]; rfl
  have hreports : Accepting (o.solver.solve s.memory (method.problem o s linear)).reports := by
    rw [hsolve]
    exact hs.exact.accepting _
  refine ⟨linear, hlinear, fun e he => ?_, fun d hd => ?_⟩
  · obtain ⟨t, hrun, htells⟩ := round_refused hlinear hreports (hsolve ▸ he)
    exact ⟨t, hrun, htells, (hs.asked ho.solver_eq _).tells htells⟩
  · obtain ⟨step, hleads, hdescent⟩ := ho.descent method hs hlinear hd
    have hadmits : method.Admits s.cost step.2 := by
      cases method with
      | gaussNewton => trivial
      | levenbergMarquardt => exact ⟨Scalar.isFinite_real _, hdescent.le⟩
    obtain ⟨t, hrun, htells⟩ := round_answered hlinear hreports (hsolve ▸ hd) hleads hadmits
    exact ⟨step, t, hleads, hdescent, hrun, htells, (hs.stepped method ho.solver_eq hdescent).tells htells⟩

theorem Exact.round_descends (ho : o.Exact order terms) (hs : o.Descending order terms s)
    (method : Method) : o.Descending order terms ((o.round method).run s).2 ∧
      ((o.round method).run s).1 ≠ .ok false := by
  obtain ⟨linear, -, hrefused, hanswered⟩ := ho.round_cases hs method
  cases hresult : (s.memory.solve (method.problem o s linear)).result with
  | error e =>
    obtain ⟨t, hrun, -, ht⟩ := hrefused e hresult
    rw [hrun]
    exact ⟨ht, nofun⟩
  | ok d =>
    obtain ⟨step, t, -, -, hrun, -, ht⟩ := hanswered d hresult
    rw [hrun]
    exact ⟨ht, nofun⟩

/-! ### Calls -/

section Keeping

variable {P : OptimizerState (Backend ℝ) ℝ → Prop}

/-- What reports do not change and rounds that never give up keep, a whole loop keeps, and it does not
    end because the damping has become too great. -/
theorem run_keeps (htells : ∀ s t, P s → Tells s t → P t)
    (hround : ∀ s, P s → P ((o.round method).run s).2 ∧ ((o.round method).run s).1 ≠ .ok false)
    (hs : P s) : P ((method.run o).run s).2 ∧
      ∀ result, ((method.run o).run s).1 = .ok result → result.termination ≠ .lambdaUpperBound := by
  have hopened : P (o.opened method s) := htells _ _ hs (o.opened_tells method s)
  rw [run_method]
  split
  · exact ⟨hopened, fun result h => by cases h; exact nofun⟩
  · refine loop_keeps hround (fun s old hs => ?_) _ hopened
    obtain ⟨t, hrun, hmore⟩ := o.settled_tells old s
    rw [hrun]
    exact htells _ _ hs hmore

/-- A call for an iteration or a loop. -/
def Call.IsOwn : Call ℝ → Prop
  | .tryLambda _ => False
  | _ => True

/-- What the rounds of both loops keep, any iterations and loops keep. -/
theorem after_keeps (htells : ∀ s t, P s → Tells s t → P t)
    (hround : ∀ method s, P s →
      P ((o.round method).run s).2 ∧ ((o.round method).run s).1 ≠ .ok false)
    {calls : List (Call ℝ)} (hcalls : ∀ call ∈ calls, call.IsOwn) (hs : P s) :
    P (o.after s calls) := by
  induction calls generalizing s with
  | nil => exact hs
  | cons call calls ih =>
    obtain ⟨hcall, hcalls⟩ := List.forall_mem_cons.mp hcalls
    refine ih hcalls ?_
    cases call with
    | tryLambda linear => exact hcall.elim
    | optimize method =>
      rw [perform, run_forget]
      exact (run_keeps htells (hround method) hs).1
    | iterate =>
      -- an iteration is an undamped round, which has no other way to end than to accept or to fail
      have hsame : ((o.round .gaussNewton).run s).2 = (o.iterate.run s).2 := by
        rw [round, run_bind]
        rcases o.iterate.run s with ⟨_ | _, t⟩ <;> rfl
      rw [perform, run_forget, ← hsame]
      exact (hround .gaussNewton s hs).1

end Keeping

/-- **Whole loops descend**, and do not end because the damping has become too great. -/
theorem Exact.run_descends (ho : o.Exact order terms) (hs : o.Descending order terms s)
    (method : Method) : o.Descending order terms ((method.run o).run s).2 ∧
      ∀ result, ((method.run o).run s).1 = .ok result → result.termination ≠ .lambdaUpperBound :=
  run_keeps (P := o.Descending order terms) (fun _ _ hs => hs.tells)
    (fun _ hs => ho.round_descends hs method) hs

theorem Exact.after_descends (ho : o.Exact order terms) {calls : List (Call ℝ)}
    (hcalls : ∀ call ∈ calls, call.IsOwn) (hs : o.Descending order terms s) :
    o.Descending order terms (o.after s calls) :=
  after_keeps (P := o.Descending order terms) (fun _ _ hs => hs.tells)
    (fun method _ hs => ho.round_descends hs method) hcalls hs

/-! ### A number that is held loosely at zero -/

end Optimizer

namespace Anchor

open Elimination

/-- The graph whose one factor grows only linearly beyond a half. -/
noncomputable def loose : Graph ℝ := ⟨[{ factor with noise := some ⟨[1], .huber 0.5⟩ }]⟩

theorem isAffine_loose : loose.IsAffine (estimate 1).dims :=
  List.forall_mem_singleton.mpr ⟨_, _, Measurement.affineAs_prior rfl⟩

theorem hasProperLosses_loose : loose.HasProperLosses := by
  refine List.forall_mem_singleton.mpr fun noise hnoise => ?_
  cases hnoise
  norm_num [Loss.IsProper]

theorem linearize_loose :
    loose.linearize (estimate 1) = .ok ⟨[equation (.number 0) (Real.sqrt 0.5) (-Real.sqrt 0.5)]⟩ := by
  have hnorm : Vec.norm ([(1 - 0) / 1] : Vec ℝ) = 1 := by
    norm_num [Vec.norm, Vec.normSq_real, Vec.squares_cons, Vec.squares_nil, Scalar.sqrt_real]
  have hweight : (Loss.huber 0.5).weight (Vec.norm ([(1 - 0) / 1] : Vec ℝ)) = 0.5 := by
    rw [hnorm, Loss.weight_huber (by norm_num) zero_le_one]
    norm_num
  have hequation : loose.linearize (estimate 1) = .ok ⟨[equation (.number 0)
      (Real.sqrt ((Loss.huber 0.5).weight (Vec.norm [(1 - 0) / 1])) * (1 / 1))
      (Real.sqrt ((Loss.huber 0.5).weight (Vec.norm [(1 - 0) / 1])) * -((1 - 0) / 1))]⟩ := rfl
  rw [hequation, hweight]
  norm_num

theorem sequential_solve_loose : (sequential.solve
    ⟨[equation (.number 0) (Real.sqrt 0.5) (-Real.sqrt 0.5)]⟩).result = .ok step := by
  have hpos : (0 : ℝ) < Real.sqrt 0.5 := Real.sqrt_pos.mpr (by norm_num)
  have hle : Real.sqrt 0.5 ≤ 1 := Real.sqrt_le_one.mpr (by norm_num)
  have hlarge : (1e-9 : ℝ) < Real.sqrt 0.5 := Real.lt_sqrt_of_sq_lt (by norm_num)
  have hanswer := sequential_answers none (a := Real.sqrt 0.5) (b := -Real.sqrt 0.5) (by
    rw [abs_neg, max_self, abs_of_pos hpos, max_eq_left hle, mul_one]
    exact hlarge)
  rwa [neg_div, div_self hpos.ne'] at hanswer

end Anchor

namespace Optimizer

/-! ### From the beginning -/

variable {graph : Graph ℝ} {values : Values ℝ} {kind : SolverKind} {backend : Backend ℝ}
  {parameters : Parameters ℝ}

/-- An optimization of an affine graph by a new backend starts out descending. -/
theorem start_exact (hkeys : values.keys.Nodup) (horder : order.keys.Nodup)
    (hbackend : Backend.ofElimination kind values order = .ok backend)
    (haffine : graph.IsAffine values.dims) (hlosses : graph.HasProperLosses)
    (hstart : start graph values order Backend.solver backend parameters = .ok (o, s)) :
    ∃ terms, o.Exact order terms ∧ o.Descending order terms s := by
  obtain ⟨rfl, hcost, hs⟩ := start_eq_ok hstart
  obtain ⟨hexact, hvalid⟩ := Backend.isExact_ofElimination hbackend
  obtain ⟨terms, hfollows⟩ := haffine.follows rfl hcost
  have hperm : order.keys.Perm values.dims.keys := by
    rw [Values.keys_dims]
    exact EliminationOrder.perm_of_validate hvalid horder hkeys
  refine ⟨terms, ⟨rfl, horder, hperm, hfollows, hlosses.isProper hfollows⟩, ?_⟩
  rw [hfollows.cost_eq rfl, Except.ok.injEq] at hcost
  rw [hs]
  exact ⟨rfl, hcost.symm, hexact, .singleton _, rfl, by simp [Accepting]⟩

/-- **Reweighted steps never make the cost greater.**  Let the factors of a graph be affine with their exact
    derivatives, with any mix of proper losses, and let a backend that eliminates solve the linear
    problems.  After any iterations and loops, whether they have returned or failed, the history never
    grows and no step has been rejected; what a loop returns has such a history, and no loop ends with a
    damping that has passed its bound.  Wherever the backend has a step for the linearized problem, the
    iteration accepts it; wherever it has one for the problem with the first damping, the search accepts
    that damping. -/
theorem affine_descends (hkeys : values.keys.Nodup) (horder : order.keys.Nodup)
    (hbackend : Backend.ofElimination kind values order = .ok backend)
    (haffine : graph.IsAffine values.dims) (hlosses : graph.HasProperLosses)
    (hstart : start graph values order Backend.solver backend parameters = .ok (o, s))
    (calls : List (Call ℝ)) (hcalls : ∀ call ∈ calls, call.IsOwn) :
    let t := o.after s calls
    t.history.IsChain (fun old new => new ≤ old) ∧
    Accepting t.reports ∧
    (∀ method result, ((Method.run method o).run t).1 = .ok result →
      result.history.IsChain (fun old new => new ≤ old) ∧ result.termination ≠ .lambdaUpperBound) ∧
    ∃ linear, graph.linearize t.values = .ok linear ∧
      (∀ d, (t.memory.solve linear).result = .ok d → ∃ u, o.iterate.run t = (.ok d, u) ∧
        u.history = t.history ++ [u.cost] ∧ u.cost ≤ t.cost) ∧
      ∀ d, (t.memory.solve (linear.damped t.damping values.dims)).result = .ok d →
        ∃ u, (o.tryLambda linear).run t = (.ok true, u) ∧ u.history = t.history ++ [u.cost] ∧
          u.cost ≤ t.cost ∧ u.damping = dampingAfter parameters t.damping := by
  intro t
  obtain ⟨terms, ho, hs⟩ := start_exact hkeys horder hbackend haffine hlosses hstart
  have ht : o.Descending order terms t := ho.after_descends hcalls hs
  obtain ⟨rfl, -, -⟩ := start_eq_ok hstart
  obtain ⟨linear, hlinear, -⟩ := ho.follows.linearize_eq ho.proper ht.sized
  refine ⟨ht.chain, ht.accepting, fun method result hresult => ?_, linear, hlinear, fun d hd => ?_,
    fun d hd => ?_⟩
  · obtain ⟨hend, hnot⟩ := ho.run_descends ht method
    exact ⟨by rw [(run_finished hresult).outcome_eq]; exact hend.chain, hnot result hresult⟩
  · obtain ⟨step, hleads, hdescent⟩ := ho.descent .gaussNewton ht hlinear hd
    obtain ⟨u, hrun, htells⟩ := iterate_answered hlinear (ht.exact.accepting _) hd hleads
    have hcost : u.cost = step.2 := htells.quiet.cost_eq
    exact ⟨u, hrun, by rw [htells.history_eq, hcost]; rfl, hcost ▸ hdescent.le⟩
  · obtain ⟨step, hleads, hdescent⟩ := ho.descent .levenbergMarquardt ht hlinear hd
    obtain ⟨u, hrun, htells⟩ := tryLambda_answered (ht.exact.accepting _) hd hleads
      (Scalar.isFinite_real _) hdescent.le
    have hcost : u.cost = step.2 := htells.quiet.cost_eq
    exact ⟨u, hrun, by rw [htells.history_eq, hcost]; rfl, hcost ▸ hdescent.le, htells.quiet.damping_eq⟩

/-- From one, an iteration brings the number to zero. -/
theorem affine_descends_loose :
    Anchor.loose.IsAffine (Anchor.estimate 1).dims ∧ Anchor.loose.HasProperLosses ∧
    ∃ o s, start Anchor.loose (Anchor.estimate 1) Anchor.order Backend.solver
        (.sequential Anchor.sequential) Parameters.standard = .ok (o, s) ∧
      ∃ u, o.iterate.run s = (.ok Anchor.step, u) ∧ u.history = [s.cost, u.cost] ∧ u.cost ≤ s.cost := by
  have haffine := Anchor.isAffine_loose
  have hlosses := Anchor.hasProperLosses_loose
  have hkeys : (Anchor.estimate 1).keys.Nodup := List.nodup_singleton _
  have horder : Anchor.order.keys.Nodup := List.nodup_singleton _
  obtain ⟨o, s, hstart⟩ : ∃ o s, start Anchor.loose (Anchor.estimate 1) Anchor.order Backend.solver
    (.sequential Anchor.sequential) Parameters.standard = .ok (o, s) := ⟨_, _, rfl⟩
  have hbackend : Backend.ofElimination .sequential (Anchor.estimate 1) Anchor.order =
      .ok (.sequential Anchor.sequential) := rfl
  obtain ⟨-, -, -, linear, hlinear, hiterate, -⟩ :=
    affine_descends hkeys horder hbackend haffine hlosses hstart [] (by simp)
  obtain ⟨-, -, hs⟩ := start_eq_ok hstart
  have hanswer : (s.memory.solve linear).result = .ok Anchor.step := by
    rw [after] at hlinear
    rw [hs, Anchor.linearize_loose, Except.ok.injEq] at hlinear
    rw [hs, ← hlinear]
    exact Anchor.sequential_solve_loose
  obtain ⟨u, hrun, hhistory, hle⟩ := hiterate _ hanswer
  refine ⟨haffine, hlosses, o, s, hstart, u, hrun, ?_, hle⟩
  rw [hhistory, after, hs]
  rfl

end Optimizer

end LeastSquares
