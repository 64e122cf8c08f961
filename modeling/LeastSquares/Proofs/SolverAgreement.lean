/-
  LeastSquares/Proofs/SolverAgreement.lean
  ========================================
  **The way of elimination does not matter to what an optimization comes to.**

  An order is computed, a solver is made for it, and the loop is run.  With either way of elimination the
  loop starts in level states, so it runs in lockstep.
-/
import LeastSquares.Proofs.ComputedOrder
import LeastSquares.Proofs.Descent
import LeastSquares.Proofs.ExactBackends
import LeastSquares.Proofs.Solvability

namespace LeastSquares

namespace Optimize

variable {graph : Graph ℝ} {values : Values ℝ} {parameters : Parameters ℝ} {method : Method}

/-- What an optimization that returns consists of. -/
theorem withSolver_eq_ok {kind : SolverKind} {r : OptimizerResult ℝ}
    (h : (withSolver kind graph values parameters method).1 = .ok r) :
    ∃ backend order o s, backendFor kind graph values parameters = .ok (backend, order) ∧
      Optimizer.start graph values order Backend.solver backend parameters = .ok (o, s) ∧
      ((method.run o).run s).1 = .ok r ∧
      progressOf (withSolver kind graph values parameters method).2 =
        progressOf [⟨.debug, .orderComputed EliminationOrder.defaultMethod order.size⟩] ++
          progressOf ((method.run o).run s).2.reports ++
          progressOf [⟨.info, .optimizationFinished r.iterations r.termination.name r.cost⟩] := by
  cases hbackend : backendFor kind graph values parameters with
  | error e =>
    simp only [withSolver, hbackend] at h
    cases h
  | ok found =>
    obtain ⟨backend, order⟩ := found
    cases hstart : Optimizer.start graph values order Backend.solver backend parameters with
    | error e =>
      simp only [withSolver, hbackend, hstart] at h
      cases h
    | ok started =>
      obtain ⟨o, s⟩ := started
      simp only [withSolver, hbackend, hstart] at h ⊢
      refine ⟨backend, order, o, s, rfl, hstart, h, ?_⟩
      rcases hrun : (method.run o).run s with ⟨e | r', t⟩
      · simp only [hrun] at h
        cases h
      · simp only [hrun] at h
        cases h
        simp only [progressOf_append]
        rfl

theorem backendFor_eq_ok {kind : SolverKind} (hkind : kind ≠ .subgraph) {backend : Backend ℝ}
    {order : EliminationOrder} (h : backendFor kind graph values parameters = .ok (backend, order)) :
    EliminationOrder.compute graph values EliminationOrder.defaultMethod = .ok order ∧
      Backend.ofElimination kind values order = .ok backend := by
  cases kind with
  | subgraph => exact (hkind rfl).elim
  | sequential | multifrontal =>
    obtain ⟨order, horder, h⟩ := bind_eq_ok.mp h
    obtain ⟨backend, hbackend, h⟩ := bind_eq_ok.mp h
    cases h
    exact ⟨horder, hbackend⟩

theorem withSolver_agrees (hgraph : graph.IsRegular) {r r' : OptimizerResult ℝ}
    (h : (withSolver .sequential graph values parameters method).1 = .ok r)
    (h' : (withSolver .multifrontal graph values parameters method).1 = .ok r') :
    r' = r ∧ progressOf (withSolver .multifrontal graph values parameters method).2 =
      progressOf (withSolver .sequential graph values parameters method).2 := by
  obtain ⟨backend, order, o, s, hbackend, hstart, hrun, hreports⟩ := withSolver_eq_ok h
  obtain ⟨backend', order', o', s', hbackend', hstart', hrun', hreports'⟩ := withSolver_eq_ok h'
  obtain ⟨horder, hsolver⟩ := backendFor_eq_ok (by decide) hbackend
  obtain ⟨horder', hsolver'⟩ := backendFor_eq_ok (by decide) hbackend'
  obtain ⟨_, hmake, rfl⟩ := map_eq_ok.mp hsolver
  obtain ⟨_, hmake', rfl⟩ := map_eq_ok.mp hsolver'
  obtain ⟨⟨⟩, -, hfresh⟩ := bind_eq_ok.mp hmake
  obtain ⟨⟨⟩, -, hfresh'⟩ := bind_eq_ok.mp hmake'
  cases hfresh
  cases hfresh'
  -- the order does not depend on the solver, so both start for the same one
  rw [horder, Except.ok.injEq] at horder'
  subst horder'
  obtain ⟨rfl, hcost, hs⟩ := Optimizer.start_eq_ok hstart
  obtain ⟨rfl, hcost', hs'⟩ := Optimizer.start_eq_ok hstart'
  rw [hcost, Except.ok.injEq] at hcost'
  obtain ⟨hnodup, hperm⟩ := EliminationOrder.compute_perm horder
  have heliminates : Optimizer.Eliminates ⟨graph, Backend.solver, parameters, values.dims⟩ order :=
    ⟨rfl, hgraph, hnodup, by rwa [Values.dims, Table.keys_mapEntries]⟩
  have hlevel : Optimizer.Level ⟨graph, Backend.solver, parameters, values.dims⟩ order s s' := by
    rw [hs, hs', hcost']
    exact ⟨rfl, rfl, ⟨none, rfl⟩, ⟨_, rfl, .fresh⟩, rfl⟩
  obtain ⟨rfl, -, hend⟩ := Optimizer.together_method heliminates method hlevel r r' hrun hrun'
  refine ⟨rfl, ?_⟩
  rw [hreports, hreports', hend.progress]

end Optimize

/-! ### Two numbers, by elimination -/

namespace TwoNumbers

open Optimizer Elimination

/-- The second number is to be as great as the first, and it is to be one. -/
noncomputable def graph : Graph ℝ :=
  ⟨[⟨.between (.number 0) (.number 1) (.ofVector [0]), some ⟨[1], .none⟩, some "gap"⟩,
    ⟨.prior (.number 1) (.ofVector [1]), some ⟨[1], .none⟩, some "second"⟩]⟩

def estimate (x y : ℝ) : Values ℝ := ⟨[(.number 0, [x]), (.number 1, [y])]⟩

theorem isRegular_graph : graph.IsRegular :=
  List.forall_mem_cons.mpr ⟨⟨by decide, Tensor.isRegular_ofVector _⟩,
    List.forall_mem_singleton.mpr (Measurement.isRegular_prior _ _)⟩

theorem linearize_estimate : graph.linearize (estimate 0 0) = .ok (problem 0 1) := by
  have hequations : graph.linearize (estimate 0 0) =
      .ok ⟨[.dense [(.number 0, ⟨1, [[-1 / 1]]⟩), (.number 1, ⟨1, [[1 / 1]]⟩)] [-((0 - 0 - 0) / 1)],
        equation (.number 1) (1 / 1) (-((0 - 1) / 1))]⟩ := rfl
  rw [hequations, problem, gap]
  norm_num

theorem graph_cost (x y : ℝ) :
    graph.cost (estimate x y) = .ok ((y - x) ^ 2 / 2 + (y - 1) ^ 2 / 2) := by
  have hkeys : graph.checkKeys (estimate x y) = .ok () := rfl
  have hcosts : graph.factors.mapM (fun f => f.cost (estimate x y).entries) =
      .ok [(⟨[1], .none⟩ : Noise ℝ).cost (.ofVector [(y - x - 0) / 1]),
        (⟨[1], .none⟩ : Noise ℝ).cost (.ofVector [(y - 1) / 1])] := rfl
  simp only [Graph.cost, hkeys, hcosts, bind, Except.bind, Noise.cost_single, Vec.sum_real, pure, Except.pure,
    sub_zero, div_one, List.sum_cons, List.sum_nil, add_zero]

/-- The step to one. -/
def step : Delta ℝ := ⟨[(.number 0, [1]), (.number 1, [1])]⟩

noncomputable def optimizer : Optimizer (Backend ℝ) ℝ :=
  ⟨graph, Backend.solver, Parameters.standard, (estimate 0 0).dims⟩

theorem leads_step : optimizer.Leads (estimate 0 0) step (estimate 1 1, 0) := by
  constructor
  · have hmoved : (estimate 0 0).retract step =
        .ok ⟨[(.number 0, [0 + 1]), (.number 1, [0 + 1])]⟩ := rfl
    rw [hmoved, zero_add]
    rfl
  · have hcost := graph_cost 1 1
    norm_num at hcost
    exact hcost

/-- Both solvers return the step. -/
theorem solve_step : (SequentialSolver.solve ⟨inTurn, sizes, none⟩ (problem 0 1)).result = .ok step ∧
    (fresh.solve (problem 0 1)).result = .ok step := by
  have hboth := solve_problem (b := 0) (c := 1) (by norm_num)
  rwa [sub_zero] at hboth

/-- The result of an optimization that is converged after one iteration. -/
noncomputable def settled : OptimizerResult ℝ :=
  ⟨estimate 1 1, 0, 1, Parameters.standard.lambdaInitial, true, .converged, [0.5, 0]⟩

theorem withSolver_eq {kind : SolverKind} {backend : Backend ℝ}
    (hbackend : Optimize.backendFor kind graph (estimate 0 0) Parameters.standard = .ok (backend, inTurn))
    (hexact : backend.IsExact inTurn sizes) (hanswer : (backend.solve (problem 0 1)).result = .ok step) :
    (Optimize.withSolver kind graph (estimate 0 0) Parameters.standard .gaussNewton).1 = .ok settled := by
  let s : OptimizerState (Backend ℝ) ℝ :=
    ⟨estimate 0 0, 0.5, Parameters.standard.lambdaInitial, 0, [0.5], backend, []⟩
  have hstart : start graph (estimate 0 0) inTurn Backend.solver backend Parameters.standard =
      .ok (optimizer, s) := by
    have hkeys : graph.checkKeys (estimate 0 0) = .ok () := rfl
    have horder : inTurn.validate (estimate 0 0).keys = .ok () := rfl
    have hcost : graph.cost (estimate 0 0) = .ok 0.5 := by
      rw [graph_cost]
      norm_num
    simp only [start, hkeys, horder, hcost, bind, Except.bind, pure, Except.pure]
    rfl
  have hnot : ¬ s.cost ≤ optimizer.parameters.sumError := by
    norm_num [s, optimizer, Parameters.standard]
  obtain ⟨t, hround, more, rfl, -⟩ : ∃ t,
      (optimizer.round .gaussNewton).run (optimizer.opened .gaussNewton s) = (.ok true, t) ∧
        Tells (optimizer.stepped .gaussNewton (optimizer.opened .gaussNewton s) (problem 0 1)
          (estimate 1 1, 0)) t :=
    round_answered linearize_estimate (hexact.accepting _) hanswer leads_step trivial
  simp only [Optimize.withSolver, hbackend, hstart]
  exact run_of_first_round .gaussNewton hnot (show 0 < 100 by decide) hround le_rfl

end TwoNumbers

namespace Optimize

variable {graph : Graph ℝ} {values : Values ℝ}

/-- **Both ways of elimination lead to the same result**, for every graph whose arrays are regular and
    whose factors are about different variables, as every graph is that is made of factors or described,
    and for every estimate, setting and loop: where both return, they return the same estimate with the
    same costs on the way, the same number of rounds, the same damping and the same termination, and they
    have tried the same dampings.  All they report on the way is the same too, but for what the solvers
    say about themselves. -/
theorem multifrontal_agrees {number : ℝ → String} (hgraph : graph.IsRegular)
    {parameters : Option (Parameters ℝ)} {method : Given ℝ} {r r' : OptimizerResult ℝ}
    (h : (sequential number graph values parameters method).1 = .ok r)
    (h' : (multifrontal number graph values parameters method).1 = .ok r') :
    r' = r ∧
    dampingsOf (multifrontal number graph values parameters method).2 =
      dampingsOf (sequential number graph values parameters method).2 ∧
    progressOf (multifrontal number graph values parameters method).2 =
      progressOf (sequential number graph values parameters method).2 := by
  cases hmethod : Method.choose number method with
  | error e =>
    simp only [sequential, withChosenMethod, hmethod] at h
    cases h
  | ok chosen =>
    simp only [sequential, multifrontal, withChosenMethod, hmethod] at h h' ⊢
    obtain ⟨hresult, hprogress⟩ := withSolver_agrees hgraph h h'
    refine ⟨hresult, ?_, hprogress⟩
    rw [← dampingsOf_progressOf, hprogress, dampingsOf_progressOf]

/-- With either solver the two numbers are brought to one by one undamped iteration. -/
theorem multifrontal_agrees_together :
    let byNet := sequential (fun _ => "") TwoNumbers.graph (TwoNumbers.estimate 0 0) none
      (.text "gauss_newton")
    let byTree := multifrontal (fun _ => "") TwoNumbers.graph (TwoNumbers.estimate 0 0) none
      (.text "gauss_newton")
    TwoNumbers.graph.IsRegular ∧ byNet.1 = .ok TwoNumbers.settled ∧ byTree.1 = .ok TwoNumbers.settled ∧
      dampingsOf byTree.2 = dampingsOf byNet.2 ∧ progressOf byTree.2 = progressOf byNet.2 := by
  intro byNet byTree
  obtain ⟨hsolve, hsolve'⟩ := TwoNumbers.solve_step
  have hbackend : backendFor .sequential TwoNumbers.graph (TwoNumbers.estimate 0 0) Parameters.standard =
      .ok (.sequential ⟨TwoNumbers.inTurn, TwoNumbers.sizes, none⟩, TwoNumbers.inTurn) := rfl
  have hbackend' : backendFor .multifrontal TwoNumbers.graph (TwoNumbers.estimate 0 0)
      Parameters.standard = .ok (.multifrontal TwoNumbers.fresh, TwoNumbers.inTurn) := rfl
  have hnet : byNet.1 = .ok TwoNumbers.settled := TwoNumbers.withSolver_eq hbackend ⟨rfl, rfl⟩ hsolve
  have htree : byTree.1 = .ok TwoNumbers.settled :=
    TwoNumbers.withSolver_eq hbackend' TwoNumbers.fresh_reachable hsolve'
  obtain ⟨-, hdampings, hprogress⟩ := multifrontal_agrees TwoNumbers.isRegular_graph hnet htree
  exact ⟨TwoNumbers.isRegular_graph, hnet, htree, hdampings, hprogress⟩

end Optimize

/-! ### The held number, by elimination -/

namespace Anchor

open Optimizer Elimination

/-- What the graph becomes around one. -/
noncomputable def linear : LinearGraph ℝ := ⟨[equation (.number 0) 1 (-1)]⟩

theorem linearize_estimate (x : ℝ) :
    graph.linearize (estimate x) = .ok ⟨[equation (.number 0) 1 (-x)]⟩ := by
  have hequation : graph.linearize (estimate x) =
      .ok ⟨[equation (.number 0) (1 / 1) (-((x - 0) / 1))]⟩ := rfl
  rw [hequation]
  norm_num

theorem linearize_eq : graph.linearize (estimate 1) = .ok linear := linearize_estimate 1

/-- The step to zero. -/
def step : Delta ℝ := ⟨[(.number 0, [-1])]⟩

def sequential : SequentialSolver ℝ := ⟨order, (estimate 1).dims, none⟩

theorem sequential_answers (net : Option (BayesNet ℝ)) {a b : ℝ}
    (h : 1e-9 * max 1 (max |a| |b|) < |a|) :
    (SequentialSolver.solve ⟨order, (estimate 1).dims, net⟩ ⟨[equation (.number 0) a b]⟩).result =
      .ok ⟨[(.number 0, [b / a])]⟩ := by
  let row : Conditional ℝ := ⟨[.number 0], [], (estimate 1).dims, ⟨1, [[a]]⟩, ⟨0, [[]]⟩, [b]⟩
  have hassign : BayesNet.assign order.positions ⟨[equation (.number 0) a b]⟩ =
      .ok [(.number 0, equation (.number 0) a b)] := rfl
  have heliminate : eliminate [equation (.number 0) a b] [.number 0] (estimate 1).dims order.positions =
      .ok (row, none) := eliminate_equation rfl order.positions h
  have hall : BayesNet.eliminateAll (estimate 1).dims order.positions order.keys
      [(.number 0, equation (.number 0) a b)] = .ok [row] :=
    (BayesNet.eliminateAll_cons order.positions (.number 0) [] _).trans
      (bind_eq_ok.mpr ⟨_, heliminate, rfl⟩)
  have hnet : BayesNet.eliminate order (estimate 1).dims ⟨[equation (.number 0) a b]⟩ = .ok ⟨[row]⟩ :=
    bind_eq_ok.mpr ⟨_, hassign, bind_eq_ok.mpr ⟨_, hall, rfl⟩⟩
  have hoptimize : BayesNet.optimize ⟨[row]⟩ = .ok ⟨[(.number 0, [b / a])]⟩ :=
    bind_eq_ok.mpr ⟨_, Conditional.solve_equation (.number 0) a b, rfl⟩
  simp only [SequentialSolver.solve, hnet, hoptimize]
  rfl

theorem sequential_solve : (sequential.solve linear).result = .ok step := by
  have hanswer := sequential_answers none (a := 1) (b := -1) (by norm_num)
  rwa [div_one] at hanswer

/-! One undamped iteration, with either solver. -/

noncomputable def eliminating : Optimizer (Backend ℝ) ℝ :=
  ⟨graph, Backend.solver, Parameters.standard, (estimate 1).dims⟩

noncomputable def begun (memory : Backend ℝ) (reports : List (Report ℝ)) :
    OptimizerState (Backend ℝ) ℝ :=
  ⟨estimate 1, 0.5, Parameters.standard.lambdaInitial, 0, [0.5], memory, reports⟩

theorem start_begun (memory : Backend ℝ) :
    start graph (estimate 1) order Backend.solver memory Parameters.standard
      = .ok (eliminating, begun memory []) := start_estimate Backend.solver memory _

theorem moved_step (memory : Backend ℝ) (reports : List (Report ℝ)) :
    (eliminating.moved step).run (begun memory reports) = (.ok (estimate 0, 0), begun memory reports) := by
  obtain ⟨cost, hcost, hrun⟩ : ∃ cost, graph.cost ⟨[(.number 0, [1 + -1])]⟩ = .ok cost ∧
      (eliminating.moved step).run (begun memory reports) =
        (.ok (⟨[(.number 0, [1 + -1])]⟩, cost), begun memory reports) := ⟨_, rfl, rfl⟩
  rw [moved_eq, graph_cost] at hcost
  cases hcost
  rw [hrun, moved_eq]
  norm_num

variable {memory : Backend ℝ}

theorem iterate_eq (h : (memory.solve linear).result = .ok step) (reports : List (Report ℝ)) :
    ∃ later, eliminating.iterate.run (begun memory reports) =
      (.ok step, ⟨estimate 0, 0, Parameters.standard.lambdaInitial, 1, [0.5, 0],
        (memory.solve linear).memory, later⟩) := by
  have hlinearize : eliminating.linearize.run (begun memory reports) =
      (graph.linearize (estimate 1), begun memory reports) := rfl
  rw [linearize_eq] at hlinearize
  obtain ⟨asked, hask⟩ : ∃ asked, (eliminating.askSolver linear).run (begun memory reports) =
      ((memory.solve linear).result, begun (memory.solve linear).memory asked) := ⟨_, rfl⟩
  rw [h] at hask
  obtain ⟨told, htold⟩ : ∃ told, (eliminating.report .delta (.stepTaken step.norm)).run
      (begun (memory.solve linear).memory asked) =
        (.ok (), begun (memory.solve linear).memory told) := ⟨_, rfl⟩
  simp only [iterate, run_bind, hlinearize, hask, htold, moved_step]
  exact ⟨_, rfl⟩

end Anchor

end LeastSquares
