/-
  LeastSquares/Proofs/OptimizerRecord.lean
  ========================================
  **The record of an optimization that is called in any way.**

  An optimization can be asked for single iterations, for single searches and for whole loops, in any order,
  and a call that fails leaves it to be called again.  Whatever the solver answers, the record is made of
  the steps that have been accepted: those of the iterations that returned and of the searches that
  found a damping, by themselves or within a loop.
-/
import LeastSquares.Proofs.OptimizerLoops
import LeastSquares.Proofs.Reals
import LeastSquares.Proofs.Steps

namespace LeastSquares

/-- What a loop reports first. -/
def Method.opening {σ α : Type} : Method → OptimizerState σ α → Event α
  | gaussNewton, s => .undampedStart s.cost
  | levenbergMarquardt, s => .dampedStart s.cost s.damping

namespace Optimizer

variable {σ α : Type}

/-! ### Whole loops -/

/-- The state in which a loop starts its rounds. -/
def opened (o : Optimizer σ α) (method : Method) (s : OptimizerState σ α) : OptimizerState σ α :=
  ((o.report .error (method.opening s)).run s).2

theorem opened_quiet (o : Optimizer σ α) (method : Method) (s : OptimizerState σ α) :
    Quiet s (o.opened method s) := rfl

variable [Scalar α]

theorem run_method (o : Optimizer σ α) (method : Method) (s : OptimizerState σ α) :
    (method.run o).run s = if s.cost ≤ o.parameters.sumError
      then (.ok (outcome (o.opened method s) true .sumError), o.opened method s)
      else (o.loop method o.parameters.maxIterations).run (o.opened method s) := by
  have hreport : (o.report .error (method.opening s)).run s = (.ok (), o.opened method s) := rfl
  cases method with
  | gaussNewton =>
    simp only [Method.opening] at hreport
    simp only [Method.run, gaussNewton, run_bind, run_get, hreport]
    split <;> rfl
  | levenbergMarquardt =>
    simp only [Method.opening] at hreport
    simp only [Method.run, levenbergMarquardt, run_bind, run_get, hreport]
    split <;> rfl

/-! ### Calls -/

/-- What an optimization can be asked for. -/
inductive Call (α : Type) where
  | iterate
  | tryLambda (linear : LinearGraph α)
  | optimize (method : Method)

/-- Answer a call. -/
def perform (o : Optimizer σ α) : Call α → Run σ α Unit
  | .iterate => do
    let _ ← o.iterate
    return ()
  | .tryLambda linear => do
    let _ ← o.tryLambda linear
    return ()
  | .optimize method => do
    let _ ← method.run o
    return ()

omit [Scalar α] in
theorem run_forget {β : Type} (x : Run σ α β) (s : OptimizerState σ α) :
    ((do let _ ← x; return () : Run σ α Unit).run s).2 = (x.run s).2 := by
  rw [run_bind]
  rcases x.run s with ⟨_ | _, t⟩ <;> rfl

/-- The steps that a call accepts. -/
def acceptedBy (o : Optimizer σ α) (s : OptimizerState σ α) : Call α → List (Values α × α)
  | .iterate =>
    match o.iterate.run s with
    | (.ok _, t) => [(t.values, t.cost)]
    | _ => []
  | .tryLambda linear =>
    match (o.tryLambda linear).run s with
    | (.ok true, t) => [(t.values, t.cost)]
    | _ => []
  | .optimize method =>
    if s.cost ≤ o.parameters.sumError then []
    else o.acceptedSteps method o.parameters.maxIterations (o.opened method s)

/-- The state after several calls, each of which goes on from where the one before has stopped, whether
    it has returned or failed. -/
def after (o : Optimizer σ α) (s : OptimizerState σ α) : List (Call α) → OptimizerState σ α
  | [] => s
  | call :: calls => after o ((o.perform call).run s).2 calls

/-- The steps that several calls accept. -/
def accepted (o : Optimizer σ α) (s : OptimizerState σ α) : List (Call α) → List (Values α × α)
  | [] => []
  | call :: calls => o.acceptedBy s call ++ accepted o ((o.perform call).run s).2 calls

/-! ### What calls keep -/

/-- An estimate of given sizes stands with its cost. -/
structure Stands (o : Optimizer σ α) (dims : Table ℕ) (step : Values α × α) : Prop where
  dims_eq : step.1.dims = dims
  cost_eq : o.graph.cost step.1 = .ok step.2

theorem Reaches.stands {o : Optimizer σ α} {values : Values α} {step : Values α × α}
    (h : o.Reaches values step) : o.Stands values.dims step := by
  obtain ⟨delta, hdelta⟩ := h.moved
  exact ⟨Values.dims_of_retract hdelta, h.cost⟩

theorem Advances.stands {o : Optimizer σ α} {dims : Table ℕ} {s t : OptimizerState σ α}
    {steps : List (Values α × α)} (h : Advances s t steps) (hs : o.Stands dims (s.values, s.cost))
    (hsteps : ∀ step ∈ steps, o.Stands dims step) : o.Stands dims (t.values, t.cost) := by
  rw [h.current]
  have hlast : steps.getLastD (s.values, s.cost) ∈ (s.values, s.cost) :: steps :=
    List.getLastD_mem_cons
  rcases List.mem_cons.mp hlast with hlast | hlast
  · rwa [hlast]
  · exact hsteps _ hlast

variable {o : Optimizer σ α}

theorem LoopRun.stands {method : Method} {left : ℕ} {s : OptimizerState σ α}
    {steps : List (Values α × α)} {r : Except Error (OptimizerResult α) × OptimizerState σ α}
    (h : o.LoopRun method left s steps r) : ∀ step ∈ steps, o.Stands s.values.dims step := by
  induction h with
  | spent s => simp
  | failed e _ => simp
  | exhausted _ _ _ _ => simp
  | undecided e haccepts _ => simpa using haccepts.reaches.stands
  | settled haccepts _ => simpa using haccepts.reaches.stands
  | @continued left s t step steps r haccepts _ _ ih =>
    have hstands := haccepts.reaches.stands
    have hvalues : t.values = step.1 := congrArg Prod.fst haccepts.current
    intro other hother
    rcases List.mem_cons.mp hother with rfl | hother
    · exact hstands
    · rw [← hstands.dims_eq, ← hvalues]
      exact ih other hother

/-- **Whatever is called, the record goes on by the steps that the call accepts**, also when it fails. -/
theorem perform_advances (o : Optimizer σ α) (s : OptimizerState σ α) (call : Call α) :
    Advances s ((o.perform call).run s).2 (o.acceptedBy s call) ∧
      ∀ step ∈ o.acceptedBy s call, o.Stands s.values.dims step := by
  cases call with
  | iterate =>
    have hiterated := o.iterate_spec s
    simp only [perform, acceptedBy, run_forget]
    generalize o.iterate.run s = r at hiterated ⊢
    cases hiterated with
    | accepted delta step hreaches hadvances _ =>
      have hcurrent := hadvances.current
      simp only [List.getLastD_cons, List.getLastD_nil] at hcurrent
      simp only [hcurrent]
      exact ⟨hadvances, by simpa using hreaches.stands⟩
    | failed e hquiet => exact ⟨hquiet.advances, by simp⟩
  | tryLambda linear =>
    have hsearched := o.tryLambda_spec linear s
    simp only [perform, acceptedBy, run_forget]
    generalize (o.tryLambda linear).run s = r at hsearched ⊢
    cases hsearched with
    | accepted step hreaches _ _ hadvances _ =>
      have hcurrent := hadvances.current
      simp only [List.getLastD_cons, List.getLastD_nil] at hcurrent
      simp only [hcurrent]
      exact ⟨hadvances, by simpa using hreaches.stands⟩
    | exhausted hadvances _ _ => exact ⟨hadvances, by simp⟩
    | failed e hadvances => exact ⟨hadvances, by simp⟩
  | optimize method =>
    have hquiet := o.opened_quiet method s
    simp only [perform, acceptedBy, run_forget, run_method]
    split
    · exact ⟨hquiet.advances, by simp⟩
    · have hrun := o.loop_run method o.parameters.maxIterations (o.opened method s)
      exact ⟨hquiet.then_advances hrun.advances, hquiet.values_eq ▸ hrun.stands⟩

/-- **Calls in any order** move the record on by the steps that they accept. -/
theorem after_advances {dims : Table ℕ} (calls : List (Call α)) (s : OptimizerState σ α)
    (hs : o.Stands dims (s.values, s.cost)) :
    Advances s (o.after s calls) (o.accepted s calls) ∧
      o.Stands dims ((o.after s calls).values, (o.after s calls).cost) := by
  induction calls generalizing s with
  | nil => exact ⟨(Quiet.refl s).advances, hs⟩
  | cons call calls ih =>
    obtain ⟨hadvances, hstands⟩ := o.perform_advances s call
    rw [hs.dims_eq] at hstands
    obtain ⟨hmore, hlast⟩ := ih _ (hadvances.stands hs hstands)
    exact ⟨hadvances.trans hmore, hlast⟩

/-- An optimization starts at the given estimate, with its cost as the only one so far. -/
theorem start_eq_ok {graph : Graph α} {values : Values α} {order : EliminationOrder}
    {solver : LinearSolver σ α} {memory : σ} {parameters : Parameters α} {s : OptimizerState σ α}
    (h : start graph values order solver memory parameters = .ok (o, s)) :
    o = ⟨graph, solver, parameters, values.dims⟩ ∧ graph.cost values = .ok s.cost ∧
      s = ⟨values, s.cost, parameters.lambdaInitial, 0, [s.cost], memory, []⟩ := by
  simp only [start, bind_eq_ok, pure, Except.pure, Except.ok.injEq, Prod.mk.injEq] at h
  obtain ⟨_, _, _, _, cost, hcost, rfl, rfl⟩ := h
  exact ⟨rfl, hcost, rfl⟩

end Optimizer

/-- One residual with unit noise costs half of its square. -/
theorem Noise.cost_single (r : ℝ) : (⟨[1], .none⟩ : Noise ℝ).cost (.ofVector [r]) = r ^ 2 / 2 := by
  have hnorm : Vec.norm ([r] : Vec ℝ) = |r| := by
    rw [Vec.norm, Vec.normSq_real, Vec.squares_cons, Vec.squares_nil, add_zero]
    exact Real.sqrt_sq_eq_abs r
  calc (⟨[1], .none⟩ : Noise ℝ).cost (.ofVector [r])
      = 0.5 * Scalar.sq (Vec.norm [r]) := rfl
    _ = r ^ 2 / 2 := by
      rw [hnorm, Scalar.sq, abs_mul_abs_self]
      ring

/-! ### A number that is held at zero -/

namespace Anchor

def factor : Factor ℝ := ⟨.prior (.number 0) (.ofVector [0]), some ⟨[1], .none⟩, some "anchor"⟩

def graph : Graph ℝ := ⟨[factor]⟩

def estimate (x : ℝ) : Values ℝ := ⟨[(.number 0, [x])]⟩

def order : EliminationOrder := ⟨[.number 0]⟩

theorem factor_cost (x : ℝ) : factor.cost (estimate x).entries = .ok (x ^ 2 / 2) := by
  have hcost : factor.cost (estimate x).entries =
      .ok ((⟨[1], .none⟩ : Noise ℝ).cost (.ofVector [(x - 0) / 1])) := rfl
  rw [hcost, Noise.cost_single, sub_zero, div_one]

theorem graph_cost (x : ℝ) : graph.cost (estimate x) = .ok (x ^ 2 / 2) := by
  have hkeys : graph.checkKeys (estimate x) = .ok () := rfl
  have hcosts : graph.factors.mapM (fun f => f.cost (estimate x).entries) = .ok [x ^ 2 / 2] :=
    mapM_eq_ok_iff.mpr (.cons (factor_cost x) .nil)
  simp [Graph.cost, hkeys, hcosts, bind, Except.bind, Vec.sum_real, pure, Except.pure]

/-- With any solver and any settings, an optimization of the number starts at one. -/
theorem start_estimate {σ : Type} (solver : LinearSolver σ ℝ) (memory : σ) (parameters : Parameters ℝ) :
    Optimizer.start graph (estimate 1) order solver memory parameters
      = .ok (⟨graph, solver, parameters, (estimate 1).dims⟩,
          ⟨estimate 1, 0.5, parameters.lambdaInitial, 0, [0.5], memory, []⟩) := by
  have hkeys : graph.checkKeys (estimate 1) = .ok () := rfl
  have horder : order.validate (estimate 1).keys = .ok () := rfl
  have hcost : graph.cost (estimate 1) = .ok 0.5 := by
    rw [graph_cost]
    norm_num
  simp [Optimizer.start, hkeys, horder, hcost, bind, Except.bind, pure, Except.pure]

/-- A solver that may fail at first, and then always takes one from the number. -/
def solver : LinearSolver Bool ℝ :=
  ⟨fun ready _ => ⟨if ready then .ok ⟨[(.number 0, [-1])]⟩ else .error .absentObject, true, []⟩⟩

noncomputable def optimizer : Optimizer Bool ℝ :=
  ⟨graph, solver, Parameters.standard, (estimate 1).dims⟩

noncomputable def state (ready : Bool) (reports : List (Report ℝ)) : OptimizerState Bool ℝ :=
  ⟨estimate 1, 0.5, Parameters.standard.lambdaInitial, 0, [0.5], ready, reports⟩

theorem start_eq (ready : Bool) :
    Optimizer.start graph (estimate 1) order solver ready Parameters.standard
      = .ok (optimizer, state ready []) := start_estimate solver ready _

theorem moved_eq : (⟨[(.number 0, [1 + -1])]⟩ : Values ℝ) = estimate 0 := by norm_num [estimate]

theorem accepted_iterate :
    optimizer.accepted (state false []) [.iterate, .iterate] = [(estimate 0, 0)] := by
  have hfirst : optimizer.acceptedBy (state false []) .iterate = [] := rfl
  obtain ⟨cost, hcost, hsecond⟩ : ∃ cost, graph.cost ⟨[(.number 0, [1 + -1])]⟩ = .ok cost ∧
      optimizer.acceptedBy ((optimizer.perform .iterate).run (state false [])).2 .iterate
        = [(⟨[(.number 0, [1 + -1])]⟩, cost)] := ⟨_, rfl, rfl⟩
  rw [moved_eq, graph_cost] at hcost
  cases hcost
  rw [Optimizer.accepted, Optimizer.accepted, Optimizer.accepted, hfirst, hsecond, moved_eq]
  norm_num

end Anchor

namespace Optimizer

/-! ### The record -/

variable {σ α : Type} [Scalar α] {o : Optimizer σ α}

/-- **The record is that of the accepted steps**, whatever is called and whatever the solver answers: the
    estimate has the variables and sizes it started with and stands with its cost, and the history leads
    from the first cost over those of the accepted steps to the current one.  A call that fails leaves
    the record at the last step that it has accepted. -/
theorem after_keeps_record {graph : Graph α} {values : Values α} {order : EliminationOrder}
    {solver : LinearSolver σ α} {memory : σ} {parameters : Parameters α} {s : OptimizerState σ α}
    (h : start graph values order solver memory parameters = .ok (o, s)) (calls : List (Call α)) :
    let t := o.after s calls
    t.values.dims = values.dims ∧ graph.cost t.values = .ok t.cost ∧
      (∃ c, graph.cost values = .ok c ∧ t.history.head? = some c) ∧
      t.history.getLast? = some t.cost ∧
      t.history.length = (o.accepted s calls).length + 1 ∧
      Advances s t (o.accepted s calls) ∧
      ∀ call e, ((o.perform call).run t).1 = .error e →
        Advances t ((o.perform call).run t).2 (o.acceptedBy t call) := by
  intro t
  obtain ⟨ho, hcost, hs⟩ := start_eq_ok h
  have hgraph : o.graph = graph := congrArg Optimizer.graph ho
  have hstands : o.Stands values.dims (s.values, s.cost) := by
    rw [hs]
    exact ⟨rfl, hgraph ▸ hcost⟩
  obtain ⟨hadvances, hdims, hlast⟩ := after_advances calls s hstands
  have hhistory : t.history = s.cost :: (o.accepted s calls).map Prod.snd := by
    rw [hadvances.history, hs]
    rfl
  refine ⟨hdims, hgraph ▸ hlast, ⟨s.cost, hcost, by rw [hhistory]; rfl⟩, ?_, ?_, hadvances,
    fun call e _ => (o.perform_advances t call).1⟩
  · rw [hhistory, hadvances.cost_eq, List.getLast?_cons, List.getLastD_eq_getLast?]
  · rw [hhistory, List.length_cons, List.length_map]

/-- A first iteration fails, and a second one brings the number to zero. -/
theorem after_keeps_record_anchor :
    start Anchor.graph (Anchor.estimate 1) Anchor.order Anchor.solver false Parameters.standard
      = .ok (Anchor.optimizer, Anchor.state false []) ∧
    Anchor.optimizer.accepted (Anchor.state false []) [.iterate, .iterate]
      = [(Anchor.estimate 0, 0)] ∧
    let t := Anchor.optimizer.after (Anchor.state false []) [.iterate, .iterate]
    t.values.dims = [(.number 0, 1)] ∧ Anchor.graph.cost t.values = .ok t.cost ∧
      t.history.getLast? = some t.cost ∧ t.history.length = 2 := by
  have hstart := Anchor.start_eq false
  obtain ⟨hdims, hcost, -, hlast, hlength, -⟩ :=
    after_keeps_record hstart [.iterate, .iterate]
  rw [Anchor.accepted_iterate] at hlength
  exact ⟨hstart, Anchor.accepted_iterate, hdims, hcost, hlast, hlength⟩

end Optimizer

end LeastSquares
