/-
  LeastSquares/Proofs/OptimizerSteps.lean
  =======================================
  **What the steps of an optimization do to its record.**

  The record of an optimization is its estimate with its cost, and the costs of all accepted estimates.
  Each computation on the state is opened once: it may fail or be refused, and then leaves the record as
  it is, or it accepts one step, and then the step stands at the end of the record.  Nothing is assumed of
  the solver.
-/
import LeastSquares.Optimize
import LeastSquares.Proofs.Steps

namespace LeastSquares

namespace Optimizer

variable {σ α β γ : Type}

/-! ### Computations on the state -/

theorem run_bind (x : Run σ α β) (f : β → Run σ α γ) (s : OptimizerState σ α) :
    (x >>= f).run s = match x.run s with
      | (.ok b, t) => (f b).run t
      | (.error e, t) => (.error e, t) := by
  change (match x s with
    | (r, t) => (ExceptT.bindCont f r : StateM (OptimizerState σ α) (Except Error γ)) t) = _
  rcases hx : x.run s with ⟨_ | _, t⟩
  all_goals
    have hrun : x s = _ := hx
    rw [hrun]
    rfl

@[simp] theorem run_pure (b : β) (s : OptimizerState σ α) :
    (pure b : Run σ α β).run s = (.ok b, s) := rfl

@[simp] theorem run_get (s : OptimizerState σ α) :
    (get : Run σ α (OptimizerState σ α)).run s = (.ok s, s) := rfl

@[simp] theorem run_modify (change : OptimizerState σ α → OptimizerState σ α)
    (s : OptimizerState σ α) : (modify change : Run σ α Unit).run s = (.ok (), change s) := rfl

@[simp] theorem run_ofExcept (x : Except Error β) (s : OptimizerState σ α) :
    (ofExcept x : Run σ α β).run s = (x, s) := rfl

/-! ### Records -/

/-- Two states differ at most in what the solver remembers and in the reports. -/
def Quiet (s t : OptimizerState σ α) : Prop :=
  t = { s with memory := t.memory, reports := t.reports }

theorem Quiet.refl (s : OptimizerState σ α) : Quiet s s := rfl

theorem Quiet.trans {s t u : OptimizerState σ α} (h : Quiet s t) (h' : Quiet t u) : Quiet s u := by
  rw [Quiet, h', h]

theorem Quiet.values_eq {s t : OptimizerState σ α} (h : Quiet s t) : t.values = s.values := by rw [h]

theorem Quiet.cost_eq {s t : OptimizerState σ α} (h : Quiet s t) : t.cost = s.cost := by rw [h]

theorem Quiet.damping_eq {s t : OptimizerState σ α} (h : Quiet s t) : t.damping = s.damping := by rw [h]

theorem Quiet.iterations_eq {s t : OptimizerState σ α} (h : Quiet s t) :
    t.iterations = s.iterations := by rw [h]

/-- **A state has advanced from another by accepted steps**, each an estimate and its cost: the last
    of them is the current one, and the costs of all have been written down in turn. -/
structure Advances (s t : OptimizerState σ α) (steps : List (Values α × α)) : Prop where
  current : (t.values, t.cost) = steps.getLastD (s.values, s.cost)
  history : t.history = s.history ++ steps.map Prod.snd

theorem Quiet.advances {s t : OptimizerState σ α} (h : Quiet s t) : Advances s t [] := by
  rw [h]
  exact ⟨rfl, (List.append_nil _).symm⟩

theorem Advances.cost_eq {s t : OptimizerState σ α} {steps : List (Values α × α)}
    (h : Advances s t steps) : t.cost = (steps.map Prod.snd).getLastD s.cost := by
  have hcost : t.cost = (steps.getLastD (s.values, s.cost)).2 := congrArg Prod.snd h.current
  rw [hcost, List.getLastD_eq_getLast?, List.getLastD_eq_getLast?, List.getLast?_map]
  cases steps.getLast? <;> rfl

theorem Advances.trans {s t u : OptimizerState σ α} {steps more : List (Values α × α)}
    (h : Advances s t steps) (h' : Advances t u more) : Advances s u (steps ++ more) := by
  constructor
  · rw [h'.current, h.current]
    simp [List.getLastD_eq_getLast?, List.getLast?_append, Option.getD_or]
  · rw [h'.history, h.history, List.map_append, List.append_assoc]

theorem Advances.then_quiet {s t u : OptimizerState σ α} {steps : List (Values α × α)}
    (h : Advances s t steps) (h' : Quiet t u) : Advances s u steps := by
  simpa using h.trans h'.advances

theorem Quiet.then_advances {s t u : OptimizerState σ α} {steps : List (Values α × α)}
    (h : Quiet s t) (h' : Advances t u steps) : Advances s u steps := h.advances.trans h'

/-! ### What asks and reports -/

theorem report_quiet (o : Optimizer σ α) (verbosity : Verbosity) (event : Event α)
    (s : OptimizerState σ α) :
    ∃ t, (o.report verbosity event).run s = (.ok (), t) ∧ Quiet s t := ⟨_, rfl, rfl⟩

theorem reportFrom_quiet (o : Optimizer σ α) (verbosity : Verbosity) (event : Event α)
    (s : OptimizerState σ α) :
    ∃ t, (o.reportFrom verbosity event).run s = (.ok (), t) ∧ Quiet s t := by
  rw [reportFrom]
  split
  · exact o.report_quiet verbosity event s
  · exact ⟨s, rfl, .refl s⟩

theorem askSolver_quiet (o : Optimizer σ α) (linear : LinearGraph α) (s : OptimizerState σ α) :
    ∃ t, (o.askSolver linear).run s = ((o.solver.solve s.memory linear).result, t) ∧ Quiet s t :=
  ⟨_, rfl, rfl⟩

variable [Scalar α]

theorem linearize_quiet (o : Optimizer σ α) (s : OptimizerState σ α) :
    ∃ t, o.linearize.run s = (o.graph.linearize s.values, t) ∧ Quiet s t := by
  simp only [linearize, run_bind, run_get, run_ofExcept]
  cases o.graph.linearize s.values with
  | error e => exact ⟨s, rfl, .refl s⟩
  | ok linear =>
    obtain ⟨t, hrun, hquiet⟩ := o.reportFrom_quiet .linear (.linearized linear.size) s
    exact ⟨t, by simp only [hrun, run_pure], hquiet⟩

/-- Decide about the change of the cost: the state is not touched otherwise. -/
theorem settled_quiet (o : Optimizer σ α) (old : α) (s : OptimizerState σ α) :
    ∃ t, (o.settled old).run s = ((Convergence.check (.ofParameters o.parameters) old s.cost
      o.parameters.verbosity.level).1, t) ∧ Quiet s t :=
  ⟨_, rfl, rfl⟩

/-- A step from an estimate: some move of the estimate, and its cost. -/
structure Reaches (o : Optimizer σ α) (values : Values α) (step : Values α × α) : Prop where
  moved : ∃ delta, values.retract delta = .ok step.1
  cost : o.graph.cost step.1 = .ok step.2

/-- Where a step leads from an estimate, with the cost there. -/
def reached (o : Optimizer σ α) (values : Values α) (delta : Delta α) :
    Except Error (Values α × α) := do
  let values ← values.retract delta
  let cost ← o.graph.cost values
  return (values, cost)

theorem run_moved (o : Optimizer σ α) (delta : Delta α) (s : OptimizerState σ α) :
    (o.moved delta).run s = (o.reached s.values delta, s) := by
  simp only [moved, run_bind, run_get, run_ofExcept, reached]
  cases s.values.retract delta with
  | error e => rfl
  | ok values =>
    simp only [bind, Except.bind]
    cases o.graph.cost values <;> rfl

theorem reaches_of_reached {o : Optimizer σ α} {values : Values α} {delta : Delta α}
    {step : Values α × α} (h : o.reached values delta = .ok step) : o.Reaches values step := by
  obtain ⟨moved, hmoved, h⟩ := bind_eq_ok.mp h
  obtain ⟨cost, hcost, h⟩ := bind_eq_ok.mp h
  cases h
  exact ⟨⟨delta, hmoved⟩, hcost⟩

/-! ### Undamped iterations -/

/-- What becomes of an undamped iteration. -/
inductive Iterated (o : Optimizer σ α) (s : OptimizerState σ α) :
    Except Error (Delta α) × OptimizerState σ α → Prop
  | accepted {t : OptimizerState σ α} (delta : Delta α) (step : Values α × α) :
      o.Reaches s.values step → Advances s t [step] → t.iterations = s.iterations + 1 →
      Iterated o s (.ok delta, t)
  | failed {t : OptimizerState σ α} (e : Error) : Quiet s t → Iterated o s (.error e, t)

theorem iterate_spec (o : Optimizer σ α) (s : OptimizerState σ α) :
    Iterated o s (o.iterate.run s) := by
  obtain ⟨t₁, hlinearize, hquiet₁⟩ := o.linearize_quiet s
  simp only [iterate, run_bind, hlinearize]
  cases o.graph.linearize s.values with
  | error e => exact .failed e hquiet₁
  | ok linear =>
    obtain ⟨t₂, hask, hquiet₂⟩ := o.askSolver_quiet linear t₁
    simp only [hask]
    cases (o.solver.solve t₁.memory linear).result with
    | error e => exact .failed e (hquiet₁.trans hquiet₂)
    | ok delta =>
      obtain ⟨t₃, hreport, hquiet₃⟩ := o.report_quiet .delta (.stepTaken delta.norm) t₂
      have hquiet := (hquiet₁.trans hquiet₂).trans hquiet₃
      simp only [hreport]
      simp only [run_moved]
      cases hreached : o.reached t₃.values delta with
      | error e => exact .failed e hquiet
      | ok step =>
        simp only [run_modify, accept, run_get, run_pure]
        obtain ⟨t₄, hdone, hquiet₄⟩ := o.report_quiet .error
          (.iterationDone (t₃.iterations + 1) step.2)
          { t₃ with
            iterations := t₃.iterations + 1, values := step.1, cost := step.2
            history := t₃.history ++ [step.2] }
        obtain ⟨t₅, hestimate, hquiet₅⟩ := o.reportFrom_quiet .values (.estimate step.1) t₄
        have hquiet' := hquiet₄.trans hquiet₅
        simp only [hdone, hestimate]
        refine .accepted delta step (hquiet.values_eq ▸ reaches_of_reached hreached) ?_ ?_
        · exact hquiet.then_advances (Advances.then_quiet ⟨rfl, rfl⟩ hquiet')
        · rw [hquiet'.iterations_eq, ← hquiet.iterations_eq]

end Optimizer

end LeastSquares
