/-
  LeastSquares/Proofs/DampedTrials.lean
  =====================================
  **What a trial of a damping comes to, and what a search does to the record.**

  A trial asks the solver about the damped problem.  It comes to a candidate or fails, and otherwise only
  the reports and what the solver remembers change.  A search takes a candidate whose cost is admitted, and
  goes on with a greater damping or gives up after another one.  Each way is opened once here; what a search
  does to the record follows by induction on the trials that are left.
-/
import LeastSquares.Proofs.OptimizerSteps

namespace LeastSquares

/-- The costs that a loop accepts after a cost. -/
def Method.Admits {α : Type} [Scalar α] : Method → α → α → Prop
  | gaussNewton, _, _ => True
  | levenbergMarquardt, old, new => Scalar.isFinite new = true ∧ new ≤ old

namespace Optimizer

variable {σ α : Type} {o : Optimizer σ α} {s t u : OptimizerState σ α}

/-! ### States that differ in their reports -/

/-- Two states differ at most in their reports. -/
def Echoes (s t : OptimizerState σ α) : Prop := t = { s with reports := t.reports }

theorem Echoes.refl (s : OptimizerState σ α) : Echoes s s := rfl

theorem Echoes.trans (h : Echoes s t) (h' : Echoes t u) : Echoes s u := by
  rw [Echoes, h', h]

/-- A change that does not look at the reports does not tell states apart that differ only there. -/
theorem Echoes.change (h : Echoes s t) (change : OptimizerState σ α → OptimizerState σ α)
    (hchange : ∀ s reports, change { s with reports := reports } =
      { change s with reports := reports }) : Echoes (change s) (change t) := by
  have hsame := hchange s t.reports
  rw [← h] at hsame
  rw [Echoes, hsame]

theorem Echoes.quiet (h : Echoes s t) : Quiet s t := by
  rw [Quiet, h]

theorem report_echoes (o : Optimizer σ α) (verbosity : Verbosity) (event : Event α)
    (s : OptimizerState σ α) :
    ∃ t, (o.report verbosity event).run s = (.ok (), t) ∧ Echoes s t := ⟨_, rfl, rfl⟩

theorem reportFrom_echoes (o : Optimizer σ α) (verbosity : Verbosity) (event : Event α)
    (s : OptimizerState σ α) :
    ∃ t, (o.reportFrom verbosity event).run s = (.ok (), t) ∧ Echoes s t := by
  rw [reportFrom]
  split
  · exact o.report_echoes verbosity event s
  · exact ⟨s, rfl, .refl s⟩

/-- The state in which the solver has been asked about a problem. -/
def asked (o : Optimizer σ α) (s : OptimizerState σ α) (problem : LinearGraph α) :
    OptimizerState σ α :=
  { s with memory := (o.solver.solve s.memory problem).memory }

theorem askSolver_echoes (o : Optimizer σ α) (problem : LinearGraph α) (s : OptimizerState σ α) :
    ∃ t, (o.askSolver problem).run s = ((o.solver.solve s.memory problem).result, t) ∧
      Echoes (o.asked s problem) t := ⟨_, rfl, rfl⟩

/-- The state in which a step has been accepted. -/
def taken (s : OptimizerState σ α) (step : Values α × α) : OptimizerState σ α :=
  { s with values := step.1, cost := step.2, history := s.history ++ [step.2] }

variable [Scalar α]

/-! ### One trial -/

/-- The step that a damping leads to. -/
def trial (o : Optimizer σ α) (linear : LinearGraph α) (damping : α) : Run σ α (Values α × α) := do
  o.report .tryLambda (.dampingTried damping)
  let damped := linear.damped damping o.dims
  o.reportFrom .damped (.graphDamped damped.size)
  let delta ← o.askSolver damped
  o.reportFrom .tryDelta (.candidateStep delta.norm)
  let (values, cost) ← o.moved delta
  o.reportFrom .tryConfig (.candidateEstimate values)
  o.report .tryLambda (.candidateCost cost)
  return (values, cost)

/-- **The candidate that a problem leads to**: the estimate moved by the step that the solver has for
    it, with its cost. -/
def candidate (o : Optimizer σ α) (s : OptimizerState σ α) (problem : LinearGraph α) :
    Except Error (Values α × α) := do
  let delta ← (o.solver.solve s.memory problem).result
  o.reached s.values delta

theorem reaches_of_candidate {problem : LinearGraph α} {step : Values α × α}
    (h : o.candidate s problem = .ok step) : o.Reaches s.values step := by
  obtain ⟨delta, -, hreached⟩ := bind_eq_ok.mp h
  exact reaches_of_reached hreached

theorem Echoes.candidate_eq (h : Echoes s t) (problem : LinearGraph α) :
    o.candidate t problem = o.candidate s problem := by rw [h, candidate, candidate]

/-- A trial asks the solver once, and comes to its candidate. -/
theorem trial_run (o : Optimizer σ α) (linear : LinearGraph α) (damping : α)
    (s : OptimizerState σ α) :
    ∃ t, (o.trial linear damping).run s = (o.candidate s (linear.damped damping o.dims), t) ∧
      Echoes (o.asked s (linear.damped damping o.dims)) t := by
  obtain ⟨t₁, htried, hechoes₁⟩ := o.report_echoes .tryLambda (.dampingTried damping) s
  obtain ⟨t₂, hdamped, hechoes₂⟩ := o.reportFrom_echoes .damped
    (.graphDamped (linear.damped damping o.dims).size) t₁
  obtain ⟨t₃, hask, hechoes₃⟩ := o.askSolver_echoes (linear.damped damping o.dims) t₂
  have hechoes := hechoes₁.trans hechoes₂
  have hasked := (hechoes.change (fun s => o.asked s (linear.damped damping o.dims))
    fun _ _ => rfl).trans hechoes₃
  simp only [trial, run_bind, htried, hdamped, hask]
  rw [← hechoes.candidate_eq, candidate]
  cases (o.solver.solve t₂.memory (linear.damped damping o.dims)).result with
  | error e => exact ⟨t₃, rfl, hasked⟩
  | ok delta =>
    obtain ⟨t₄, hstep, hechoes₄⟩ := o.reportFrom_echoes .tryDelta (.candidateStep delta.norm) t₃
    have hvalues : t₄.values = t₂.values := by
      rw [hechoes₄, hechoes₃]
      rfl
    simp only [hstep, run_moved, hvalues]
    cases hreached : o.reached t₂.values delta with
    | error e => exact ⟨t₄, by simp only [bind, Except.bind, hreached], hasked.trans hechoes₄⟩
    | ok step =>
      obtain ⟨t₅, hestimate, hechoes₅⟩ := o.reportFrom_echoes .tryConfig (.candidateEstimate step.1) t₄
      obtain ⟨t₆, hcost, hechoes₆⟩ := o.report_echoes .tryLambda (.candidateCost step.2) t₅
      refine ⟨t₆, ?_, ((hasked.trans hechoes₄).trans hechoes₅).trans hechoes₆⟩
      simp only [hestimate, hcost, run_pure, bind, Except.bind, hreached]

/-- A candidate is rejected: there is one, but its cost is not finite or greater than the current. -/
def Rejects (o : Optimizer σ α) (s : OptimizerState σ α) (problem : LinearGraph α) : Prop :=
  ∃ step, o.candidate s problem = .ok step ∧ ¬ Method.levenbergMarquardt.Admits s.cost step.2

theorem tryDampings_succ (o : Optimizer σ α) (linear : LinearGraph α) (trials : ℕ) :
    o.tryDampings linear (trials + 1) = (do
      let damping := (← get).damping
      let step ← o.trial linear damping
      if Scalar.isFinite step.2 && decide (step.2 ≤ (← get).cost) then
        accept step.1 step.2
        modify fun s => { s with damping := dampingAfter o.parameters damping }
        o.report .lambda (.stepAccepted (← get).damping)
        return true
      else
        let greater := damping * o.parameters.lambdaFactor
        modify fun s => { s with damping := greater }
        o.report .lambda (.stepRejected greater)
        if o.parameters.lambdaUpperBound < greater then
          o.report .error (.dampingExhausted o.parameters.lambdaUpperBound)
          return false
        else o.tryDampings linear trials) := by
  simp only [tryDampings, trial, bind_assoc, pure_bind]

/-- What a trial of a search comes to, with a number of trials left. -/
inductive Tried (o : Optimizer σ α) (linear : LinearGraph α) (s : OptimizerState σ α) (trials : ℕ) :
    Except Error Bool × OptimizerState σ α → Prop
  | failed {t : OptimizerState σ α} (e : Error) :
      o.candidate s (linear.damped s.damping o.dims) = .error e →
      Echoes (o.asked s (linear.damped s.damping o.dims)) t → Tried o linear s trials (.error e, t)
  | accepted {t : OptimizerState σ α} (step : Values α × α) :
      o.candidate s (linear.damped s.damping o.dims) = .ok step →
      Method.levenbergMarquardt.Admits s.cost step.2 →
      Echoes { taken (o.asked s (linear.damped s.damping o.dims)) step with
        damping := dampingAfter o.parameters s.damping } t →
      Tried o linear s trials (.ok true, t)
  | exhausted {t : OptimizerState σ α} : o.Rejects s (linear.damped s.damping o.dims) →
      o.parameters.lambdaUpperBound < s.damping * o.parameters.lambdaFactor →
      Echoes { o.asked s (linear.damped s.damping o.dims) with
        damping := s.damping * o.parameters.lambdaFactor } t →
      Tried o linear s trials (.ok false, t)
  | continued {t : OptimizerState σ α} : o.Rejects s (linear.damped s.damping o.dims) →
      ¬ o.parameters.lambdaUpperBound < s.damping * o.parameters.lambdaFactor →
      Echoes { o.asked s (linear.damped s.damping o.dims) with
        damping := s.damping * o.parameters.lambdaFactor } t →
      Tried o linear s trials ((o.tryDampings linear trials).run t)

/-- **One trial** accepts its candidate, gives up, fails, or leaves the rest to the trials behind it. -/
theorem tryDampings_tried (o : Optimizer σ α) (linear : LinearGraph α) (trials : ℕ)
    (s : OptimizerState σ α) :
    Tried o linear s trials ((o.tryDampings linear (trials + 1)).run s) := by
  obtain ⟨t, htrial, hechoes⟩ := o.trial_run linear s.damping s
  have hcost : t.cost = s.cost := by
    rw [hechoes]
    rfl
  simp only [tryDampings_succ, run_bind, run_get, htrial]
  cases hcandidate : o.candidate s (linear.damped s.damping o.dims) with
  | error e => exact .failed e hcandidate hechoes
  | ok step =>
    simp only [hcost]
    split
    · next hadmitted =>
      have hadmits : Method.levenbergMarquardt.Admits s.cost step.2 := by
        rw [Bool.and_eq_true, decide_eq_true_eq] at hadmitted
        exact hadmitted
      obtain ⟨u, hreport, hechoes'⟩ := o.report_echoes .lambda
        (.stepAccepted (dampingAfter o.parameters s.damping))
        { taken t step with damping := dampingAfter o.parameters s.damping }
      simp only [taken] at hreport
      simp only [accept, run_bind, run_modify, run_get, hreport, run_pure]
      refine .accepted step hcandidate hadmits (Echoes.trans ?_ hechoes')
      exact hechoes.change (fun t =>
        { taken t step with damping := dampingAfter o.parameters s.damping }) fun _ _ => rfl
    · next hadmitted =>
      have hrejects : o.Rejects s (linear.damped s.damping o.dims) := by
        refine ⟨step, hcandidate, fun hadmits => hadmitted ?_⟩
        rw [Bool.and_eq_true, decide_eq_true_eq]
        exact hadmits
      have hgrown := hechoes.change (fun t =>
        { t with damping := s.damping * o.parameters.lambdaFactor }) fun _ _ => rfl
      obtain ⟨u, hrejected, hechoes'⟩ := o.report_echoes .lambda
        (.stepRejected (s.damping * o.parameters.lambdaFactor))
        { t with damping := s.damping * o.parameters.lambdaFactor }
      simp only [run_bind, run_modify, hrejected]
      split
      · next hbound =>
        obtain ⟨v, hexhausted, hechoes''⟩ := o.report_echoes .error
          (.dampingExhausted o.parameters.lambdaUpperBound) u
        simp only [run_bind, hexhausted, run_pure]
        exact .exhausted hrejects hbound ((hgrown.trans hechoes').trans hechoes'')
      · next hbound => exact .continued hrejects hbound (hgrown.trans hechoes')

/-! ### The record of a search -/

/-- What becomes of a search for a damping. -/
inductive Searched (o : Optimizer σ α) (s : OptimizerState σ α) :
    Except Error Bool × OptimizerState σ α → Prop
  | accepted {t : OptimizerState σ α} (step : Values α × α) :
      o.Reaches s.values step → Scalar.isFinite step.2 = true → step.2 ≤ s.cost →
      Advances s t [step] → t.iterations = s.iterations → Searched o s (.ok true, t)
  | exhausted {t : OptimizerState σ α} : Advances s t [] → t.iterations = s.iterations →
      o.parameters.lambdaUpperBound < t.damping → Searched o s (.ok false, t)
  | failed {t : OptimizerState σ α} (e : Error) : Advances s t [] → Searched o s (.error e, t)

/-- What a search comes to from a state is what it comes to from any that has the same record. -/
theorem Searched.of_same {o : Optimizer σ α} {s t : OptimizerState σ α}
    {r : Except Error Bool × OptimizerState σ α} (hadvances : Advances s t [])
    (hiterations : t.iterations = s.iterations) (h : Searched o t r) : Searched o s r := by
  have hcurrent := hadvances.current
  simp only [List.getLastD_nil, Prod.mk.injEq] at hcurrent
  obtain ⟨hvalues, hcost⟩ := hcurrent
  cases h with
  | accepted step hreaches hfinite hle hstep hcount =>
    exact .accepted step (hvalues ▸ hreaches) hfinite (hcost ▸ hle) (hadvances.trans hstep)
      (hcount.trans hiterations)
  | exhausted hnone hcount hbound =>
    exact .exhausted (hadvances.trans hnone) (hcount.trans hiterations) hbound
  | failed e hnone => exact .failed e (hadvances.trans hnone)

theorem tryDampings_spec (o : Optimizer σ α) (linear : LinearGraph α) (trials : ℕ)
    (s : OptimizerState σ α) : Searched o s ((o.tryDampings linear trials).run s) := by
  induction trials generalizing s with
  | zero => exact .failed _ (Quiet.refl s).advances
  | succ trials ih =>
    have htried := o.tryDampings_tried linear trials s
    generalize (o.tryDampings linear (trials + 1)).run s = r at htried ⊢
    -- a candidate that is not taken leaves the record, so the search goes on from the same one
    have hsame : ∀ damping, Advances s
        { o.asked s (linear.damped s.damping o.dims) with damping := damping } [] :=
      fun _ => ⟨rfl, (List.append_nil _).symm⟩
    cases htried with
    | failed e _ hechoes => exact .failed e ((hsame s.damping).then_quiet hechoes.quiet)
    | accepted step hok hadmits hechoes =>
      exact .accepted step (reaches_of_candidate hok) hadmits.1 hadmits.2
        (Advances.then_quiet ⟨rfl, rfl⟩ hechoes.quiet) hechoes.quiet.iterations_eq
    | exhausted _ hbound hechoes =>
      refine .exhausted ((hsame _).then_quiet hechoes.quiet) hechoes.quiet.iterations_eq ?_
      rw [hechoes.quiet.damping_eq]
      exact hbound
    | @continued t _ _ hechoes =>
      exact (ih t).of_same ((hsame _).then_quiet hechoes.quiet) hechoes.quiet.iterations_eq

theorem tryLambda_spec (o : Optimizer σ α) (linear : LinearGraph α) (s : OptimizerState σ α) :
    Searched o s ((o.tryLambda linear).run s) := by
  simp only [tryLambda, run_bind, run_get]
  exact o.tryDampings_spec linear _ s

end Optimizer

end LeastSquares
