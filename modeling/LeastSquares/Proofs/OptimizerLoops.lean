/-
  LeastSquares/Proofs/OptimizerLoops.lean
  =======================================
  **The loops of an optimization as runs of rounds.**

  Both loops are one: a round accepts a step, fails, or gives up, and after an accepted step the change of
  the cost decides whether there is another round.  They differ in the rounds, and in which costs a round
  accepts.  A run keeps the list of the steps that it has accepted, and ends in one of five ways.
-/
import LeastSquares.Proofs.DampedTrials

namespace LeastSquares

namespace Optimizer

variable {σ α : Type}

/-- The result of a loop that ends in a state. -/
def outcome (t : OptimizerState σ α) (converged : Bool) (termination : Termination) :
    OptimizerResult α :=
  ⟨t.values, t.cost, t.iterations, t.damping, converged, termination, t.history⟩

@[simp] theorem run_result (converged : Bool) (termination : Termination)
    (s : OptimizerState σ α) :
    (result converged termination).run s = (.ok (outcome s converged termination), s) := rfl

variable [Scalar α]

/-! ### Rounds -/

/-- One round of a loop; it tells whether a step has been accepted. -/
def round (o : Optimizer σ α) : Method → Run σ α Bool
  | .gaussNewton => do
    let _ ← o.iterate
    return true
  | .levenbergMarquardt => do
    let linear ← o.linearize
    let accepted ← o.tryLambda linear
    modify fun s => { s with iterations := s.iterations + 1 }
    if accepted then
      let s ← get
      o.report .error (.iterationDone s.iterations s.cost)
    return accepted

/-- A round has accepted a step. -/
structure Accepts (o : Optimizer σ α) (method : Method) (s t : OptimizerState σ α)
    (step : Values α × α) : Prop where
  reaches : o.Reaches s.values step
  admits : method.Admits s.cost step.2
  advances : Advances s t [step]
  counted : t.iterations = s.iterations + 1

/-- What becomes of a round. -/
inductive Rounded (o : Optimizer σ α) (method : Method) (s : OptimizerState σ α) :
    Except Error Bool × OptimizerState σ α → Prop
  | accepted {t : OptimizerState σ α} (step : Values α × α) :
      o.Accepts method s t step → Rounded o method s (.ok true, t)
  | exhausted {t : OptimizerState σ α} : method = .levenbergMarquardt → Advances s t [] →
      t.iterations = s.iterations + 1 → o.parameters.lambdaUpperBound < t.damping →
      Rounded o method s (.ok false, t)
  | failed {t : OptimizerState σ α} (e : Error) : Advances s t [] →
      Rounded o method s (.error e, t)

theorem round_spec (o : Optimizer σ α) (method : Method) (s : OptimizerState σ α) :
    Rounded o method s ((o.round method).run s) := by
  cases method with
  | gaussNewton =>
    have hiterated := o.iterate_spec s
    simp only [round, run_bind]
    generalize o.iterate.run s = r at hiterated ⊢
    cases hiterated with
    | accepted delta step hreaches hadvances hcount =>
      exact .accepted step ⟨hreaches, trivial, hadvances, hcount⟩
    | failed e hquiet => exact .failed e hquiet.advances
  | levenbergMarquardt =>
    obtain ⟨t, hlinearize, hquiet⟩ := o.linearize_quiet s
    simp only [round, run_bind, hlinearize]
    cases o.graph.linearize s.values with
    | error e => exact .failed e hquiet.advances
    | ok linear =>
      have hsearched := (o.tryLambda_spec linear t).of_same hquiet.advances hquiet.iterations_eq
      simp only
      generalize (o.tryLambda linear).run t = r at hsearched ⊢
      cases hsearched with
      | @accepted t step hreaches hfinite hle hadvances hcount =>
        obtain ⟨u, hreport, hquiet'⟩ := o.report_quiet .error
          (.iterationDone (t.iterations + 1) t.cost) { t with iterations := t.iterations + 1 }
        simp only [run_modify, if_true, run_bind, run_get, hreport, run_pure]
        have hsame : Advances t { t with iterations := t.iterations + 1 } [] :=
          ⟨rfl, (List.append_nil _).symm⟩
        have hlast : Advances s u [step] := by
          simpa using (hadvances.trans hsame).then_quiet hquiet'
        refine .accepted step ⟨hreaches, ⟨hfinite, hle⟩, hlast, ?_⟩
        rw [hquiet'.iterations_eq, ← hcount]
      | @exhausted t hadvances hcount hbound =>
        simp only [run_modify, Bool.false_eq_true, if_false, run_pure]
        exact .exhausted rfl ⟨hadvances.current, hadvances.history⟩
          (congrArg (· + 1) hcount) hbound
      | failed e hadvances => exact .failed e hadvances

/-! ### Loops -/

def loop (o : Optimizer σ α) : Method → ℕ → Run σ α (OptimizerResult α)
  | .gaussNewton => o.undampedLoop
  | .levenbergMarquardt => o.dampedLoop

theorem loop_zero (o : Optimizer σ α) (method : Method) :
    o.loop method 0 = result false .maxIterations := by
  cases method <;> rfl

/-- Each loop goes from round to round as long as steps are accepted and the cost is not settled. -/
theorem loop_succ (o : Optimizer σ α) (method : Method) (left : ℕ) :
    o.loop method (left + 1) = (do
      let old := (← get).cost
      if ← o.round method then
        if ← o.settled old then result true .converged else o.loop method left
      else result false .lambdaUpperBound) := by
  cases method with
  | gaussNewton => simp only [loop, undampedLoop, round, bind_assoc, pure_bind, if_true]
  | levenbergMarquardt =>
    simp only [loop, dampedLoop, round, bind_assoc]
    refine bind_congr fun s => bind_congr fun linear => bind_congr fun accepted => ?_
    cases accepted <;> simp

/-- Whether the change of the cost ends a loop. -/
def decision (o : Optimizer σ α) (old new : α) : Except Error Bool :=
  (Convergence.check (.ofParameters o.parameters) old new o.parameters.verbosity.level).1

/-- The steps that a loop accepts from a state on, in at most a number of rounds. -/
def acceptedSteps (o : Optimizer σ α) (method : Method) :
    ℕ → OptimizerState σ α → List (Values α × α)
  | 0, _ => []
  | left + 1, s =>
    match (o.round method).run s with
    | (.ok true, t) =>
      (t.values, t.cost) ::
        match (o.settled s.cost).run t with
        | (.ok false, u) => acceptedSteps o method left u
        | _ => []
    | _ => []

/-- **A run of a loop**: the bound on its rounds, the state it starts in, the steps it accepts, and what
    becomes of it. -/
inductive LoopRun (o : Optimizer σ α) (method : Method) : ℕ → OptimizerState σ α →
    List (Values α × α) → Except Error (OptimizerResult α) × OptimizerState σ α → Prop
  | spent (s : OptimizerState σ α) :
      LoopRun o method 0 s [] (.ok (outcome s false .maxIterations), s)
  | failed {left : ℕ} {s t : OptimizerState σ α} (e : Error) : Advances s t [] →
      LoopRun o method (left + 1) s [] (.error e, t)
  | exhausted {left : ℕ} {s t : OptimizerState σ α} : method = .levenbergMarquardt →
      Advances s t [] → t.iterations = s.iterations + 1 →
      o.parameters.lambdaUpperBound < t.damping →
      LoopRun o method (left + 1) s [] (.ok (outcome t false .lambdaUpperBound), t)
  | undecided {left : ℕ} {s t : OptimizerState σ α} {step : Values α × α} (e : Error) :
      o.Accepts method s t step → o.decision s.cost step.2 = .error e →
      LoopRun o method (left + 1) s [step] (.error e, t)
  | settled {left : ℕ} {s t : OptimizerState σ α} {step : Values α × α} :
      o.Accepts method s t step → o.decision s.cost step.2 = .ok true →
      LoopRun o method (left + 1) s [step] (.ok (outcome t true .converged), t)
  | continued {left : ℕ} {s t : OptimizerState σ α} {step : Values α × α}
      {steps : List (Values α × α)}
      {r : Except Error (OptimizerResult α) × OptimizerState σ α} :
      o.Accepts method s t step → o.decision s.cost step.2 = .ok false →
      LoopRun o method left t steps r → LoopRun o method (left + 1) s (step :: steps) r

theorem Accepts.current {o : Optimizer σ α} {method : Method} {s t : OptimizerState σ α}
    {step : Values α × α} (h : o.Accepts method s t step) : (t.values, t.cost) = step :=
  h.advances.current

theorem Accepts.then_quiet {o : Optimizer σ α} {method : Method} {s t u : OptimizerState σ α}
    {step : Values α × α} (h : o.Accepts method s t step) (hquiet : Quiet t u) :
    o.Accepts method s u step :=
  ⟨h.reaches, h.admits, h.advances.then_quiet hquiet, hquiet.iterations_eq.trans h.counted⟩

/-- **Every loop runs so**, and the steps of the run are those that it accepts. -/
theorem loop_run (o : Optimizer σ α) (method : Method) (left : ℕ) (s : OptimizerState σ α) :
    o.LoopRun method left s (o.acceptedSteps method left s) ((o.loop method left).run s) := by
  induction left generalizing s with
  | zero =>
    rw [loop_zero, run_result]
    exact .spent s
  | succ left ih =>
    have hround := o.round_spec method s
    simp only [loop_succ, run_bind, run_get, acceptedSteps]
    generalize (o.round method).run s = r at hround ⊢
    cases hround with
    | failed e hadvances => exact .failed e hadvances
    | exhausted hmethod hadvances hcount hbound =>
      simp only [Bool.false_eq_true, if_false, run_result]
      exact .exhausted hmethod hadvances hcount hbound
    | @accepted t step haccepts =>
      -- the decision only adds to the reports, so it belongs to the round before
      obtain ⟨u, hsettled, hquiet⟩ := o.settled_quiet s.cost t
      have hvalues : t.values = step.1 := congrArg Prod.fst haccepts.current
      have hcost : t.cost = step.2 := congrArg Prod.snd haccepts.current
      simp only [if_true, run_bind, hsettled, hvalues, hcost]
      have haccepts := haccepts.then_quiet hquiet
      cases hdecision : (Convergence.check (.ofParameters o.parameters) s.cost step.2
          o.parameters.verbosity.level).1 with
      | error e => exact .undecided e haccepts hdecision
      | ok ends =>
        cases ends with
        | true => exact .settled haccepts hdecision
        | false => exact .continued haccepts hdecision (ih u)

/-- What rounds that always accept a step keep, a loop keeps, and it does not end with a damping that has
    passed its bound. -/
theorem loop_keeps {o : Optimizer σ α} {method : Method} {P : OptimizerState σ α → Prop}
    (hround : ∀ s, P s → P ((o.round method).run s).2 ∧ ((o.round method).run s).1 ≠ .ok false)
    (hsettled : ∀ s old, P s → P ((o.settled old).run s).2) (left : ℕ) {s : OptimizerState σ α}
    (hs : P s) : P ((o.loop method left).run s).2 ∧
      ∀ result, ((o.loop method left).run s).1 = .ok result →
        result.termination ≠ .lambdaUpperBound := by
  induction left generalizing s with
  | zero =>
    rw [loop_zero, run_result]
    exact ⟨hs, fun result h => by cases h; exact nofun⟩
  | succ left ih =>
    obtain ⟨hkept, haccepted⟩ := hround s hs
    simp only [loop_succ, run_bind, run_get]
    generalize (o.round method).run s = r at hkept haccepted ⊢
    obtain ⟨e | accepted, t⟩ := r
    · exact ⟨hkept, nofun⟩
    cases accepted with
    | false => exact (haccepted rfl).elim
    | true =>
      have hdecided := hsettled t s.cost hkept
      simp only [if_true, run_bind]
      generalize (o.settled s.cost).run t = d at hdecided ⊢
      obtain ⟨e | ends, u⟩ := d
      · exact ⟨hdecided, nofun⟩
      cases ends with
      | true => exact ⟨hdecided, fun result h => by cases h; exact nofun⟩
      | false => exact ih hdecided

variable {o : Optimizer σ α} {method : Method} {left : ℕ} {s : OptimizerState σ α}
  {steps : List (Values α × α)} {r : Except Error (OptimizerResult α) × OptimizerState σ α}

theorem LoopRun.advances (h : o.LoopRun method left s steps r) : Advances s r.2 steps := by
  induction h with
  | spent s => exact (Quiet.refl s).advances
  | failed e hadvances => exact hadvances
  | exhausted _ hadvances => exact hadvances
  | undecided e haccepts => exact haccepts.advances
  | settled haccepts => exact haccepts.advances
  | continued haccepts _ _ ih => exact haccepts.advances.trans ih

end Optimizer

end LeastSquares
