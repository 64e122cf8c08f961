/-
  LeastSquares/Proofs/AnsweredSteps.lean
  ======================================
  **What a step of an optimization comes to when its solver answers.**

  An undamped iteration returns when the solver has a step for the linearized problem, and a search returns
  with the first damping when the solver has a step for the damped problem and the cost does not grow.
  When the solver has none, the error is passed on and the record stays.  In both cases all else that
  happens is that more is reported, and no report is about a step that was rejected.
-/
import LeastSquares.Proofs.OptimizerRecord

namespace LeastSquares

/-- The event that a step has been rejected. -/
def Event.isRejection {α : Type} : Event α → Bool
  | .stepRejected _ => true
  | _ => false

/-- No report is about a step that was rejected. -/
def Accepting {α : Type} (reports : List (Report α)) : Prop :=
  ∀ r ∈ reports, r.event.isRejection = false

theorem Accepting.append {α : Type} {reports more : List (Report α)} (h : Accepting reports)
    (h' : Accepting more) : Accepting (reports ++ more) :=
  List.forall_mem_append.mpr ⟨h, h'⟩

theorem Convergence.accepting_check {α : Type} [Scalar α] (t : Thresholds α) (old new : α)
    (verbosity : ℤ) : Accepting (check t old new verbosity).2 := by
  simp only [check]
  split_ifs <;> simp [Accepting, Event.isRejection]

namespace Optimizer

variable {σ α : Type} {s t u : OptimizerState σ α}

/-- A state differs from another by more reports, none of which is about a rejected step. -/
def Tells (s t : OptimizerState σ α) : Prop :=
  ∃ more, t = { s with reports := s.reports ++ more } ∧ Accepting more

theorem Tells.refl (s : OptimizerState σ α) : Tells s s :=
  ⟨[], by rw [List.append_nil], by simp [Accepting]⟩

theorem Tells.trans (h : Tells s t) (h' : Tells t u) : Tells s u := by
  obtain ⟨more, rfl, hmore⟩ := h
  obtain ⟨more', rfl, hmore'⟩ := h'
  exact ⟨more ++ more', by simp, hmore.append hmore'⟩

theorem Tells.quiet (h : Tells s t) : Quiet s t := by
  obtain ⟨more, rfl, -⟩ := h
  rfl

theorem Tells.memory_eq (h : Tells s t) : t.memory = s.memory := by
  obtain ⟨more, rfl, -⟩ := h
  rfl

theorem Tells.history_eq (h : Tells s t) : t.history = s.history := by
  obtain ⟨more, rfl, -⟩ := h
  rfl

/-- What is told is told as well by a state in which other fields were changed alike. -/
theorem Tells.change (h : Tells s t) (change : OptimizerState σ α → OptimizerState σ α)
    (hchange : ∀ s reports, change { s with reports := reports } =
      { change s with reports := reports }) : Tells (change s) (change t) := by
  obtain ⟨more, rfl, hmore⟩ := h
  have hreports : (change s).reports = s.reports := by
    have hsame := hchange s s.reports
    simpa using congrArg OptimizerState.reports hsame
  exact ⟨more, by rw [hchange, hreports], hmore⟩

theorem report_tells (o : Optimizer σ α) (verbosity : Verbosity) (event : Event α)
    (h : event.isRejection = false) (s : OptimizerState σ α) :
    ∃ t, (o.report verbosity event).run s = (.ok (), t) ∧ Tells s t :=
  ⟨_, rfl, _, rfl, by simpa [Accepting] using h⟩

theorem opened_tells (o : Optimizer σ α) (method : Method) (s : OptimizerState σ α) :
    Tells s (o.opened method s) := by
  have hevent : (method.opening s).isRejection = false := by cases method <;> rfl
  obtain ⟨_, hrun, htells⟩ := o.report_tells .error _ hevent s
  rwa [opened, hrun]

theorem reportFrom_tells (o : Optimizer σ α) (verbosity : Verbosity) (event : Event α)
    (h : event.isRejection = false) (s : OptimizerState σ α) :
    ∃ t, (o.reportFrom verbosity event).run s = (.ok (), t) ∧ Tells s t := by
  rw [reportFrom]
  split
  · exact o.report_tells verbosity event h s
  · exact ⟨s, rfl, .refl s⟩

theorem Tells.asked {o : Optimizer σ α} (h : Tells s t) (problem : LinearGraph α) :
    Tells (o.asked s problem) (o.asked t problem) :=
  h.change (fun s => o.asked s problem) fun _ _ => rfl

theorem askSolver_tells (o : Optimizer σ α) {problem : LinearGraph α} {s : OptimizerState σ α}
    (h : Accepting (o.solver.solve s.memory problem).reports) :
    ∃ t, (o.askSolver problem).run s = ((o.solver.solve s.memory problem).result, t) ∧
      Tells (o.asked s problem) t :=
  ⟨_, rfl, _, rfl, h⟩

variable [Scalar α] {o : Optimizer σ α} {linear problem : LinearGraph α} {delta : Delta α}
  {step : Values α × α}

theorem settled_tells (o : Optimizer σ α) (old : α) (s : OptimizerState σ α) :
    ∃ t, (o.settled old).run s = (o.decision old s.cost, t) ∧ Tells s t :=
  ⟨_, rfl, _, rfl, Convergence.accepting_check _ _ _ _⟩

theorem linearize_tells (hlinear : o.graph.linearize s.values = .ok linear) :
    ∃ t, o.linearize.run s = (.ok linear, t) ∧ Tells s t := by
  obtain ⟨t, hrun, htells⟩ := o.reportFrom_tells .linear (.linearized linear.size) rfl s
  exact ⟨t, by simp only [linearize, run_bind, run_get, run_ofExcept, hlinear, hrun, run_pure], htells⟩

/-- A step leads from an estimate to another, with its cost. -/
structure Leads (o : Optimizer σ α) (values : Values α) (delta : Delta α) (step : Values α × α) :
    Prop where
  moved : values.retract delta = .ok step.1
  cost : o.graph.cost step.1 = .ok step.2

theorem Leads.reached_eq {values : Values α} (h : o.Leads values delta step) :
    o.reached values delta = .ok step := by
  rw [reached, h.moved]
  simp only [bind, Except.bind, h.cost]
  rfl

theorem moved_run (h : o.Leads s.values delta step) : (o.moved delta).run s = (.ok step, s) := by
  rw [run_moved, h.reached_eq]

/-! ### Undamped iterations -/

/-- An iteration whose problem the solver has a step for. -/
theorem iterate_answered (hlinear : o.graph.linearize s.values = .ok linear)
    (hreports : Accepting (o.solver.solve s.memory linear).reports)
    (hanswer : (o.solver.solve s.memory linear).result = .ok delta)
    (hleads : o.Leads s.values delta step) : ∃ t, o.iterate.run s = (.ok delta, t) ∧
      Tells { taken (o.asked s linear) step with iterations := s.iterations + 1 } t := by
  obtain ⟨t₁, hlinearize, htells₁⟩ := linearize_tells (o := o) hlinear
  rw [← htells₁.memory_eq] at hreports hanswer
  obtain ⟨t₂, hask, htells₂⟩ := o.askSolver_tells hreports
  obtain ⟨t₃, htaken, htells₃⟩ := o.report_tells .delta (.stepTaken delta.norm) rfl t₂
  have htells := ((htells₁.asked linear).trans htells₂).trans htells₃
  have hvalues : t₃.values = s.values := htells.quiet.values_eq
  obtain ⟨t₄, hdone, htells₄⟩ := o.report_tells .error
    (.iterationDone (t₃.iterations + 1) step.2) rfl
    { taken t₃ step with iterations := t₃.iterations + 1 }
  obtain ⟨t₅, hestimate, htells₅⟩ := o.reportFrom_tells .values (.estimate step.1) rfl t₄
  refine ⟨t₅, ?_, ?_⟩
  · simp only [taken] at hdone
    simp only [iterate, run_bind, hlinearize, hask, hanswer, htaken, moved_run (hvalues ▸ hleads),
      run_modify, accept, run_get, hdone, hestimate, run_pure]
  · have hchanged := htells.change (fun s =>
      { taken s step with iterations := s.iterations + 1 }) fun _ _ => rfl
    exact (hchanged.trans htells₄).trans htells₅

/-- An iteration whose problem the solver has no step for. -/
theorem iterate_refused (hlinear : o.graph.linearize s.values = .ok linear)
    (hreports : Accepting (o.solver.solve s.memory linear).reports) {e : Error}
    (hanswer : (o.solver.solve s.memory linear).result = .error e) :
    ∃ t, o.iterate.run s = (.error e, t) ∧ Tells (o.asked s linear) t := by
  obtain ⟨t₁, hlinearize, htells₁⟩ := linearize_tells (o := o) hlinear
  rw [← htells₁.memory_eq] at hreports hanswer
  obtain ⟨t₂, hask, htells₂⟩ := o.askSolver_tells hreports
  refine ⟨t₂, by simp only [iterate, run_bind, hlinearize, hask, hanswer], ?_⟩
  exact (htells₁.asked linear).trans htells₂

/-! ### Searches -/

/-- A trial whose damped problem the solver has a step for. -/
theorem trial_answered {damping : α}
    (hreports : Accepting (o.solver.solve s.memory (linear.damped damping o.dims)).reports)
    (hanswer : (o.solver.solve s.memory (linear.damped damping o.dims)).result = .ok delta)
    (hleads : o.Leads s.values delta step) :
    ∃ t, (o.trial linear damping).run s = (.ok step, t) ∧
      Tells (o.asked s (linear.damped damping o.dims)) t := by
  obtain ⟨t₁, htried, htells₁⟩ := o.report_tells .tryLambda (.dampingTried damping) rfl s
  obtain ⟨t₂, hdamped, htells₂⟩ := o.reportFrom_tells .damped
    (.graphDamped (linear.damped damping o.dims).size) rfl t₁
  have htells := htells₁.trans htells₂
  rw [← htells.memory_eq] at hreports hanswer
  obtain ⟨t₃, hask, htells₃⟩ := o.askSolver_tells hreports
  obtain ⟨t₄, hcandidate, htells₄⟩ := o.reportFrom_tells .tryDelta
    (.candidateStep delta.norm) rfl t₃
  have htells := ((htells.asked (linear.damped damping o.dims)).trans htells₃).trans htells₄
  have hvalues : t₄.values = s.values := htells.quiet.values_eq
  obtain ⟨t₅, hestimate, htells₅⟩ := o.reportFrom_tells .tryConfig
    (.candidateEstimate step.1) rfl t₄
  obtain ⟨t₆, hcost, htells₆⟩ := o.report_tells .tryLambda (.candidateCost step.2) rfl t₅
  refine ⟨t₆, ?_, (htells.trans htells₅).trans htells₆⟩
  simp only [trial, run_bind, htried, hdamped, hask, hanswer, hcandidate,
    moved_run (hvalues ▸ hleads), hestimate, hcost, run_pure]

/-- A trial whose damped problem the solver has no step for. -/
theorem trial_refused {damping : α}
    (hreports : Accepting (o.solver.solve s.memory (linear.damped damping o.dims)).reports) {e : Error}
    (hanswer : (o.solver.solve s.memory (linear.damped damping o.dims)).result = .error e) :
    ∃ t, (o.trial linear damping).run s = (.error e, t) ∧
      Tells (o.asked s (linear.damped damping o.dims)) t := by
  obtain ⟨t₁, htried, htells₁⟩ := o.report_tells .tryLambda (.dampingTried damping) rfl s
  obtain ⟨t₂, hdamped, htells₂⟩ := o.reportFrom_tells .damped
    (.graphDamped (linear.damped damping o.dims).size) rfl t₁
  have htells := htells₁.trans htells₂
  rw [← htells.memory_eq] at hreports hanswer
  obtain ⟨t₃, hask, htells₃⟩ := o.askSolver_tells hreports
  refine ⟨t₃, by simp only [trial, run_bind, htried, hdamped, hask, hanswer], ?_⟩
  exact (htells.asked (linear.damped damping o.dims)).trans htells₃

/-- **A search accepts its first damping** when the solver has a step for it that does not make the cost
    greater. -/
theorem tryLambda_answered
    (hreports : Accepting (o.solver.solve s.memory (linear.damped s.damping o.dims)).reports)
    (hanswer : (o.solver.solve s.memory (linear.damped s.damping o.dims)).result = .ok delta)
    (hleads : o.Leads s.values delta step) (hfinite : Scalar.isFinite step.2 = true)
    (hle : step.2 ≤ s.cost) : ∃ t, (o.tryLambda linear).run s = (.ok true, t) ∧
      Tells { taken (o.asked s (linear.damped s.damping o.dims)) step with
        damping := dampingAfter o.parameters s.damping } t := by
  obtain ⟨t₁, htrial, htells₁⟩ := trial_answered hreports hanswer hleads
  have hadmitted : (Scalar.isFinite step.2 && decide (step.2 ≤ t₁.cost)) = true := by
    have hcost : t₁.cost = s.cost := htells₁.quiet.cost_eq
    simp [hfinite, hcost, hle]
  obtain ⟨t₂, haccepted, htells₂⟩ := o.report_tells .lambda
    (.stepAccepted (dampingAfter o.parameters s.damping)) rfl
    { taken t₁ step with damping := dampingAfter o.parameters s.damping }
  refine ⟨t₂, ?_, (htells₁.change (fun t =>
    { taken t step with damping := dampingAfter o.parameters s.damping }) fun _ _ => rfl).trans htells₂⟩
  simp only [taken] at haccepted
  simp only [tryLambda, trialBound, tryDampings_succ, run_bind, run_get, htrial, hadmitted, if_true,
    accept, run_modify, haccepted, run_pure]

theorem tryLambda_refused
    (hreports : Accepting (o.solver.solve s.memory (linear.damped s.damping o.dims)).reports) {e : Error}
    (hanswer : (o.solver.solve s.memory (linear.damped s.damping o.dims)).result = .error e) :
    ∃ t, (o.tryLambda linear).run s = (.error e, t) ∧
      Tells (o.asked s (linear.damped s.damping o.dims)) t := by
  obtain ⟨t, htrial, htells⟩ := trial_refused hreports hanswer
  refine ⟨t, ?_, htells⟩
  simp only [tryLambda, trialBound, tryDampings_succ, run_bind, run_get, htrial]

end Optimizer

/-! ### Rounds -/

namespace Method

variable {σ α : Type} [Scalar α]

/-- The problem that a round asks its solver about first. -/
def problem (method : Method) (o : Optimizer σ α) (s : OptimizerState σ α) (linear : LinearGraph α) :
    LinearGraph α :=
  match method with
  | gaussNewton => linear
  | levenbergMarquardt => linear.damped s.damping o.dims

/-- The damping after a round that has accepted the first step it has tried. -/
def dampingAfter (method : Method) (o : Optimizer σ α) (damping : α) : α :=
  match method with
  | gaussNewton => damping
  | levenbergMarquardt => Optimizer.dampingAfter o.parameters damping

end Method

namespace Optimizer

variable {σ α : Type} [Scalar α] {o : Optimizer σ α} {s : OptimizerState σ α}
  {linear : LinearGraph α} {method : Method}

/-- The state after a round that has accepted the first step it has tried. -/
def stepped (o : Optimizer σ α) (method : Method) (s : OptimizerState σ α) (linear : LinearGraph α)
    (step : Values α × α) : OptimizerState σ α :=
  { taken (o.asked s (method.problem o s linear)) step with
    iterations := s.iterations + 1, damping := method.dampingAfter o s.damping }

/-- **A round whose problem the solver has a step for accepts it**, if the method admits its cost. -/
theorem round_answered {delta : Delta α} {step : Values α × α}
    (hlinear : o.graph.linearize s.values = .ok linear)
    (hreports : Accepting (o.solver.solve s.memory (method.problem o s linear)).reports)
    (hanswer : (o.solver.solve s.memory (method.problem o s linear)).result = .ok delta)
    (hleads : o.Leads s.values delta step) (hadmits : method.Admits s.cost step.2) :
    ∃ t, (o.round method).run s = (.ok true, t) ∧ Tells (o.stepped method s linear step) t := by
  cases method with
  | gaussNewton =>
    obtain ⟨t, hrun, htells⟩ := iterate_answered hlinear hreports hanswer hleads
    exact ⟨t, by simp only [round, run_bind, hrun, run_pure], htells⟩
  | levenbergMarquardt =>
    obtain ⟨_, hlinearize, more, rfl, hmore⟩ := linearize_tells (o := o) hlinear
    obtain ⟨t₂, hsearch, htells₂⟩ := tryLambda_answered
      (s := { s with reports := s.reports ++ more }) hreports hanswer hleads hadmits.1 hadmits.2
    obtain ⟨t₃, hdone, htells₃⟩ := o.report_tells .error
      (.iterationDone (t₂.iterations + 1) t₂.cost) rfl { t₂ with iterations := t₂.iterations + 1 }
    refine ⟨t₃, ?_, ?_⟩
    · simp only [round, run_bind, hlinearize, hsearch, run_modify, if_true, run_get, hdone, run_pure]
    · have hcounted := htells₂.change (fun t =>
        { t with iterations := t.iterations + 1 }) fun _ _ => rfl
      have hlinearized : Tells (o.stepped .levenbergMarquardt s linear step)
          { o.stepped .levenbergMarquardt s linear step with reports := s.reports ++ more } :=
        ⟨more, rfl, hmore⟩
      exact (hlinearized.trans hcounted).trans htells₃

theorem round_refused (hlinear : o.graph.linearize s.values = .ok linear)
    (hreports : Accepting (o.solver.solve s.memory (method.problem o s linear)).reports) {e : Error}
    (hanswer : (o.solver.solve s.memory (method.problem o s linear)).result = .error e) :
    ∃ t, (o.round method).run s = (.error e, t) ∧
      Tells (o.asked s (method.problem o s linear)) t := by
  cases method with
  | gaussNewton =>
    obtain ⟨t, hrun, htells⟩ := iterate_refused hlinear hreports hanswer
    exact ⟨t, by simp only [round, run_bind, hrun], htells⟩
  | levenbergMarquardt =>
    obtain ⟨_, hlinearize, more, rfl, hmore⟩ := linearize_tells (o := o) hlinear
    obtain ⟨t₂, hsearch, htells₂⟩ := tryLambda_refused (s := { s with reports := s.reports ++ more })
      hreports hanswer
    refine ⟨t₂, by simp only [round, run_bind, hlinearize, hsearch], Tells.trans ?_ htells₂⟩
    exact ⟨more, rfl, hmore⟩

end Optimizer

end LeastSquares
