/-
  LeastSquares/Proofs/Lockstep.lean
  =================================
  **Both ways of elimination lead an optimization through the same states.**

  Two optimizations that differ only in the way of elimination are followed side by side, as long as neither
  fails.  At each step the linear problems are the same and formed for the order, so both solvers return the
  same step, and the states stay level: they differ only in what the solvers remember, and in what they
  report about themselves.
-/
import LeastSquares.Proofs.Linearization
import LeastSquares.Proofs.OptimizerRecord

namespace LeastSquares

/-! ### Reports -/

/-- Events that are about the solver of the linear problems, and not about the optimization. -/
def Event.isOfSolver {α : Type} : Event α → Bool
  | .frontsAnalysed .. => true
  | .conditionalsProduced _ => true
  | .optimizationStarted .. => true
  | _ => false

/-- The reports about the optimization. -/
def progressOf {α : Type} (reports : List (Report α)) : List (Report α) :=
  reports.filter fun r => !r.event.isOfSolver

/-- The dampings that have been tried. -/
def dampingsOf {α : Type} (reports : List (Report α)) : List α :=
  reports.filterMap fun r =>
    match r.event with
    | .dampingTried damping => some damping
    | _ => none

@[simp] theorem progressOf_append {α : Type} (reports more : List (Report α)) :
    progressOf (reports ++ more) = progressOf reports ++ progressOf more := List.filter_append ..

theorem dampingsOf_progressOf {α : Type} (reports : List (Report α)) :
    dampingsOf (progressOf reports) = dampingsOf reports := by
  rw [dampingsOf, progressOf, List.filterMap_filter]
  refine List.filterMap_congr fun r _ => ?_
  obtain ⟨level, event⟩ := r
  cases event <;> rfl

theorem SequentialSolver.solve_kept {α : Type} [Scalar α] (s : SequentialSolver α) (g : LinearGraph α) :
    (∃ net, (s.solve g).memory = ⟨s.order, s.dims, net⟩) ∧ progressOf (s.solve g).reports = [] := by
  rw [solve]
  split
  · exact ⟨⟨s.net, rfl⟩, rfl⟩
  · exact ⟨⟨_, rfl⟩, rfl⟩

theorem MultifrontalSolver.solve_reports {α : Type} [Scalar α] (s : MultifrontalSolver α)
    (g : LinearGraph α) : progressOf (s.solve g).reports = [] := by
  have hprepare : progressOf (s.prepare g).reports = [] := by
    rw [prepare]
    split
    · rfl
    · simp only
      split <;> rfl
  have heliminate : (s.eliminate g).reports = (s.prepare g).reports := by
    rw [eliminate]
    split
    · rfl
    · split
      · rfl
      · simp only
        split <;> rfl
  rw [solve]
  split
  · exact heliminate ▸ hprepare
  · exact heliminate ▸ hprepare

namespace Optimizer

/-! ### Level states -/

/-- An optimization by one of the solvers that eliminate, for an order that lists its variables. -/
structure Eliminates (o : Optimizer (Backend ℝ) ℝ) (order : EliminationOrder) : Prop where
  solver_eq : o.solver = Backend.solver
  regular : o.graph.IsRegular
  nodup : order.keys.Nodup
  perm : order.keys.Perm o.dims.keys

/-- Two states are level when the first eliminates one variable after another, the second eliminates fronts,
    and they differ in nothing else but what is reported about that. -/
structure Level (o : Optimizer (Backend ℝ) ℝ) (order : EliminationOrder)
    (s t : OptimizerState (Backend ℝ) ℝ) : Prop where
  quiet : Quiet s t
  sized : s.values.dims = o.dims
  sequential : ∃ net, s.memory = .sequential ⟨order, o.dims, net⟩
  multifrontal : ∃ m, t.memory = .multifrontal m ∧ m.Reachable order o.dims
  progress : progressOf t.reports = progressOf s.reports

/-- Where both of two computations return, they return the same, of which something holds, and end in level
    states. -/
def Together {β : Type} (o : Optimizer (Backend ℝ) ℝ) (order : EliminationOrder) (P : β → Prop)
    (p q : Except Error β × OptimizerState (Backend ℝ) ℝ) : Prop :=
  ∀ b c, p.1 = .ok b → q.1 = .ok c → c = b ∧ P b ∧ o.Level order p.2 q.2

variable {o : Optimizer (Backend ℝ) ℝ} {order : EliminationOrder}
  {s t : OptimizerState (Backend ℝ) ℝ} {β γ : Type} {P : β → Prop} {Q : γ → Prop}

theorem Together.bind {x y : Run (Backend ℝ) ℝ β} {f g : β → Run (Backend ℝ) ℝ γ}
    (h : o.Together order P (x.run s) (y.run t))
    (hnext : ∀ b s' t', P b → o.Level order s' t' →
      o.Together order Q ((f b).run s') ((g b).run t')) :
    o.Together order Q ((x >>= f).run s) ((y >>= g).run t) := by
  rw [run_bind, run_bind]
  rcases hx : x.run s with ⟨e | b, s'⟩
  · exact fun _ _ h => by cases h
  rcases hy : y.run t with ⟨e | c, t'⟩
  · exact fun _ _ _ h => by cases h
  rw [hx, hy] at h
  obtain ⟨rfl, hP, hlevel⟩ := h b c rfl rfl
  exact hnext _ _ _ hP hlevel

theorem together_get {f g : OptimizerState (Backend ℝ) ℝ → Run (Backend ℝ) ℝ β}
    (h : o.Together order P ((f s).run s) ((g t).run t)) :
    o.Together order P ((get >>= f).run s) ((get >>= g).run t) := h

theorem together_pure (h : o.Level order s t) {b : β} (hb : P b) :
    o.Together order P ((pure b : Run (Backend ℝ) ℝ β).run s)
      ((pure b : Run (Backend ℝ) ℝ β).run t) := by
  rintro _ _ ⟨⟩ ⟨⟩
  exact ⟨rfl, hb, h⟩

theorem together_ofExcept (h : o.Level order s t) (x : Except Error β) :
    o.Together order (fun b => x = .ok b) ((ofExcept x : Run (Backend ℝ) ℝ β).run s)
      ((ofExcept x : Run (Backend ℝ) ℝ β).run t) := by
  intro b c hb hc
  rw [run_ofExcept] at hb hc
  exact ⟨Except.ok.inj (hc.symm.trans hb), hb, h⟩

/-- A change of the record keeps states level when it keeps the sizes. -/
theorem together_modify (h : o.Level order s t)
    {change : OptimizerState (Backend ℝ) ℝ → OptimizerState (Backend ℝ) ℝ}
    (hchange : ∀ memory reports, change { s with memory := memory, reports := reports } =
      { change s with memory := memory, reports := reports })
    (hsized : (change s).values.dims = o.dims) :
    o.Together order (fun _ => True) ((modify change : Run (Backend ℝ) ℝ Unit).run s)
      ((modify change : Run (Backend ℝ) ℝ Unit).run t) := by
  obtain ⟨hquiet, -, hsequential, hmultifrontal, hprogress⟩ := h
  have hs : change s = { change s with memory := s.memory, reports := s.reports } :=
    hchange s.memory s.reports
  have ht : change t = { change s with memory := t.memory, reports := t.reports } := by
    rw [hquiet]
    exact hchange t.memory t.reports
  rintro _ _ - -
  refine ⟨rfl, trivial, ?_⟩
  simp only [run_modify]
  rw [hs] at hsized
  rw [ht, hs]
  exact ⟨rfl, hsized, hsequential, hmultifrontal, hprogress⟩

/-- What the solvers remember and what is reported may change, as long as they stay what they are and the
    reports about the optimization are the same. -/
theorem Level.remember (h : o.Level order s t) (net : Option (BayesNet ℝ)) {m : MultifrontalSolver ℝ}
    (hm : m.Reachable order o.dims) {reports reports' : List (Report ℝ)}
    (hreports : progressOf reports' = progressOf reports) :
    o.Level order { s with memory := .sequential ⟨order, o.dims, net⟩, reports := s.reports ++ reports }
      { t with memory := .multifrontal m, reports := t.reports ++ reports' } where
  quiet := by rw [h.quiet]; rfl
  sized := h.sized
  sequential := ⟨net, rfl⟩
  multifrontal := ⟨m, rfl, hm⟩
  progress := by simp only [progressOf_append, h.progress, hreports]

theorem Level.tell (h : o.Level order s t) (reports : List (Report ℝ)) :
    o.Level order { s with reports := s.reports ++ reports }
      { t with reports := t.reports ++ reports } := by
  obtain ⟨net, hnet⟩ := h.sequential
  obtain ⟨m, hmemory, hm⟩ := h.multifrontal
  have hlevel := h.remember net hm (rfl : progressOf reports = progressOf reports)
  rwa [← hnet, ← hmemory] at hlevel

theorem together_report (h : o.Level order s t) (verbosity : Verbosity) (event : Event ℝ) :
    o.Together order (fun _ => True) ((o.report verbosity event).run s)
      ((o.report verbosity event).run t) := by
  rintro _ _ - -
  exact ⟨rfl, trivial, h.tell _⟩

theorem together_reportFrom (h : o.Level order s t) (verbosity : Verbosity) (event : Event ℝ) :
    o.Together order (fun _ => True) ((o.reportFrom verbosity event).run s)
      ((o.reportFrom verbosity event).run t) := by
  rw [reportFrom]
  split
  · exact together_report h verbosity event
  · exact together_pure h trivial

/-! ### Steps -/

theorem together_askSolver (ho : o.Eliminates order) (h : o.Level order s t) {linear : LinearGraph ℝ}
    (hlinear : linear.Formed order.keys o.dims) :
    o.Together order (fun _ => True) ((o.askSolver linear).run s) ((o.askSolver linear).run t) := by
  obtain ⟨net, hnet⟩ := h.sequential
  obtain ⟨m, hmemory, hm⟩ := h.multifrontal
  intro d d' hd hd'
  have hs : (o.askSolver linear).run s =
      ((SequentialSolver.solve ⟨order, o.dims, net⟩ linear).result, { s with
        memory := .sequential (SequentialSolver.solve ⟨order, o.dims, net⟩ linear).memory
        reports := s.reports ++ (SequentialSolver.solve ⟨order, o.dims, net⟩ linear).reports }) := by
    simp only [askSolver, run_bind, run_get, hnet, ho.solver_eq]
    rfl
  have ht : (o.askSolver linear).run t = ((m.solve linear).result, { t with
      memory := .multifrontal (m.solve linear).memory
      reports := t.reports ++ (m.solve linear).reports }) := by
    simp only [askSolver, run_bind, run_get, hmemory, ho.solver_eq]
    rfl
  rw [hs] at hd ⊢
  rw [ht] at hd' ⊢
  -- whatever structure the fronts were kept from, they are for the same order and sizes
  obtain ⟨⟨net', hnet'⟩, hreports⟩ := SequentialSolver.solve_kept ⟨order, o.dims, net⟩ linear
  refine ⟨MultifrontalSolver.solve_agrees hm hlinear hd hd', trivial, ?_⟩
  rw [hnet']
  exact h.remember net' (.solve linear hm) ((m.solve_reports linear).trans hreports.symm)

theorem together_linearize (ho : o.Eliminates order) (h : o.Level order s t) :
    o.Together order (fun linear => linear.Formed order.keys o.dims) (o.linearize.run s)
      (o.linearize.run t) := by
  refine together_get ?_
  rw [h.quiet.values_eq]
  refine (together_ofExcept h _).bind fun linear s' t' hlinear h' => ?_
  refine (together_reportFrom h' _ _).bind fun _ s'' t'' _ h'' => ?_
  have hperm : order.keys.Perm s.values.keys := by
    have hdims := ho.perm
    rwa [← h.sized, Values.keys_dims] at hdims
  exact together_pure h'' (h.sized ▸ Graph.linearize_formed ho.regular ho.nodup hperm hlinear)

/-- Both move to the same estimate, which has the sizes it had, and to the same cost. -/
theorem together_moved (h : o.Level order s t) (delta : Delta ℝ) :
    o.Together order (fun step => step.1.dims = o.dims) ((o.moved delta).run s)
      ((o.moved delta).run t) := by
  refine together_get ?_
  rw [h.quiet.values_eq]
  refine (together_ofExcept h _).bind fun values s' t' hvalues h' => ?_
  refine (together_ofExcept h' _).bind fun cost s'' t'' _ h'' => ?_
  exact together_pure h'' ((Values.dims_of_retract hvalues).trans h.sized)

theorem together_accept (h : o.Level order s t) {values : Values ℝ} (hvalues : values.dims = o.dims)
    (cost : ℝ) : o.Together order (fun _ => True)
      ((accept values cost : Run (Backend ℝ) ℝ Unit).run s)
      ((accept values cost : Run (Backend ℝ) ℝ Unit).run t) :=
  together_modify h (fun _ _ => rfl) hvalues

theorem together_iterate (ho : o.Eliminates order) (h : o.Level order s t) :
    o.Together order (fun _ => True) (o.iterate.run s) (o.iterate.run t) := by
  refine (together_linearize ho h).bind fun linear s t hlinear h => ?_
  refine (together_askSolver ho h hlinear).bind fun delta s t _ h => ?_
  refine (together_report h _ _).bind fun _ s t _ h => ?_
  refine (together_moved h delta).bind fun step s t hstep h => ?_
  refine (together_modify h (fun _ _ => rfl) h.sized).bind fun _ s t _ h => ?_
  refine (together_accept h hstep step.2).bind fun _ s t _ h => ?_
  refine together_get ?_
  rw [h.quiet.iterations_eq]
  refine (together_report h _ _).bind fun _ s t _ h => ?_
  refine (together_reportFrom h _ _).bind fun _ s t _ h => ?_
  exact together_pure h trivial

theorem together_trial (ho : o.Eliminates order) (h : o.Level order s t) {linear : LinearGraph ℝ}
    (hlinear : linear.Formed order.keys o.dims) (damping : ℝ) :
    o.Together order (fun step => step.1.dims = o.dims) ((o.trial linear damping).run s)
      ((o.trial linear damping).run t) := by
  refine (together_report h _ _).bind fun _ s t _ h => ?_
  refine (together_reportFrom h _ _).bind fun _ s t _ h => ?_
  refine (together_askSolver ho h (hlinear.damped ho.perm damping)).bind fun delta s t _ h => ?_
  refine (together_reportFrom h _ _).bind fun _ s t _ h => ?_
  refine (together_moved h delta).bind fun step s t hstep h => ?_
  refine (together_reportFrom h _ _).bind fun _ s t _ h => ?_
  refine (together_report h _ _).bind fun _ s t _ h => ?_
  exact together_pure h hstep

/-! ### Loops -/

/-- **The same dampings are tried**, and the same one is accepted. -/
theorem together_tryDampings (ho : o.Eliminates order) {linear : LinearGraph ℝ}
    (hlinear : linear.Formed order.keys o.dims) (trials : ℕ) (h : o.Level order s t) :
    o.Together order (fun _ => True) ((o.tryDampings linear trials).run s)
      ((o.tryDampings linear trials).run t) := by
  induction trials generalizing s t with
  | zero => exact fun _ _ h => by cases h
  | succ trials ih =>
    rw [tryDampings_succ]
    refine together_get ?_
    rw [h.quiet.damping_eq]
    -- the damping that is tried is that of the states before the trial, which the trial changes
    generalize s.damping = damping
    refine (together_trial ho h hlinear damping).bind fun step s t hstep h => ?_
    refine together_get ?_
    rw [h.quiet.cost_eq]
    split
    · refine (together_accept h hstep step.2).bind fun _ s t _ h => ?_
      refine (together_modify h (fun _ _ => rfl) h.sized).bind fun _ s t _ h => ?_
      refine together_get ?_
      rw [h.quiet.damping_eq]
      refine (together_report h _ _).bind fun _ s t _ h => ?_
      exact together_pure h trivial
    · refine (together_modify h (fun _ _ => rfl) h.sized).bind fun _ s t _ h => ?_
      refine (together_report h _ _).bind fun _ s t _ h => ?_
      split
      · refine (together_report h _ _).bind fun _ s t _ h => ?_
        exact together_pure h trivial
      · exact ih h

theorem together_round (ho : o.Eliminates order) (method : Method) (h : o.Level order s t) :
    o.Together order (fun _ => True) ((o.round method).run s) ((o.round method).run t) := by
  cases method with
  | gaussNewton =>
    refine (together_iterate ho h).bind fun _ s t _ h => ?_
    exact together_pure h trivial
  | levenbergMarquardt =>
    refine (together_linearize ho h).bind fun linear s t hlinear h => ?_
    have hsearch : o.Together order (fun _ => True) ((o.tryLambda linear).run s)
        ((o.tryLambda linear).run t) := by
      refine together_get ?_
      rw [h.quiet.damping_eq]
      exact together_tryDampings ho hlinear _ h
    refine hsearch.bind fun accepted s t _ h => ?_
    refine (together_modify h (fun _ _ => rfl) h.sized).bind fun _ s t _ h => ?_
    split
    · refine together_get ?_
      rw [h.quiet.iterations_eq, h.quiet.cost_eq]
      refine (together_report h _ _).bind fun _ s t _ h => ?_
      exact together_pure h trivial
    · exact together_pure h trivial

theorem together_settled (h : o.Level order s t) (old : ℝ) :
    o.Together order (fun _ => True) ((o.settled old).run s) ((o.settled old).run t) := by
  obtain ⟨check, hcheck⟩ : ∃ check, check = Convergence.check (.ofParameters o.parameters) old s.cost
    o.parameters.verbosity.level := ⟨_, rfl⟩
  have hs : (o.settled old).run s = (check.1, { s with reports := s.reports ++ check.2 }) := by
    rw [hcheck]
    rfl
  have ht : (o.settled old).run t = (check.1, { t with reports := t.reports ++ check.2 }) := by
    rw [hcheck, ← h.quiet.cost_eq]
    rfl
  rw [hs, ht]
  exact fun b c hb hc => ⟨Except.ok.inj (hc.symm.trans hb), trivial, h.tell check.2⟩

theorem together_result (h : o.Level order s t) (converged : Bool) (termination : Termination) :
    o.Together order (fun _ => True)
      ((result converged termination : Run (Backend ℝ) ℝ (OptimizerResult ℝ)).run s)
      ((result converged termination : Run (Backend ℝ) ℝ (OptimizerResult ℝ)).run t) := by
  intro r r' hr hr'
  rw [run_result] at hr hr'
  cases hr
  cases hr'
  refine ⟨?_, trivial, h⟩
  rw [h.quiet]
  rfl

/-- **Whole loops stay together**, however many rounds they take. -/
theorem together_loop (ho : o.Eliminates order) (method : Method) (left : ℕ) (h : o.Level order s t) :
    o.Together order (fun _ => True) ((o.loop method left).run s) ((o.loop method left).run t) := by
  induction left generalizing s t with
  | zero =>
    rw [loop_zero]
    exact together_result h _ _
  | succ left ih =>
    rw [loop_succ]
    refine together_get ?_
    rw [h.quiet.cost_eq]
    generalize s.cost = old
    refine (together_round ho method h).bind fun accepted s t _ h => ?_
    split
    · refine (together_settled h old).bind fun ends s t _ h => ?_
      split
      · exact together_result h _ _
      · exact ih h
    · exact together_result h _ _

theorem together_method (ho : o.Eliminates order) (method : Method) (h : o.Level order s t) :
    o.Together order (fun _ => True) ((method.run o).run s) ((method.run o).run t) := by
  cases method with
  | gaussNewton =>
    refine together_get ?_
    rw [h.quiet.cost_eq]
    refine (together_report h _ _).bind fun _ s' t' _ h' => ?_
    split
    · exact together_result h' _ _
    · exact together_loop ho .gaussNewton _ h'
  | levenbergMarquardt =>
    refine together_get ?_
    rw [h.quiet.cost_eq, h.quiet.damping_eq]
    refine (together_report h _ _).bind fun _ s' t' _ h' => ?_
    split
    · exact together_result h' _ _
    · exact together_loop ho .levenbergMarquardt _ h'

end Optimizer

end LeastSquares
