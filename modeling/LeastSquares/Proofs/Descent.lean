/-
  LeastSquares/Proofs/Descent.lean
  ================================
  **How the cost goes down during an optimization.**

  Damped steps never make the cost greater, whatever the solver answers, and a loop that has ended tells
  by its termination how its counters, its history and its damping stand to each other.  Over exact
  numbers every step but the last of a loop also lowers the cost by the thresholds of the settings, or
  else the loop would have ended with it; so the number of rounds is bounded without the limit on rounds.
-/
import LeastSquares.Proofs.CheckedSettings
import LeastSquares.Proofs.OptimizerRecord

namespace LeastSquares

/-- Settings that are read have a bound on the cost that is not below zero. -/
theorem Parameters.sumError_nonneg {fields : List (String × Given ℝ)} {p : Parameters ℝ}
    (h : read fields = .ok p) : 0 ≤ p.sumError :=
  Setting.allows_of_field .nonnegative le_rfl (read_eq_ok_iff.mp h).sumError

namespace Convergence

theorem check_of_le {α : Type} [Scalar α] (t : Thresholds α) {new : α} (h : new ≤ t.sumError)
    (old : α) (verbosity : ℤ) : (check t old new verbosity).1 = .ok true := by
  rw [check, if_pos h]

/-- A step from one cost to another makes progress: the cost has gone down by both thresholds, and not
    yet to the bound. -/
structure Progress (t : Thresholds ℝ) (old new : ℝ) : Prop where
  unsolved : t.sumError < new
  le : new ≤ old
  absolute : t.absoluteDecrease ≤ old - new
  relative : t.relativeDecrease * old ≤ old - new

/-- From a cost above zero there is always a decision, and only progress lets the optimization go on. -/
theorem check_of_pos (t : Thresholds ℝ) {old : ℝ} (hold : 0 < old) (new : ℝ) (verbosity : ℤ) :
    ∃ ends, (check t old new verbosity).1 = .ok ends ∧ (ends = false → Progress t old new) := by
  have hnonzero : ¬ Scalar.isZero old = true := by
    rw [Scalar.isZero_real, decide_eq_true_eq]
    exact hold.ne'
  by_cases hreached : new ≤ t.sumError
  · exact ⟨true, check_of_le t hreached old verbosity, nofun⟩
  by_cases hincreased : old - new < 0
  · exact ⟨true, by rw [check, if_neg hreached, if_pos hincreased], nofun⟩
  by_cases habsolute : old - new < t.absoluteDecrease
  · exact ⟨true, by rw [check, if_neg hreached, if_neg hincreased, if_pos habsolute], nofun⟩
  by_cases hrelative : (old - new) / old < t.relativeDecrease
  · refine ⟨true, ?_, nofun⟩
    rw [check, if_neg hreached, if_neg hincreased, if_neg habsolute, if_neg hnonzero,
      if_pos hrelative]
  · refine ⟨false, ?_, fun _ => ⟨not_le.mp hreached, ?_, not_lt.mp habsolute, ?_⟩⟩
    · rw [check, if_neg hreached, if_neg hincreased, if_neg habsolute, if_neg hnonzero,
        if_neg hrelative]
    · exact sub_nonneg.mp (not_lt.mp hincreased)
    · exact (le_div_iff₀ hold).mp (not_lt.mp hrelative)

theorem Progress.check_eq {t : Thresholds ℝ} {old new : ℝ} (h : Progress t old new) (hold : 0 < old)
    (verbosity : ℤ) : (check t old new verbosity).1 = .ok false := by
  have hnonzero : ¬ Scalar.isZero old = true := by
    rw [Scalar.isZero_real, decide_eq_true_eq]
    exact hold.ne'
  rw [check, if_neg (not_le.mpr h.unsolved), if_neg (not_lt.mpr (sub_nonneg.mpr h.le)),
    if_neg (not_lt.mpr h.absolute), if_neg hnonzero,
    if_neg (not_lt.mpr ((le_div_iff₀ hold).mpr h.relative))]

variable {t : Thresholds ℝ} {first : ℝ} {costs : List ℝ}

/-- Progress keeps all costs above the bound. -/
theorem unsolved_of_isChain (h : (first :: costs).IsChain (Progress t)) (hfirst : t.sumError < first) :
    ∀ cost ∈ first :: costs, t.sumError < cost :=
  h.induction _ _ (fun _ _ hprogress _ => hprogress.unsolved) fun _ => hfirst

/-- Each step that makes progress takes its part of what the cost goes down by. -/
theorem length_mul_le_of_isChain (h : (first :: costs).IsChain (Progress t)) :
    costs.length * t.absoluteDecrease ≤ first - costs.getLastD first := by
  induction costs generalizing first with
  | nil => simp
  | cons cost costs ih =>
    obtain ⟨hprogress, hrest⟩ := List.isChain_cons_cons.mp h
    have habsolute := hprogress.absolute
    have hlater := ih hrest
    rw [List.getLastD_cons, List.length_cons]
    push_cast
    linarith

end Convergence

namespace Optimizer

variable {σ α : Type} [Scalar α] {o : Optimizer σ α} {method : Method} {left : ℕ}
  {s t : OptimizerState σ α} {steps : List (Values α × α)} {result : OptimizerResult α}
  {r : Except Error (OptimizerResult α) × OptimizerState σ α}

/-! ### How a loop ends -/

/-- How the result of a loop stands to the state it started in and the steps that it accepted. -/
structure Ended (o : Optimizer σ α) (left : ℕ) (s : OptimizerState σ α)
    (steps : List (Values α × α)) (t : OptimizerState σ α) (result : OptimizerResult α) : Prop where
  outcome_eq : result = outcome t result.converged result.termination
  converged_iff : result.converged = true ↔ result.termination = .converged
  not_sumError : result.termination ≠ .sumError
  within : t.iterations ≤ s.iterations + left
  counted : result.termination ≠ .lambdaUpperBound → t.iterations = s.iterations + steps.length
  exhausted : result.termination = .lambdaUpperBound →
    t.iterations = s.iterations + steps.length + 1 ∧ o.parameters.lambdaUpperBound < t.damping

theorem Ended.continued {step : Values α × α} (h : o.Ended left t steps r.2 result)
    (hcount : t.iterations = s.iterations + 1) :
    o.Ended (left + 1) s (step :: steps) r.2 result := by
  have hwithin := h.within
  refine ⟨h.outcome_eq, h.converged_iff, h.not_sumError, by omega, fun hnot => ?_, fun hbound => ?_⟩
  · have hsteps := h.counted hnot
    rw [List.length_cons]
    omega
  · obtain ⟨hsteps, hdamping⟩ := h.exhausted hbound
    rw [List.length_cons]
    exact ⟨by omega, hdamping⟩

theorem LoopRun.ended (h : o.LoopRun method left s steps r) (hresult : r.1 = .ok result) :
    o.Ended left s steps r.2 result := by
  induction h with
  | spent s =>
    cases hresult
    exact ⟨rfl, by simp [outcome], by simp [outcome], by simp, by simp, by simp [outcome]⟩
  | failed e _ => cases hresult
  | exhausted _ _ hcount hbound =>
    cases hresult
    exact ⟨rfl, by simp [outcome], by simp [outcome], by simp [hcount],
      fun hnot => (hnot rfl).elim, fun _ => ⟨hcount, hbound⟩⟩
  | undecided e _ _ => cases hresult
  | settled haccepts _ =>
    cases hresult
    have hcount := haccepts.counted
    exact ⟨rfl, by simp [outcome], by simp [outcome], by simp [hcount], fun _ => hcount,
      by simp [outcome]⟩
  | continued haccepts _ _ ih => exact (ih hresult).continued haccepts.counted

/-! ### Damped steps -/

/-- The costs of an optimization at its start and after each accepted step. -/
def costs (s : OptimizerState σ α) (steps : List (Values α × α)) : List α :=
  s.cost :: steps.map Prod.snd

theorem LoopRun.isChain_costs {R : α → α → Prop} (h : o.LoopRun method left s steps r)
    (hR : ∀ old new, method.Admits old new → R old new) : (costs s steps).IsChain R := by
  induction h with
  | spent s => exact .singleton _
  | failed e _ => exact .singleton _
  | exhausted _ _ _ _ => exact .singleton _
  | undecided e haccepts _ => exact .cons_cons (hR _ _ haccepts.admits) (.singleton _)
  | settled haccepts _ => exact .cons_cons (hR _ _ haccepts.admits) (.singleton _)
  | @continued left s t step steps r haccepts _ _ ih =>
    have hcost : t.cost = step.2 := congrArg Prod.snd haccepts.current
    rw [costs, hcost] at ih
    exact .cons_cons (hR _ _ haccepts.admits) ih

/-! ### Whole runs -/

/-- A run ends at once when the cost has come down already, and is a run of the loop otherwise. -/
theorem run_cases (o : Optimizer σ α) (method : Method) (s : OptimizerState σ α) :
    (s.cost ≤ o.parameters.sumError ∧ o.acceptedBy s (.optimize method) = [] ∧
      (method.run o).run s = (.ok (outcome (o.opened method s) true .sumError), o.opened method s)) ∨
    (¬ s.cost ≤ o.parameters.sumError ∧
      o.LoopRun method o.parameters.maxIterations (o.opened method s)
        (o.acceptedBy s (.optimize method)) ((method.run o).run s)) := by
  rw [run_method, acceptedBy]
  by_cases hsolved : s.cost ≤ o.parameters.sumError
  · rw [if_pos hsolved, if_pos hsolved]
    exact .inl ⟨hsolved, rfl, rfl⟩
  · rw [if_neg hsolved, if_neg hsolved]
    exact .inr ⟨hsolved, o.loop_run method _ _⟩

/-- A first round that brings the cost down to the bound is the only one. -/
theorem run_of_first_round (method : Method) (hnot : ¬ s.cost ≤ o.parameters.sumError)
    (hmax : 0 < o.parameters.maxIterations)
    (hround : (o.round method).run (o.opened method s) = (.ok true, t))
    (hle : t.cost ≤ o.parameters.sumError) :
    ((method.run o).run s).1 = .ok (outcome t true .converged) := by
  obtain ⟨left, hleft⟩ := Nat.exists_eq_succ_of_ne_zero hmax.ne'
  obtain ⟨u, hsettled, hquiet⟩ := o.settled_quiet (o.opened method s).cost t
  rw [Convergence.check_of_le _ hle] at hsettled
  rw [run_method, if_neg hnot, hleft, loop_succ]
  simp only [run_bind, run_get, hround, hsettled, if_true, run_result]
  rw [hquiet]
  rfl

theorem run_advances (o : Optimizer σ α) (method : Method) (s : OptimizerState σ α) :
    Advances s ((method.run o).run s).2 (o.acceptedBy s (.optimize method)) := by
  have hadvances := (o.perform_advances s (.optimize method)).1
  rwa [perform, run_forget] at hadvances

/-- How the result of a whole run stands to the steps that it accepted. -/
inductive Finished (o : Optimizer σ α) (s : OptimizerState σ α) (steps : List (Values α × α))
    (t : OptimizerState σ α) (result : OptimizerResult α) : Prop
  | atOnce : s.cost ≤ o.parameters.sumError → steps = [] → t.iterations = s.iterations →
      result = outcome t true .sumError → Finished o s steps t result
  | byLoop : ¬ s.cost ≤ o.parameters.sumError →
      o.Ended o.parameters.maxIterations s steps t result → Finished o s steps t result

theorem run_finished (hresult : ((method.run o).run s).1 = .ok result) :
    o.Finished s (o.acceptedBy s (.optimize method)) ((method.run o).run s).2 result := by
  rcases o.run_cases method s with ⟨hsolved, hsteps, hrun⟩ | ⟨hnot, hrun⟩
  · rw [hrun] at hresult ⊢
    cases hresult
    exact .atOnce hsolved hsteps rfl rfl
  · obtain ⟨houtcome, hconverged, hother, hwithin, hcounted, hexhausted⟩ := hrun.ended hresult
    exact .byLoop hnot ⟨houtcome, hconverged, hother, hwithin, hcounted, hexhausted⟩

theorem Finished.outcome_eq (h : o.Finished s steps t result) :
    result = outcome t result.converged result.termination := by
  cases h with
  | atOnce _ _ _ houtcome => rw [houtcome]; rfl
  | byLoop _ hended => exact hended.outcome_eq

theorem Finished.sumError_iff (h : o.Finished s steps t result) :
    result.termination = .sumError ↔ s.cost ≤ o.parameters.sumError := by
  cases h with
  | atOnce hsolved _ _ houtcome => simp [houtcome, outcome, hsolved]
  | byLoop hnot hended => simp [hended.not_sumError, hnot]

theorem Finished.converged_iff (h : o.Finished s steps t result) :
    result.converged = true ↔ result.termination = .sumError ∨ result.termination = .converged := by
  cases h with
  | atOnce _ _ _ houtcome => simp [houtcome, outcome]
  | byLoop _ hended => rw [hended.converged_iff, or_iff_right hended.not_sumError]

theorem Finished.counted (h : o.Finished s steps t result)
    (hnot : result.termination ≠ .lambdaUpperBound) :
    t.iterations = s.iterations + steps.length := by
  cases h with
  | atOnce _ hsteps hcount _ => rw [hcount, hsteps, List.length_nil, add_zero]
  | byLoop _ hended => exact hended.counted hnot

theorem Finished.exhausted (h : o.Finished s steps t result)
    (hbound : result.termination = .lambdaUpperBound) :
    t.iterations = s.iterations + steps.length + 1 ∧ o.parameters.lambdaUpperBound < t.damping := by
  cases h with
  | atOnce _ _ _ houtcome =>
    rw [houtcome] at hbound
    cases hbound
  | byLoop _ hended => exact hended.exhausted hbound

theorem Finished.within (h : o.Finished s steps t result) :
    t.iterations ≤ s.iterations + o.parameters.maxIterations := by
  cases h with
  | atOnce _ _ hcount _ => omega
  | byLoop _ hended => exact hended.within

theorem run_isChain {R : α → α → Prop} (o : Optimizer σ α) (method : Method)
    (s : OptimizerState σ α) (hR : ∀ old new, method.Admits old new → R old new) :
    (costs s (o.acceptedBy s (.optimize method))).IsChain R := by
  rcases o.run_cases method s with ⟨-, hsteps, -⟩ | ⟨-, hrun⟩
  · rw [hsteps]
    exact .singleton _
  · exact hrun.isChain_costs hR

theorem getLastD_le_of_isChain (htrans : ∀ a b c : α, a ≤ b → b ≤ c → a ≤ c) {first : α}
    {costs : List α} (h : (first :: costs).IsChain fun old new => new ≤ old) :
    costs.getLastD first = first ∨ costs.getLastD first ≤ first := by
  have : IsTrans α fun old new => new ≤ old := ⟨fun a b c hab hbc => htrans c b a hbc hab⟩
  rcases List.mem_cons.mp (List.getLastD_mem_cons (l := costs) (a := first)) with heq | hmem
  · exact .inl heq
  · exact .inr (h.rel_cons hmem)

end Optimizer

/-! ### The held number, by damped steps -/

namespace Anchor

open Optimizer

theorem trial_eq (linear : LinearGraph ℝ) (damping : ℝ) (reports : List (Report ℝ)) :
    ∃ later, (optimizer.trial linear damping).run (state true reports)
      = (.ok (estimate 0, 0), state true later) := by
  obtain ⟨cost, later, hcost, hrun⟩ : ∃ cost later,
      graph.cost ⟨[(.number 0, [1 + -1])]⟩ = .ok cost ∧
      (optimizer.trial linear damping).run (state true reports)
        = (.ok (⟨[(.number 0, [1 + -1])]⟩, cost), state true later) := ⟨_, _, rfl, rfl⟩
  rw [moved_eq, graph_cost] at hcost
  cases hcost
  rw [moved_eq] at hrun
  exact ⟨later, by simpa using hrun⟩

theorem round_eq (reports : List (Report ℝ)) :
    ∃ damping later, (optimizer.round .levenbergMarquardt).run (state true reports)
      = (.ok true, ⟨estimate 0, 0, damping, 1, [0.5, 0], true, later⟩) := by
  obtain ⟨linear, linearized, hlinearize⟩ : ∃ linear later,
      optimizer.linearize.run (state true reports) = (.ok linear, state true later) := ⟨_, _, rfl⟩
  obtain ⟨tried, htrial⟩ := trial_eq linear (state true linearized).damping linearized
  have hadmitted :
      (Scalar.isFinite (0 : ℝ) && decide ((0 : ℝ) ≤ (state true tried).cost)) = true := by
    rw [Scalar.isFinite_real]
    norm_num [state]
  simp only [Optimizer.round, run_bind, hlinearize, tryLambda, run_get, trialBound, tryDampings_succ,
    htrial, hadmitted]
  exact ⟨_, _, rfl⟩

theorem run_levenbergMarquardt : ∃ damping, (optimizer.levenbergMarquardt.run (state true [])).1
    = .ok ⟨estimate 0, 0, 1, damping, true, .converged, [0.5, 0]⟩ := by
  have hnot : ¬ (state true []).cost ≤ optimizer.parameters.sumError := by
    norm_num [state, optimizer, Parameters.standard]
  obtain ⟨reports, hopened⟩ : ∃ reports,
      optimizer.opened .levenbergMarquardt (state true []) = state true reports := ⟨_, rfl⟩
  obtain ⟨damping, later, hround⟩ := round_eq reports
  rw [← hopened] at hround
  exact ⟨damping, run_of_first_round .levenbergMarquardt hnot (show 0 < 100 by decide) hround le_rfl⟩

end Anchor

namespace Optimizer

/-! ### Runs from the beginning -/

variable {σ α : Type} [Scalar α] {o : Optimizer σ α} {s : OptimizerState σ α}
  {result : OptimizerResult α} {graph : Graph α} {values : Values α} {order : EliminationOrder}
  {solver : LinearSolver σ α} {memory : σ} {parameters : Parameters α}

/-- The history of a run from the beginning. -/
theorem run_history (h : start graph values order solver memory parameters = .ok (o, s))
    (method : Method) : ((method.run o).run s).2.history
      = costs s (o.acceptedBy s (.optimize method)) := by
  obtain ⟨-, -, hs⟩ := start_eq_ok h
  rw [(o.run_advances method s).history, costs, hs]
  rfl

/-- **Damped steps never make the cost greater**, whatever the solver answers.  The result of a run from
    the beginning is that of the last accepted step, and its counters and its flag stand to its
    history as its termination says; only when the damping has passed its bound, which it has then, has
    there been a round without a step.  Of the order nothing but its transitivity is used, so a first
    cost that is no number is allowed: then no step is accepted. -/
theorem levenbergMarquardt_descends (htrans : ∀ a b c : α, a ≤ b → b ≤ c → a ≤ c)
    (h : start graph values order solver memory parameters = .ok (o, s))
    (hresult : (o.levenbergMarquardt.run s).1 = .ok result) :
    let steps := o.acceptedBy s (.optimize .levenbergMarquardt)
    graph.cost values = .ok s.cost ∧
    result.history = s.cost :: steps.map Prod.snd ∧
    (result.values, result.cost) = steps.getLastD (values, s.cost) ∧
    result.history.IsChain (fun old new => new ≤ old) ∧
    (result.cost = s.cost ∨ result.cost ≤ s.cost) ∧
    result.iterations ≤ parameters.maxIterations ∧
    (result.termination ≠ .lambdaUpperBound → result.history.length = result.iterations + 1) ∧
    (result.termination = .lambdaUpperBound → result.history.length = result.iterations ∧
      parameters.lambdaUpperBound < result.damping) ∧
    (result.converged = true ↔
      result.termination = .sumError ∨ result.termination = .converged) ∧
    (result.termination = .sumError ↔ s.cost ≤ parameters.sumError) := by
  intro steps
  obtain ⟨ho, hcost, hs⟩ := start_eq_ok h
  obtain rfl : o.parameters = parameters := congrArg Optimizer.parameters ho
  have hvalues : s.values = values := congrArg OptimizerState.values hs
  have hzero : s.iterations = 0 := congrArg OptimizerState.iterations hs
  have hmethod : ((Method.levenbergMarquardt.run o).run s).1 = .ok result := hresult
  have hfinished : o.Finished s steps _ result := run_finished hmethod
  have hadvances : Advances s _ steps := o.run_advances .levenbergMarquardt s
  have hhistory : _ = costs s steps := run_history h .levenbergMarquardt
  have hchain : (costs s steps).IsChain fun old new => new ≤ old :=
    o.run_isChain .levenbergMarquardt s fun _ _ hadmits => hadmits.2
  have hoverall := getLastD_le_of_isChain htrans hchain
  generalize ((Method.levenbergMarquardt.run o).run s).2 = t at hfinished hadvances hhistory
  obtain ⟨hresult, hcurrent⟩ : result.history = costs s steps ∧
      (result.values, result.cost) = steps.getLastD (values, s.cost) := by
    rw [hfinished.outcome_eq, ← hvalues]
    exact ⟨hhistory, hadvances.current⟩
  have hiterations : result.iterations = t.iterations := by rw [hfinished.outcome_eq]; rfl
  have hdamping : result.damping = t.damping := by rw [hfinished.outcome_eq]; rfl
  have hlast : result.cost = t.cost := by rw [hfinished.outcome_eq]; rfl
  have hlength : result.history.length = steps.length + 1 := by
    rw [hresult, costs, List.length_cons, List.length_map]
  refine ⟨hcost, hresult, hcurrent, hresult ▸ hchain, ?_, ?_, ?_, ?_, hfinished.converged_iff,
    hfinished.sumError_iff⟩
  · rw [hlast, hadvances.cost_eq]
    exact hoverall
  · have hwithin := hfinished.within
    omega
  · intro hnot
    have hcounted := hfinished.counted hnot
    omega
  · intro hbound
    obtain ⟨hcounted, hgreater⟩ := hfinished.exhausted hbound
    exact ⟨by omega, hdamping ▸ hgreater⟩

/-- The held number is brought to zero by one damped step. -/
theorem levenbergMarquardt_descends_anchor :
    start Anchor.graph (Anchor.estimate 1) Anchor.order Anchor.solver true Parameters.standard
      = .ok (Anchor.optimizer, Anchor.state true []) ∧
    ∃ result, (Anchor.optimizer.levenbergMarquardt.run (Anchor.state true [])).1 = .ok result ∧
      result.history = [0.5, 0] ∧ result.history.IsChain (fun old new => new ≤ old) ∧
      (result.cost = 0.5 ∨ result.cost ≤ 0.5) ∧
      result.history.length = result.iterations + 1 ∧
      (result.converged = true ↔
        result.termination = .sumError ∨ result.termination = .converged) := by
  have hstart := Anchor.start_eq true
  obtain ⟨damping, hrun⟩ := Anchor.run_levenbergMarquardt
  obtain ⟨-, -, -, hchain, hle, -, hlength, -, hconverged, -⟩ :=
    levenbergMarquardt_descends (fun a b c : ℝ => le_trans) hstart hrun
  exact ⟨hstart, _, hrun, rfl, hchain, hle, hlength nofun, hconverged⟩

/-! ### Progress -/

section Progress

open Convergence

variable {σ : Type} {o : Optimizer σ ℝ} {method : Method} {left : ℕ} {s : OptimizerState σ ℝ}
  {steps : List (Values ℝ × ℝ)} {r : Except Error (OptimizerResult ℝ) × OptimizerState σ ℝ}

/-- How far a loop goes on: after steps that make progress, and from the last of them by one more step or
    round at most. -/
structure GoesOn (o : Optimizer σ ℝ) (s : OptimizerState σ ℝ) (steps : List (Values ℝ × ℝ))
    (r : Except Error (OptimizerResult ℝ) × OptimizerState σ ℝ)
    (kept last : List (Values ℝ × ℝ)) : Prop where
  steps_eq : steps = kept ++ last
  atMostOne : last.length ≤ 1
  progress : (costs s kept).IsChain (Progress (.ofParameters o.parameters))
  counted : ∀ result, r.1 = .ok result → r.2.iterations ≤ s.iterations + kept.length + 1

theorem LoopRun.goesOn (h : o.LoopRun method left s steps r) (hsum : 0 ≤ o.parameters.sumError)
    (hs : o.parameters.sumError < s.cost) : ∃ kept last, o.GoesOn s steps r kept last := by
  induction h with
  | spent s => exact ⟨[], [], rfl, by simp, .singleton _, fun _ _ => by simp⟩
  | failed e _ => exact ⟨[], [], rfl, by simp, .singleton _, nofun⟩
  | exhausted _ _ hcount _ => exact ⟨[], [], rfl, by simp, .singleton _, fun _ _ => by simp [hcount]⟩
  | @undecided _ _ _ step e _ _ => exact ⟨[], [step], rfl, by simp, .singleton _, nofun⟩
  | @settled _ _ _ step haccepts _ =>
    exact ⟨[], [step], rfl, by simp, .singleton _, fun _ _ => by simp [haccepts.counted]⟩
  | @continued left s t step steps r haccepts hdecision _ ih =>
    have hcost : t.cost = step.2 := congrArg Prod.snd haccepts.current
    -- the loop went on, so the cost was above the bound and has gone down by the thresholds
    obtain ⟨ends, hends, hprogress⟩ := check_of_pos (.ofParameters o.parameters) (hsum.trans_lt hs)
      step.2 o.parameters.verbosity.level
    rw [decision, hends, Except.ok.injEq] at hdecision
    have hprogress := hprogress hdecision
    obtain ⟨kept, last, rfl, hlast, hchain, hcounted⟩ := ih (hcost ▸ hprogress.unsolved)
    rw [costs, hcost] at hchain
    refine ⟨step :: kept, last, rfl, hlast, .cons_cons hprogress hchain, fun result hresult => ?_⟩
    have hbound := hcounted result hresult
    rw [haccepts.counted] at hbound
    rw [List.length_cons]
    omega

theorem GoesOn.dropLast_isPrefix {kept last : List (Values ℝ × ℝ)} (h : o.GoesOn s steps r kept last) :
    (costs s steps).dropLast <+: costs s kept := by
  obtain ⟨rfl, hlast, -, -⟩ := h
  cases last with
  | nil =>
    rw [List.append_nil]
    exact List.dropLast_prefix _
  | cons step more =>
    obtain rfl : more = [] := List.eq_nil_of_length_eq_zero (by simpa using hlast)
    have hcosts : costs s (kept ++ [step]) = costs s kept ++ [step.2] := by simp [costs]
    rw [hcosts, List.dropLast_concat]

theorem GoesOn.iterations_le {kept last : List (Values ℝ × ℝ)} (h : o.GoesOn s steps r kept last)
    (hs : o.parameters.sumError < s.cost) (habsolute : 0 < o.parameters.absoluteDecrease)
    {result : OptimizerResult ℝ} (hresult : r.1 = .ok result) :
    (r.2.iterations : ℝ) ≤ s.iterations + 1
      + (s.cost - o.parameters.sumError) / o.parameters.absoluteDecrease := by
  have hlast : o.parameters.sumError < (kept.map Prod.snd).getLastD s.cost :=
    unsolved_of_isChain h.progress hs _ List.getLastD_mem_cons
  have htotal : kept.length * o.parameters.absoluteDecrease
      ≤ s.cost - (kept.map Prod.snd).getLastD s.cost := by
    simpa only [List.length_map, Thresholds.ofParameters] using length_mul_le_of_isChain h.progress
  have hkept : (kept.length : ℝ)
      ≤ (s.cost - o.parameters.sumError) / o.parameters.absoluteDecrease := by
    rw [le_div_iff₀ habsolute]
    linarith
  have hcounted : (r.2.iterations : ℝ) ≤ s.iterations + kept.length + 1 := by
    exact_mod_cast h.counted result hresult
  linarith

variable {graph : Graph ℝ} {values : Values ℝ} {order : EliminationOrder}
  {solver : LinearSolver σ ℝ} {memory : σ} {parameters : Parameters ℝ}

theorem costs_progress (hsum : 0 ≤ o.parameters.sumError) (method : Method) :
    let kept := (costs s (o.acceptedBy s (.optimize method))).dropLast
    kept.IsChain (Progress (.ofParameters o.parameters)) ∧
      ∀ cost ∈ kept, o.parameters.sumError < cost := by
  intro kept
  rcases o.run_cases method s with ⟨-, hsteps, -⟩ | ⟨hnot, hrun⟩
  · have hkept : kept = [] := by
      simp only [kept, hsteps]
      rfl
    rw [hkept]
    exact ⟨.nil, by simp⟩
  · have hs : o.parameters.sumError < s.cost := not_le.mp hnot
    obtain ⟨_, _, hgoes⟩ := hrun.goesOn hsum hs
    obtain ⟨rest, hrest⟩ := hgoes.dropLast_isPrefix
    have hchain := hgoes.progress
    rw [← hrest] at hchain
    refine ⟨hchain.left_of_append, fun cost hcost => ?_⟩
    have hmem : cost ∈ costs s _ := hrest ▸ List.mem_append_left rest hcost
    exact unsolved_of_isChain hgoes.progress hs cost hmem

theorem isChain_of_dropLast {β : Type} {R : β → β → Prop} {xs : List β}
    (h : ∀ x ∈ xs.dropLast, ∀ y, R x y) : xs.IsChain R := by
  rw [List.isChain_iff_forall_rel_of_append_cons_cons]
  rintro x y before after rfl
  exact h x (by simp) y

/-- **Every accepted step but the last makes progress**, in both loops and whatever the solver answers:
    it leaves a cost above the bound and lowers the cost by both thresholds, so none but the last
    can make it greater.  The decision after a step never divides by zero, because the cost before it
    is above zero.  The number of rounds is bounded by what the cost can go down, whatever the
    limit on rounds is. -/
theorem run_progresses (hsum : 0 ≤ parameters.sumError)
    (h : start graph values order solver memory parameters = .ok (o, s)) (method : Method) :
    let steps := o.acceptedBy s (.optimize method)
    let t := ((method.run o).run s).2
    t.history = s.cost :: steps.map Prod.snd ∧
    t.history.dropLast.IsChain (Progress (.ofParameters parameters)) ∧
    (∀ cost ∈ t.history.dropLast, parameters.sumError < cost) ∧
    t.history.IsChain (fun old new => 0 < old ∧ ∃ ends, o.decision old new = .ok ends) ∧
    ∀ result, ((method.run o).run s).1 = .ok result →
      result.history = t.history ∧
      (0 < parameters.absoluteDecrease → parameters.sumError < s.cost →
        (result.iterations : ℝ)
          ≤ 1 + (s.cost - parameters.sumError) / parameters.absoluteDecrease) := by
  intro steps t
  obtain ⟨ho, -, hs⟩ := start_eq_ok h
  obtain rfl : o.parameters = parameters := congrArg Optimizer.parameters ho
  have hzero : s.iterations = 0 := congrArg OptimizerState.iterations hs
  have hhistory : t.history = costs s steps := run_history h method
  obtain ⟨hprogress, hunsolved⟩ := costs_progress (s := s) hsum method
  rw [← run_history h method] at hprogress hunsolved
  refine ⟨hhistory, hprogress, hunsolved, isChain_of_dropLast fun old hold new => ?_,
    fun result hresult => ?_⟩
  · have hpos : 0 < old := hsum.trans_lt (hunsolved old hold)
    obtain ⟨ends, hends, -⟩ := check_of_pos (.ofParameters o.parameters) hpos new
      o.parameters.verbosity.level
    exact ⟨hpos, ends, hends⟩
  · have houtcome := (run_finished hresult).outcome_eq
    refine ⟨by rw [houtcome]; rfl, fun habsolute hinitial => ?_⟩
    rcases o.run_cases method s with ⟨hsolved, -, -⟩ | ⟨-, hrun⟩
    · exact absurd hsolved (not_le.mpr hinitial)
    · obtain ⟨_, _, hgoes⟩ := hrun.goesOn hsum hinitial
      have hbound := hgoes.iterations_le hinitial habsolute hresult
      have hopened : (o.opened method s).iterations = 0 := hzero
      rw [hopened, Nat.cast_zero, zero_add] at hbound
      rw [houtcome]
      exact hbound

/-- The held number is brought to zero in one round of at most fifty thousand and one. -/
theorem run_progresses_anchor :
    (0 : ℝ) ≤ Parameters.standard.sumError ∧
    start Anchor.graph (Anchor.estimate 1) Anchor.order Anchor.solver true Parameters.standard
      = .ok (Anchor.optimizer, Anchor.state true []) ∧
    ∃ result,
      ((Method.levenbergMarquardt.run Anchor.optimizer).run (Anchor.state true [])).1 = .ok result ∧
      result.history = [0.5, 0] ∧ (result.iterations : ℝ) ≤ 1 + (0.5 - 0) / 1e-5 := by
  have hstart := Anchor.start_eq true
  obtain ⟨damping, hrun⟩ := Anchor.run_levenbergMarquardt
  have hread : Parameters.read ([] : List (String × Given ℝ)) = .ok Parameters.standard := rfl
  have hsum := Parameters.sumError_nonneg hread
  obtain ⟨-, -, -, -, hresult⟩ := run_progresses hsum hstart .levenbergMarquardt
  obtain ⟨-, hbound⟩ := hresult _ hrun
  refine ⟨hsum, hstart, _, hrun, rfl, hbound ?_ ?_⟩
  · norm_num [Parameters.standard]
  · norm_num [Parameters.standard, Anchor.state]

end Progress

end Optimizer

end LeastSquares
