/-
  LeastSquares/Proofs/DampingBounds.lean
  ======================================
  **How the damping moves in a whole optimization.**

  A damped optimization is a list of trials: each asks the solver about a linear problem with a damping,
  and its verdict decides about the next damping.  The list accounts for the optimization: it tells what
  the solver has been asked, how the damping has moved, and which steps have been accepted.  A verdict
  that accepts does not make the damping greater, unless the lower bound of the bounded mode does.
-/
import LeastSquares.Proofs.DampedProblems
import LeastSquares.Proofs.DampingSearch
import LeastSquares.Proofs.ExactBackends
import LeastSquares.Proofs.SolverAgreement

namespace LeastSquares

/-- What becomes of a candidate. -/
inductive Verdict (α : Type) where
  | accepted (step : Values α × α)
  | rejected (step : Values α × α)
  | failed (e : Error)

/-- A trial of a search. -/
structure Trial (α : Type) where
  linear : LinearGraph α
  /-- The damping that the solver is asked with. -/
  damping : α
  verdict : Verdict α

namespace Trial

variable {α : Type}

/-- The step that a trial accepts. -/
def step? (t : Trial α) : Option (Values α × α) :=
  match t.verdict with
  | .accepted step => some step
  | _ => none

variable [Scalar α]

/-- What the solver is asked in a trial. -/
def problem (dims : Table ℕ) (t : Trial α) : LinearGraph α := t.linear.damped t.damping dims

/-- The damping that a trial leaves. -/
def left (p : Parameters α) (t : Trial α) : α :=
  match t.verdict with
  | .accepted _ => Optimizer.dampingAfter p t.damping
  | .rejected _ => t.damping * p.lambdaFactor
  | .failed _ => t.damping

end Trial

namespace Optimizer

variable {σ α : Type} [Scalar α] {o : Optimizer σ α} {s t u : OptimizerState σ α}

/-! ### The trials of an optimization -/

/-- The verdict on the candidate that a problem leads to. -/
def judged (o : Optimizer σ α) (s : OptimizerState σ α) (problem : LinearGraph α) : Verdict α :=
  match o.candidate s problem with
  | .error e => .failed e
  | .ok step =>
    if Scalar.isFinite step.2 && decide (step.2 ≤ s.cost) then .accepted step else .rejected step

/-- The trials of a search, at most a number of them. -/
def searchTrials (o : Optimizer σ α) (linear : LinearGraph α) :
    ℕ → OptimizerState σ α → List (Trial α)
  | 0, _ => []
  | trials + 1, s =>
    let problem := linear.damped s.damping o.dims
    ⟨linear, s.damping, o.judged s problem⟩ ::
      match o.judged s problem with
      | .rejected _ =>
        let greater := s.damping * o.parameters.lambdaFactor
        if o.parameters.lambdaUpperBound < greater then []
        else searchTrials o linear trials { o.asked s problem with damping := greater }
      | _ => []

/-- The trials of a round. -/
def roundTrials (o : Optimizer σ α) (s : OptimizerState σ α) : List (Trial α) :=
  match o.linearize.run s with
  | (.ok linear, t) => o.searchTrials linear (trialBound o.parameters t.damping) t
  | _ => []

/-- The trials of at most a number of rounds. -/
def loopTrials (o : Optimizer σ α) : ℕ → OptimizerState σ α → List (Trial α)
  | 0, _ => []
  | left + 1, s =>
    o.roundTrials s ++
      match (o.round .levenbergMarquardt).run s with
      | (.ok true, t) =>
        match (o.settled s.cost).run t with
        | (.ok false, u) => loopTrials o left u
        | _ => []
      | _ => []

/-- The trials of a damped optimization. -/
def trials (o : Optimizer σ α) (s : OptimizerState σ α) : List (Trial α) :=
  if s.cost ≤ o.parameters.sumError then []
  else o.loopTrials o.parameters.maxIterations (o.opened .levenbergMarquardt s)

/-! ### What trials account for -/

/-- **Trials account for what happens between two states**: the solver has been asked their problems in
    turn, each begins with the damping that is left by the one before, and the steps that they accept are
    those by which the record goes on. -/
structure Accounts (o : Optimizer σ α) (s t : OptimizerState σ α) (trials : List (Trial α)) : Prop where
  asked : t.memory = o.solver.remembers s.memory (trials.map (·.problem o.dims))
  linked : s.damping :: trials.map (·.left o.parameters) = trials.map (·.damping) ++ [t.damping]
  advances : Advances s t (trials.filterMap (·.step?))

/-- Two states differ at most in the number of iterations and in the reports. -/
def Keeps (s t : OptimizerState σ α) : Prop :=
  t = { s with iterations := t.iterations, reports := t.reports }

omit [Scalar α] in
theorem Echoes.keeps (h : Echoes s t) : Keeps s t := by
  rw [Keeps, h]

theorem Keeps.accounts (h : Keeps s t) : o.Accounts s t [] := by
  rw [h]
  exact ⟨rfl, rfl, rfl, (List.append_nil _).symm⟩

theorem Accounts.trans {trials more : List (Trial α)} (h : o.Accounts s t trials)
    (h' : o.Accounts t u more) : o.Accounts s u (trials ++ more) := by
  refine ⟨?_, ?_, ?_⟩
  · rw [h'.asked, h.asked, List.map_append, LinearSolver.remembers, LinearSolver.remembers,
      LinearSolver.remembers, List.foldl_append]
  · rw [List.map_append, List.map_append, ← List.cons_append, h.linked, List.append_assoc,
      List.append_assoc, ← h'.linked]
    rfl
  · rw [List.filterMap_append]
    exact h.advances.trans h'.advances

theorem Accounts.then_keeps {trials : List (Trial α)} (h : o.Accounts s t trials) (h' : Keeps t u) :
    o.Accounts s u trials := by
  have hall := h.trans (h'.accounts (o := o))
  rwa [List.append_nil] at hall

theorem Keeps.then_accounts {trials : List (Trial α)} (h : Keeps s t) (h' : o.Accounts t u trials) :
    o.Accounts s u trials := (h.accounts (o := o)).trans h'

theorem judged_failed {problem : LinearGraph α} {e : Error} (h : o.candidate s problem = .error e) :
    o.judged s problem = .failed e := by rw [judged, h]

theorem judged_accepted {problem : LinearGraph α} {step : Values α × α}
    (h : o.candidate s problem = .ok step)
    (hadmits : Method.levenbergMarquardt.Admits s.cost step.2) :
    o.judged s problem = .accepted step := by
  have hadmitted : (Scalar.isFinite step.2 && decide (step.2 ≤ s.cost)) = true := by
    rw [Bool.and_eq_true, decide_eq_true_eq]
    exact hadmits
  simp only [judged, h, if_pos hadmitted]

theorem judged_rejected {problem : LinearGraph α} (h : o.Rejects s problem) :
    ∃ step, o.judged s problem = .rejected step := by
  obtain ⟨step, hstep, hnot⟩ := h
  have hadmitted : ¬ (Scalar.isFinite step.2 && decide (step.2 ≤ s.cost)) = true := by
    rw [Bool.and_eq_true, decide_eq_true_eq]
    exact hnot
  exact ⟨step, by simp only [judged, hstep, if_neg hadmitted]⟩

theorem Echoes.judged_eq (h : Echoes s t) (problem : LinearGraph α) :
    o.judged t problem = o.judged s problem := by
  rw [judged, judged, h.candidate_eq]
  rw [h]

theorem Echoes.searchTrials_eq (h : Echoes s t) (linear : LinearGraph α) (trials : ℕ) :
    o.searchTrials linear trials t = o.searchTrials linear trials s := by
  induction trials generalizing s t with
  | zero => rfl
  | succ trials ih =>
    have hdamping : t.damping = s.damping := by rw [h]
    have hjudged := h.judged_eq (o := o) (linear.damped s.damping o.dims)
    have hnext := ih (h.change (fun t => { o.asked t (linear.damped s.damping o.dims) with
      damping := s.damping * o.parameters.lambdaFactor }) fun _ _ => rfl)
    simp only [searchTrials, hdamping, hjudged, hnext]

/-! ### Searches -/

/-- A trial accounts for what it does by itself. -/
theorem accounts_trial {linear : LinearGraph α} {verdict : Verdict α}
    (hasked : t.memory = (o.solver.solve s.memory (linear.damped s.damping o.dims)).memory)
    (hleft : t.damping = (⟨linear, s.damping, verdict⟩ : Trial α).left o.parameters)
    (hadvances : Advances s t (⟨linear, s.damping, verdict⟩ : Trial α).step?.toList) :
    o.Accounts s t [⟨linear, s.damping, verdict⟩] := by
  refine ⟨hasked, by rw [hleft]; rfl, ?_⟩
  cases verdict <;> exact hadvances

/-- **The trials of a search account for it.** -/
theorem search_accounts (o : Optimizer σ α) (linear : LinearGraph α) (trials : ℕ)
    (s : OptimizerState σ α) : o.Accounts s ((o.tryDampings linear trials).run s).2
      (o.searchTrials linear trials s) := by
  induction trials generalizing s with
  | zero => exact (Echoes.refl s).keeps.accounts
  | succ trials ih =>
    have htried := o.tryDampings_tried linear trials s
    simp only [searchTrials]
    generalize (o.tryDampings linear (trials + 1)).run s = r at htried ⊢
    cases htried with
    | failed e herror hechoes =>
      simp only [judged_failed herror]
      rw [hechoes]
      exact accounts_trial rfl rfl ⟨rfl, (List.append_nil _).symm⟩
    | accepted step hok hadmits hechoes =>
      simp only [judged_accepted hok hadmits]
      rw [hechoes]
      exact accounts_trial rfl rfl ⟨rfl, rfl⟩
    | exhausted hreject hbound hechoes =>
      obtain ⟨step, hjudged⟩ := judged_rejected hreject
      simp only [hjudged, if_pos hbound]
      rw [hechoes]
      exact accounts_trial rfl rfl ⟨rfl, (List.append_nil _).symm⟩
    | @continued t hreject hbound hechoes =>
      obtain ⟨step, hjudged⟩ := judged_rejected hreject
      simp only [hjudged, if_neg hbound]
      rw [← hechoes.searchTrials_eq]
      have hfirst : o.Accounts s t [⟨linear, s.damping, .rejected step⟩] := by
        rw [hechoes]
        exact accounts_trial rfl rfl ⟨rfl, (List.append_nil _).symm⟩
      exact hfirst.trans (ih t)

/-! ### Rounds and loops -/

theorem linearize_echoes (o : Optimizer σ α) (s : OptimizerState σ α) :
    ∃ t, o.linearize.run s = (o.graph.linearize s.values, t) ∧ Echoes s t := by
  simp only [linearize, run_bind, run_get, run_ofExcept]
  cases o.graph.linearize s.values with
  | error e => exact ⟨s, rfl, .refl s⟩
  | ok linear =>
    obtain ⟨t, hrun, hechoes⟩ := o.reportFrom_echoes .linear (.linearized linear.size) s
    exact ⟨t, by simp only [hrun, run_pure], hechoes⟩

theorem settled_echoes (o : Optimizer σ α) (old : α) (s : OptimizerState σ α) :
    ∃ t, (o.settled old).run s = (o.decision old s.cost, t) ∧ Echoes s t := ⟨_, rfl, rfl⟩

/-- What becomes of a round after its search. -/
theorem round_searched (o : Optimizer σ α) (s : OptimizerState σ α) {linear : LinearGraph α}
    (h : o.linearize.run s = (.ok linear, t)) :
    ∃ u, (o.round .levenbergMarquardt).run s = (((o.tryLambda linear).run t).1, u) ∧
      Keeps ((o.tryLambda linear).run t).2 u := by
  simp only [round, run_bind, h]
  rcases (o.tryLambda linear).run t with ⟨_ | accepted, v⟩
  · exact ⟨v, rfl, rfl⟩
  · cases accepted
    · exact ⟨_, rfl, rfl⟩
    · exact ⟨_, rfl, rfl⟩

/-- A round begins with a trial of the current damping. -/
theorem roundTrials_cons {linear : LinearGraph α} (h : o.graph.linearize s.values = .ok linear) :
    ∃ rest, o.roundTrials s =
      ⟨linear, s.damping, o.judged s (linear.damped s.damping o.dims)⟩ :: rest := by
  obtain ⟨t, hlinearize, hechoes⟩ := o.linearize_echoes s
  rw [h] at hlinearize
  simp only [roundTrials, hlinearize]
  rw [hechoes.searchTrials_eq]
  exact ⟨_, rfl⟩

theorem round_accounts (o : Optimizer σ α) (s : OptimizerState σ α) :
    o.Accounts s ((o.round .levenbergMarquardt).run s).2 (o.roundTrials s) := by
  obtain ⟨t, hlinearize, hechoes⟩ := o.linearize_echoes s
  cases hlinear : o.graph.linearize s.values with
  | error e =>
    rw [hlinear] at hlinearize
    simp only [roundTrials, round, run_bind, hlinearize]
    exact hechoes.keeps.accounts
  | ok linear =>
    rw [hlinear] at hlinearize
    obtain ⟨u, hround, hkeeps⟩ := o.round_searched s hlinearize
    have hsearch := o.search_accounts linear (trialBound o.parameters t.damping) t
    simp only [tryLambda, run_bind, run_get] at hkeeps
    simp only [roundTrials, hlinearize, hround]
    exact hechoes.keeps.then_accounts (hsearch.then_keeps hkeeps)

theorem loop_accounts (o : Optimizer σ α) (left : ℕ) (s : OptimizerState σ α) :
    o.Accounts s ((o.loop .levenbergMarquardt left).run s).2 (o.loopTrials left s) := by
  induction left generalizing s with
  | zero =>
    rw [loop_zero, run_result]
    exact (Echoes.refl s).keeps.accounts
  | succ left ih =>
    have hround := o.round_accounts s
    simp only [loop_succ, run_bind, run_get, loopTrials]
    generalize (o.round .levenbergMarquardt).run s = r at hround ⊢
    obtain ⟨e | accepted, t⟩ := r
    · simpa using hround
    cases accepted with
    | false => simpa using hround
    | true =>
      obtain ⟨u, hsettled, hechoes⟩ := o.settled_echoes s.cost t
      simp only [if_true, run_bind, hsettled]
      cases o.decision s.cost t.cost with
      | error e => simpa using hround.then_keeps hechoes.keeps
      | ok ends =>
        cases ends with
        | true => simpa using hround.then_keeps hechoes.keeps
        | false => exact (hround.then_keeps hechoes.keeps).trans (ih u)

/-- **The trials of a damped optimization account for it.** -/
theorem run_accounts (o : Optimizer σ α) (s : OptimizerState σ α) :
    o.Accounts s (o.levenbergMarquardt.run s).2 (o.trials s) := by
  have hkeeps : Keeps s (o.opened .levenbergMarquardt s) := rfl
  have hrun := o.run_method .levenbergMarquardt s
  simp only [Method.run] at hrun
  rw [hrun, trials]
  split
  · exact hkeeps.accounts
  · exact hkeeps.then_accounts (o.loop_accounts _ _)

/-! ### What all dampings have -/

/-- A property of dampings goes over from each trial to the next. -/
structure PassesOn (p : Parameters α) (P : α → Prop) : Prop where
  accepted : ∀ damping, P damping → P (dampingAfter p damping)
  rejected : ∀ damping, P damping → ¬ p.lambdaUpperBound < damping * p.lambdaFactor →
    P (damping * p.lambdaFactor)

section PassesOn

variable {P : α → Prop} (h : PassesOn o.parameters P)

include h

theorem PassesOn.search (linear : LinearGraph α) (trials : ℕ) (hs : P s.damping) :
    (∀ trial ∈ o.searchTrials linear trials s, P trial.damping) ∧
      (((o.tryDampings linear trials).run s).1 = .ok true →
        P ((o.tryDampings linear trials).run s).2.damping) := by
  induction trials generalizing s with
  | zero => exact ⟨by simp [searchTrials], nofun⟩
  | succ trials ih =>
    have htried := o.tryDampings_tried linear trials s
    simp only [searchTrials, List.forall_mem_cons]
    generalize (o.tryDampings linear (trials + 1)).run s = r at htried ⊢
    cases htried with
    | failed e herror _ =>
      simp only [judged_failed herror]
      exact ⟨⟨hs, by simp⟩, nofun⟩
    | accepted step hok hadmits hechoes =>
      simp only [judged_accepted hok hadmits]
      refine ⟨⟨hs, by simp⟩, fun _ => ?_⟩
      rw [hechoes]
      exact h.accepted _ hs
    | exhausted hreject hbound _ =>
      obtain ⟨step, hjudged⟩ := judged_rejected hreject
      simp only [hjudged, if_pos hbound]
      exact ⟨⟨hs, by simp⟩, nofun⟩
    | @continued t hreject hbound hechoes =>
      obtain ⟨step, hjudged⟩ := judged_rejected hreject
      have hnext : P t.damping := by
        rw [hechoes]
        exact h.rejected _ hs hbound
      simp only [hjudged, if_neg hbound]
      rw [← hechoes.searchTrials_eq]
      exact ⟨⟨hs, (ih hnext).1⟩, (ih hnext).2⟩

theorem PassesOn.round (hs : P s.damping) : (∀ trial ∈ o.roundTrials s, P trial.damping) ∧
    (((o.round .levenbergMarquardt).run s).1 = .ok true →
      P ((o.round .levenbergMarquardt).run s).2.damping) := by
  obtain ⟨t, hlinearize, hechoes⟩ := o.linearize_echoes s
  cases hlinear : o.graph.linearize s.values with
  | error e =>
    rw [hlinear] at hlinearize
    simp only [roundTrials, Optimizer.round, run_bind, hlinearize]
    refine ⟨by simp, fun haccepted => ?_⟩
    cases haccepted
  | ok linear =>
    rw [hlinear] at hlinearize
    obtain ⟨u, hround, hkeeps⟩ := o.round_searched s hlinearize
    have ht : P t.damping := by
      rw [hechoes]
      exact hs
    have hsearch := h.search linear (trialBound o.parameters t.damping) ht
    simp only [tryLambda, run_bind, run_get] at hkeeps hround
    simp only [roundTrials, hlinearize, hround]
    refine ⟨hsearch.1, fun haccepted => ?_⟩
    rw [hkeeps]
    exact hsearch.2 haccepted

theorem PassesOn.loop (left : ℕ) (hs : P s.damping) :
    ∀ trial ∈ o.loopTrials left s, P trial.damping := by
  induction left generalizing s with
  | zero => simp [loopTrials]
  | succ left ih =>
    obtain ⟨htrials, hnext⟩ := h.round hs
    simp only [loopTrials, List.forall_mem_append]
    refine ⟨htrials, ?_⟩
    generalize (o.round .levenbergMarquardt).run s = r at hnext
    obtain ⟨e | accepted, t⟩ := r
    · simp
    cases accepted with
    | false => simp
    | true =>
      obtain ⟨u, hsettled, hechoes⟩ := o.settled_echoes s.cost t
      simp only [hsettled]
      cases o.decision s.cost t.cost with
      | error e => simp
      | ok ends =>
        cases ends with
        | true => simp
        | false =>
          refine ih ?_
          rw [hechoes]
          exact hnext rfl

/-- What the first damping has and each trial passes on, all dampings of an optimization have. -/
theorem PassesOn.trials (hs : P s.damping) : ∀ trial ∈ o.trials s, P trial.damping := by
  rw [Optimizer.trials]
  split
  · simp
  · exact h.loop _ hs

end PassesOn

/-! ### Bounds -/

theorem relaxed_pos {factor damping : ℝ} (mode : DampingMode) (hdamping : 0 < damping)
    (hfactor : 1 < factor) : 0 < relaxed mode factor damping := by
  have hdivided : 0 < damping / factor := div_pos hdamping (by linarith)
  cases mode with
  | cautious => exact hdamping
  | fast => exact hdivided
  | bounded => exact hdivided.trans_le (le_max_left _ _)

/-- An accepted candidate leaves a damping that is no greater, or the lower bound of the bounded mode. -/
theorem relaxed_le_or {factor damping : ℝ} (mode : DampingMode) (hdamping : 0 < damping)
    (hfactor : 1 < factor) : relaxed mode factor damping ≤ damping ∨
      mode = .bounded ∧ damping < 1e-10 ∧ relaxed mode factor damping = 1e-10 := by
  have hdivided : damping / factor ≤ damping := div_le_self hdamping.le hfactor.le
  cases mode with
  | cautious => exact .inl le_rfl
  | fast => exact .inl hdivided
  | bounded =>
    rcases le_or_gt 1e-10 damping with hlarge | hsmall
    · exact .inl (max_le hdivided hlarge)
    · exact .inr ⟨rfl, hsmall, max_eq_right (hdivided.trans hsmall.le)⟩

/-- The greatest damping that a solver may be asked with. -/
noncomputable def dampingCap (mode : DampingMode) (bound : ℝ) : ℝ :=
  if mode = .bounded then max bound 1e-10 else bound

theorem le_dampingCap (mode : DampingMode) (bound : ℝ) : bound ≤ dampingCap mode bound := by
  rw [dampingCap]
  split
  · exact le_max_left _ _
  · exact le_rfl

theorem relaxed_le_dampingCap {factor damping bound : ℝ} {mode : DampingMode} (hdamping : 0 < damping)
    (hfactor : 1 < factor) (hle : damping ≤ dampingCap mode bound) :
    relaxed mode factor damping ≤ dampingCap mode bound := by
  rcases relaxed_le_or mode hdamping hfactor with hno | ⟨rfl, -, heq⟩
  · exact hno.trans hle
  · rw [heq, dampingCap, if_pos rfl]
    exact le_max_right _ _

section Exact

variable {num : ℝ → α} (hnum : Scalar.IsExact num) {p : Parameters α} {factor bound : ℝ}
  (hgrows : 1 < factor) (hfactor : p.lambdaFactor = num factor)

include hnum hgrows hfactor

theorem passesOn_positive : PassesOn p fun d => ∃ x, 0 < x ∧ d = num x := by
  constructor
  · rintro _ ⟨x, hx, rfl⟩
    exact ⟨_, relaxed_pos _ hx hgrows, dampingAfter_eq hnum hfactor (by linarith) x⟩
  · rintro _ ⟨x, hx, rfl⟩ -
    exact ⟨x * factor, mul_pos hx (by linarith), by rw [hfactor, hnum.mul_eq]⟩

theorem passesOn_dampingCap (hbound : p.lambdaUpperBound = num bound) :
    PassesOn p fun d => ∃ x, (0 < x ∧ x ≤ dampingCap p.lambdaMode bound) ∧ d = num x := by
  constructor
  · rintro _ ⟨x, ⟨hx, hle⟩, rfl⟩
    exact ⟨_, ⟨relaxed_pos _ hx hgrows, relaxed_le_dampingCap hx hgrows hle⟩,
      dampingAfter_eq hnum hfactor (by linarith) x⟩
  · rintro _ ⟨x, ⟨hx, -⟩, rfl⟩ hwithin
    rw [hfactor, hnum.mul_eq] at hwithin ⊢
    rw [hbound, hnum.lt_iff, not_lt] at hwithin
    exact ⟨_, ⟨mul_pos hx (by linarith), hwithin.trans (le_dampingCap _ _)⟩, rfl⟩

/-- What a trial makes of its damping. -/
theorem left_eq {trial : Trial α} {x : ℝ} (hx : 0 < x) (hdamping : trial.damping = num x) :
    ∃ y, trial.left p = num y ∧
      (∀ step, trial.verdict = .accepted step →
        y ≤ x ∨ p.lambdaMode = .bounded ∧ x < 1e-10 ∧ y = 1e-10) ∧
      (x < y → (∃ step, trial.verdict = .rejected step) ∨
        p.lambdaMode = .bounded ∧ x < 1e-10 ∧ y = 1e-10) := by
  cases hverdict : trial.verdict with
  | accepted step =>
    have hle := relaxed_le_or p.lambdaMode hx hgrows
    refine ⟨relaxed p.lambdaMode factor x, ?_, fun _ _ => hle, fun hlt => .inr ?_⟩
    · rw [Trial.left, hverdict, hdamping]
      exact dampingAfter_eq hnum hfactor (by linarith) x
    · exact hle.resolve_left (not_le.mpr hlt)
  | rejected step =>
    refine ⟨x * factor, ?_, nofun, fun _ => .inl ⟨step, rfl⟩⟩
    rw [Trial.left, hverdict, hdamping, hfactor]
    exact hnum.mul_eq x factor
  | failed e =>
    refine ⟨x, ?_, nofun, fun hlt => (lt_irrefl x hlt).elim⟩
    rw [Trial.left, hverdict, hdamping]

end Exact

/-- **The damping grows through rejected candidates only**, unless the bounded mode raises a damping below
    its lower bound to that bound.  So an optimization whose first damping is no greater than the upper
    bound never asks its solver with a damping that is greater than the upper bound and, in the bounded
    mode, than the lower one. -/
theorem levenbergMarquardt_bounds_damping {num : ℝ → α} (hnum : Scalar.IsExact num) {graph : Graph α}
    {values : Values α} {order : EliminationOrder} {solver : LinearSolver σ α} {memory : σ}
    {parameters : Parameters α} (hstart : start graph values order solver memory parameters = .ok (o, s))
    {initial factor bound : ℝ} (hpositive : 0 < initial) (hgrows : 1 < factor)
    (hinitial : parameters.lambdaInitial = num initial) (hfactor : parameters.lambdaFactor = num factor)
    (hbound : parameters.lambdaUpperBound = num bound) :
    o.Accounts s (o.levenbergMarquardt.run s).2 (o.trials s) ∧
    (∀ trial ∈ o.trials s, ∃ x y, 0 < x ∧ trial.damping = num x ∧ trial.left parameters = num y ∧
      (∀ step, trial.verdict = .accepted step →
        y ≤ x ∨ parameters.lambdaMode = .bounded ∧ x < 1e-10 ∧ y = 1e-10) ∧
      (x < y → (∃ step, trial.verdict = .rejected step) ∨
        parameters.lambdaMode = .bounded ∧ x < 1e-10 ∧ y = 1e-10)) ∧
    (initial ≤ bound → ∀ trial ∈ o.trials s, ∃ x, trial.damping = num x ∧
      x ≤ if parameters.lambdaMode = .bounded then max bound 1e-10 else bound) := by
  obtain ⟨rfl, -, hs⟩ := start_eq_ok hstart
  have hfirst : s.damping = num initial := by rw [hs, ← hinitial]
  refine ⟨run_accounts _ s, fun trial htrial => ?_, fun hle trial htrial => ?_⟩
  · obtain ⟨x, hx, hdamping⟩ := (passesOn_positive hnum hgrows hfactor).trials
      ⟨initial, hpositive, hfirst⟩ trial htrial
    obtain ⟨y, hleft, haccepted, hgrown⟩ := left_eq hnum hgrows hfactor hx hdamping
    exact ⟨x, y, hx, hdamping, hleft, haccepted, hgrown⟩
  · obtain ⟨x, ⟨-, hcap⟩, hdamping⟩ := (passesOn_dampingCap hnum hgrows hfactor hbound).trials
      ⟨initial, ⟨hpositive, hle.trans (le_dampingCap _ _)⟩, hfirst⟩ trial htrial
    exact ⟨x, hdamping, hcap⟩

end Optimizer

/-! ### Bounds that cross -/

namespace Anchor

open Optimizer

/-- Settings whose bounds on the damping cross: the upper one is below the lower one. -/
noncomputable def crossing : Parameters ℝ :=
  { Parameters.standard with lambdaInitial := 1e-12, lambdaUpperBound := 1e-11, maxIterations := 2 }

noncomputable def crossingOptimizer : Optimizer (Backend ℝ) ℝ :=
  ⟨graph, Backend.solver, crossing, (estimate 1).dims⟩

noncomputable def crossingState : OptimizerState (Backend ℝ) ℝ :=
  ⟨estimate 1, 0.5, 1e-12, 0, [0.5], .sequential sequential, []⟩

theorem start_crossing : start graph (estimate 1) order Backend.solver (.sequential sequential) crossing =
    .ok (crossingOptimizer, crossingState) := start_estimate Backend.solver _ crossing

theorem factor_crossing : crossing.lambdaFactor = 10 := by
  simp only [crossing, Parameters.standard]
  norm_num

/-- The first damping is raised to the lower bound. -/
theorem dampingAfter_crossing : dampingAfter crossing 1e-12 = 1e-10 := by
  have hafter := dampingAfter_eq Scalar.isExact_real factor_crossing (by norm_num) 1e-12
  simp only [id] at hafter
  rw [hafter]
  norm_num [crossing, Parameters.standard, relaxed]

/-- What is left of one after the first step. -/
noncomputable def remainder : ℝ := 1 + -1 / (1 + 1e-12)

theorem remainder_sq : 0 < remainder ^ 2 / 2 ∧ remainder ^ 2 / 2 ≤ 0.1 := by
  norm_num [remainder]

theorem crossing_answered :
    (sequential.solve ((OneNumber.problem (-1)).damped 1e-12 OneNumber.sizes)).result =
      .ok ⟨[(.number 0, [-1 / (1 + 1e-12)])]⟩ :=
  OneNumber.solve_damped_problem (by norm_num) (by norm_num) (by norm_num [Elimination.pivotTolerance])
    none

theorem crossing_leads : crossingOptimizer.Leads (estimate 1) ⟨[(.number 0, [-1 / (1 + 1e-12)])]⟩
    (estimate remainder, remainder ^ 2 / 2) := ⟨rfl, graph_cost remainder⟩

/-- The first step is accepted, the damping is raised to the lower bound, and the cost is not settled. -/
theorem crossing_round {s : OptimizerState (Backend ℝ) ℝ} (hs : Echoes crossingState s) :
    ∃ t u, (crossingOptimizer.round .levenbergMarquardt).run s = (.ok true, t) ∧
      (crossingOptimizer.settled s.cost).run t = (.ok false, u) ∧ u.damping = 1e-10 ∧
      u.values = estimate remainder := by
  obtain ⟨hpositive, hsmall⟩ := remainder_sq
  have hlinear : crossingOptimizer.graph.linearize s.values = .ok (OneNumber.problem (-1)) := by
    rw [hs]
    exact linearize_estimate 1
  have hanswer : (crossingOptimizer.solver.solve s.memory
      (Method.levenbergMarquardt.problem crossingOptimizer s (OneNumber.problem (-1)))).result =
        .ok ⟨[(.number 0, [-1 / (1 + 1e-12)])]⟩ := by
    rw [hs]
    exact crossing_answered
  have hreports : Accepting (crossingOptimizer.solver.solve s.memory
      (Method.levenbergMarquardt.problem crossingOptimizer s (OneNumber.problem (-1)))).reports := by
    rw [hs]
    have hexact : (Backend.sequential sequential).IsExact order (estimate 1).dims := ⟨rfl, rfl⟩
    exact hexact.accepting _
  have hleads : crossingOptimizer.Leads s.values ⟨[(.number 0, [-1 / (1 + 1e-12)])]⟩
      (estimate remainder, remainder ^ 2 / 2) := by
    rw [hs]
    exact crossing_leads
  have hadmits : Method.levenbergMarquardt.Admits s.cost (remainder ^ 2 / 2) := by
    rw [hs]
    exact ⟨Scalar.isFinite_real _, hsmall.trans (by norm_num [crossingState])⟩
  obtain ⟨t, hround, htells⟩ := round_answered hlinear hreports hanswer hleads hadmits
  obtain ⟨u, hsettled, hechoes⟩ := crossingOptimizer.settled_echoes s.cost t
  have hdecision : crossingOptimizer.decision s.cost t.cost = .ok false := by
    have hold : s.cost = 0.5 := by rw [hs]; rfl
    have hnew : t.cost = remainder ^ 2 / 2 := by rw [htells.quiet]; rfl
    have hprogress : Convergence.Progress (.ofParameters crossing) 0.5 (remainder ^ 2 / 2) := by
      refine ⟨hpositive, ?_, ?_, ?_⟩ <;>
        norm_num [crossing, Parameters.standard, Convergence.Thresholds.ofParameters] at hsmall ⊢ <;>
        linarith
    rw [hold, hnew]
    exact hprogress.check_eq (by norm_num) _
  refine ⟨t, u, hround, hdecision ▸ hsettled, ?_, ?_⟩
  · have hdamping : u.damping = dampingAfter crossing 1e-12 := by
      rw [hechoes, htells.quiet, hs]
      rfl
    rw [hdamping, dampingAfter_crossing]
  · rw [hechoes, htells.quiet]
    rfl

theorem judged_crossing :
    crossingOptimizer.judged crossingState ((OneNumber.problem (-1)).damped 1e-12 OneNumber.sizes) =
      .accepted (estimate remainder, remainder ^ 2 / 2) := by
  have hcandidate : crossingOptimizer.candidate crossingState
      ((OneNumber.problem (-1)).damped 1e-12 OneNumber.sizes) =
        .ok (estimate remainder, remainder ^ 2 / 2) := candidate_eq_ok crossing_answered crossing_leads
  refine judged_accepted hcandidate ⟨Scalar.isFinite_real _, ?_⟩
  exact remainder_sq.2.trans (by norm_num [crossingState])

/-- The solver is asked with the first damping, and later with the lower bound. -/
theorem mem_trials_crossing : ∃ first ∈ crossingOptimizer.trials crossingState,
    ∃ later ∈ crossingOptimizer.trials crossingState, first.damping = 1e-12 ∧
      first.verdict = .accepted (estimate remainder, remainder ^ 2 / 2) ∧ later.damping = 1e-10 := by
  have hnot : ¬ crossingState.cost ≤ crossingOptimizer.parameters.sumError := by
    norm_num [crossingState, crossingOptimizer, crossing, Parameters.standard]
  obtain ⟨s, hs⟩ : ∃ s, s = crossingOptimizer.opened .levenbergMarquardt crossingState := ⟨_, rfl⟩
  have hechoes : Echoes crossingState s := by rw [hs]; rfl
  obtain ⟨t, u, hround, hsettled, hdamping, hvalues⟩ := crossing_round hechoes
  have hfirst : crossingOptimizer.graph.linearize s.values = .ok (OneNumber.problem (-1)) := by
    rw [hechoes]
    exact linearize_estimate 1
  have hsecond : crossingOptimizer.graph.linearize u.values =
      .ok (OneNumber.problem (-remainder)) := by
    rw [hvalues]
    exact linearize_estimate remainder
  obtain ⟨rest, hrest⟩ := roundTrials_cons hfirst
  obtain ⟨more, hmore⟩ := roundTrials_cons hsecond
  have htwo : crossingOptimizer.parameters.maxIterations = 1 + 1 := rfl
  have htrials : crossingOptimizer.trials crossingState =
      crossingOptimizer.roundTrials s ++ crossingOptimizer.loopTrials 1 u := by
    rw [trials, if_neg hnot, ← hs, htwo, loopTrials, hround]
    simp only [hsettled]
  obtain ⟨others, hlast⟩ : ∃ others, crossingOptimizer.loopTrials 1 u =
      crossingOptimizer.roundTrials u ++ others := ⟨_, rfl⟩
  have hdampingFirst : s.damping = 1e-12 := by rw [hechoes]; rfl
  rw [htrials, hlast, hrest, hmore]
  refine ⟨_, List.mem_append_left _ List.mem_cons_self, _,
    List.mem_append_right _ (List.mem_append_left _ List.mem_cons_self), hdampingFirst, ?_, hdamping⟩
  rw [hechoes.judged_eq, hdampingFirst]
  exact judged_crossing

end Anchor

namespace Optimizer

open Anchor

/-- **Where the upper bound is below the lower one, the solver is asked beyond it**: the bounded mode
    raises the damping of the accepted step to the lower bound, a hundred times what it was. -/
theorem bounded_raises_damping :
    start Anchor.graph (estimate 1) order Backend.solver (.sequential sequential) crossing =
        .ok (crossingOptimizer, crossingState) ∧
      0 < crossing.lambdaInitial ∧ 1 < crossing.lambdaFactor ∧
      crossing.lambdaInitial ≤ crossing.lambdaUpperBound ∧
      (∃ trial ∈ crossingOptimizer.trials crossingState, ∃ step, trial.verdict = .accepted step ∧
        trial.damping < trial.left crossing) ∧
      ∃ trial ∈ crossingOptimizer.trials crossingState,
        crossing.lambdaUpperBound < trial.damping := by
  obtain ⟨first, hfirst, later, hlater, hdamping, hverdict, hraised⟩ := mem_trials_crossing
  have hleft : first.left crossing = 1e-10 := by
    rw [Trial.left, hverdict, hdamping]
    exact dampingAfter_crossing
  refine ⟨start_crossing, ?_, ?_, ?_, ⟨first, hfirst, _, hverdict, ?_⟩, later, hlater, ?_⟩
  · norm_num [crossing]
  · norm_num [factor_crossing]
  · norm_num [crossing]
  · rw [hleft, hdamping]
    norm_num
  · rw [hraised]
    norm_num [crossing]

/-- With these settings the solver is asked with the lower bound, and with no greater damping. -/
theorem crossing_bounds_damping :
    crossingOptimizer.Accounts crossingState (crossingOptimizer.levenbergMarquardt.run crossingState).2
        (crossingOptimizer.trials crossingState) ∧
      (∃ trial ∈ crossingOptimizer.trials crossingState, trial.damping = 1e-10) ∧
      ∀ trial ∈ crossingOptimizer.trials crossingState, trial.damping ≤ 1e-10 := by
  obtain ⟨-, -, later, hlater, -, -, hraised⟩ := mem_trials_crossing
  obtain ⟨haccounts, -, hcap⟩ := levenbergMarquardt_bounds_damping Scalar.isExact_real start_crossing
    (show (0 : ℝ) < 1e-12 by norm_num) (show (1 : ℝ) < 10 by norm_num) rfl factor_crossing
    (rfl : crossing.lambdaUpperBound = id 1e-11)
  refine ⟨haccounts, ⟨later, hlater, hraised⟩, fun trial htrial => ?_⟩
  obtain ⟨x, hx, hle⟩ := hcap (by norm_num [crossing]) trial htrial
  rw [hx]
  refine hle.trans ?_
  norm_num [crossing, Parameters.standard]

end Optimizer

end LeastSquares
