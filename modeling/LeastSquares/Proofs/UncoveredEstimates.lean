/-
  LeastSquares/Proofs/UncoveredEstimates.lean
  ===========================================
  **What comes of an estimate that lacks a variable.**

  The cost, the residuals and the linear problem of a graph are preceded by a check of its
  variables, and an order of elimination finds a missing one while neighbours are collected; all
  of them, and every optimization from its first preparation on, name the same variable and the
  same factor.  The diagnostics evaluate the factors one by one before any check, so what they
  fail with is whatever the first of these evaluations does.
-/
import LeastSquares.Diagnostics
import LeastSquares.Optimize
import LeastSquares.Proofs.ComputedOrder
import LeastSquares.Proofs.Reals

namespace LeastSquares

variable {α : Type} [Scalar α]

/-! ### Behind a check -/

namespace Graph

/-- Everything that evaluates a graph at an estimate after a check of its variables, and
    everything that prepares an optimization from there, fails with one error. -/
structure Refuses (g : Graph α) (values : Values α) (e : Error) : Prop where
  cost : g.cost values = .error e
  residuals : g.residuals values = .error e
  linearize : g.linearize values = .error e
  order : ∀ method, EliminationOrder.compute g values method = .error e
  subgraph : ∀ parameters, SubgraphSolver.make g values parameters = .error e
  start : ∀ {σ : Type} (order : EliminationOrder) (solver : LinearSolver σ α) (memory : σ)
    (parameters : Parameters α),
    Optimizer.start g values order solver memory parameters = .error e
  sequential : ∀ number parameters method m, Method.choose number method = .ok m →
    (Optimize.sequential number g values parameters method).1 = .error e
  multifrontal : ∀ number parameters method m, Method.choose number method = .ok m →
    (Optimize.multifrontal number g values parameters method).1 = .error e
  iterative : ∀ number parameters method m,
    Method.choose number (Option.getD method (.text Method.levenbergMarquardt.name)) = .ok m →
    (Optimize.iterative number g values parameters method).1 = .error e

variable {g : Graph α} {values : Values α} {f : Factor α} {key : Key} {e : Error}

/-- A solver that orders the variables itself fails as the order does. -/
theorem make_error (h : ∀ method, EliminationOrder.compute g values method = .error e)
    (parameters : Option (IterativeParameters α)) :
    SubgraphSolver.make g values parameters = .error e := by
  simp only [SubgraphSolver.make, h, bind, Except.bind]

/-- Every kind of solver is prepared with an order of the variables. -/
theorem backendFor_error (h : ∀ method, EliminationOrder.compute g values method = .error e)
    (kind : SolverKind) (parameters : Parameters α) :
    Optimize.backendFor kind g values parameters = .error e := by
  cases kind with
  | subgraph => simp only [Optimize.backendFor, make_error h, bind, Except.bind]
  | sequential | multifrontal => simp only [Optimize.backendFor, h, bind, Except.bind]

/-- An optimization whose order cannot be computed fails before its first step. -/
theorem withChosenMethod_error (h : ∀ method, EliminationOrder.compute g values method = .error e)
    {number : α → String} {method : Given α} {m : Method}
    (hmethod : Method.choose number method = .ok m) (kind : SolverKind)
    (parameters : Option (Parameters α)) :
    (Optimize.withChosenMethod number kind g values parameters method).1 = .error e := by
  simp only [Optimize.withChosenMethod, hmethod, Optimize.withSolver, backendFor_error h]

/-- **The first missing variable is reported** by everything behind a check. -/
theorem FirstMissing.refuses (h : g.FirstMissing values.keys f key) :
    g.Refuses values (.missingVariable key f.label) := by
  have hcheck := checkKeys_error h
  have horder := EliminationOrder.compute_error h
  exact {
    cost := by simp only [Graph.cost, hcheck, bind, Except.bind]
    residuals := by simp only [Graph.residuals, hcheck, bind, Except.bind]
    linearize := by simp only [Graph.linearize, hcheck, bind, Except.bind]
    order := horder
    subgraph := make_error horder
    start := fun order solver memory parameters => by
      simp only [Optimizer.start, hcheck, bind, Except.bind]
    sequential := fun _ parameters _ _ hm => withChosenMethod_error horder hm .sequential parameters
    multifrontal := fun _ parameters _ _ hm =>
      withChosenMethod_error horder hm .multifrontal parameters
    iterative := fun _ parameters _ _ hm => withChosenMethod_error horder hm .subgraph parameters }

end Graph

/-! ### Without a check -/

/-- Two look-ups of which one fails. -/
theorem bind_find_error {β γ : Type} {t : Table β} {a b : Key} (h : a ∉ t.keys ∨ b ∉ t.keys)
    (k : β → β → Except Error γ) :
    (do let x ← t.find a; let y ← t.find b; k x y) = .error .absentKey := by
  cases ha : t.find a with
  | error e => rw [Table.find_error ha]; rfl
  | ok x =>
    have hb : b ∉ t.keys := by
      rcases h with h | h
      · rw [Table.find_of_not_mem h] at ha
        cases ha
      · exact h
    simp only [bind, Except.bind, Table.find_of_not_mem hb]

/-- **A measurement looks its variables up** before anything else, and a missing one has no name
    in what it fails with. -/
theorem Measurement.residual_error {m : Measurement α} {point : Table (Vec α)}
    (h : ∃ key ∈ m.keys, key ∉ point.keys) : m.residual point = .error .absentKey := by
  cases m with
  | prior key value | posePrior key value =>
    have hkey : key ∉ point.keys := by simpa [keys] using h
    simp only [residual, Table.find_of_not_mem hkey, bind, Except.bind]
  | between first second value | range first second value =>
    have hkeys : second ∉ point.keys ∨ first ∉ point.keys := by simpa [keys, or_comm] using h
    exact bind_find_error hkeys _
  | poseBetween first second pose =>
    have hkeys : first ∉ point.keys ∨ second ∉ point.keys := by simpa [keys] using h
    rw [residual, poseResidual, bind_find_error hkeys]
    rfl
  | custom keys function derivative =>
    have harguments : keys.mapM (fun key => point.find key) = .error .absentKey :=
      Table.mapM_find_error h
    simp only [residual, functionResidual, harguments, bind, Except.bind, Except.map]

theorem Factor.cost_error {f : Factor α} {point : Table (Vec α)} (hnoise : f.noise ≠ none)
    (h : ∃ key ∈ f.keys, key ∉ point.keys) : f.cost point = .error .absentKey := by
  obtain ⟨noise, hsome⟩ := Option.ne_none_iff_exists'.mp hnoise
  simp only [cost, whitened, needNoise, hsome, residual, Measurement.residual_error h, bind,
    Except.bind, Except.map]

namespace Diagnostics

/-- The cost of a factor under its name. -/
def namedCost (values : Values α) (f : Factor α) : Except Error (String × α) := do
  let cost ← f.cost values.entries
  return (f.label, cost)

/-- **The costs of the factors come first**: a factor that cannot be evaluated while those before
    it can decides what the diagnostics fail with. -/
theorem compute_error {g : Graph α} {values : Values α} {f : Factor α} {e : Error}
    (hf : IsFirstWithout (fun f => ∃ c, Factor.cost f values.entries = .ok c) g.factors f)
    (herror : f.cost values.entries = .error e) (count : Given α) :
    compute g values count = .error e := by
  obtain ⟨before, after, hsplit, hbefore, -⟩ := hf
  have hcosts : g.factors.mapM (namedCost values) = .error e := by
    rw [hsplit]
    refine mapM_error (fun f hf => ?_) ?_
    · obtain ⟨cost, hcost⟩ := hbefore f hf
      exact ⟨(f.label, cost), by rw [namedCost, hcost]; rfl⟩
    · rw [namedCost, herror]
      rfl
  unfold compute
  change (g.factors.mapM (namedCost values) >>= _) = _
  rw [hcosts]
  rfl

end Diagnostics

namespace Graph

variable {g : Graph α} {values : Values α}

/-- Some factor of an uncovered graph is the first that cannot be evaluated. -/
theorem exists_first_failing (h : ¬ g.CoveredBy values.keys) :
    ∃ f e, IsFirstWithout (fun f => ∃ c, Factor.cost f values.entries = .ok c) g.factors f ∧
      f.cost values.entries = .error e := by
  have hnot : ¬ ∀ f ∈ g.factors, ∃ c, f.cost values.entries = .ok c := by
    intro hall
    refine h fun f hf key hkey => ?_
    obtain ⟨c, hc⟩ := hall f hf
    by_contra hmissing
    have hnoise : f.noise ≠ none := by
      intro hnone
      rw [Factor.cost, hnone] at hc
      cases hc
    rw [Factor.cost_error hnoise ⟨key, hkey, hmissing⟩] at hc
    cases hc
  obtain ⟨f, hf⟩ := exists_isFirstWithout hnot
  cases hcost : f.cost values.entries with
  | error e => exact ⟨f, e, hf, hcost⟩
  | ok c => exact absurd ⟨c, hcost⟩ hf.lacks

/-- **What comes of an estimate that lacks a variable.**  Everything behind a check of the
    variables reports the first one that is missing of the first factor that has one.  The
    diagnostics never return either, but they fail with the first evaluation that does: where
    that factor has noise and lacks a variable, with a look-up that names neither. -/
theorem uncovered_fails (h : ¬ g.CoveredBy values.keys) :
    (∃ f key, g.FirstMissing values.keys f key ∧
      g.Refuses values (.missingVariable key f.label)) ∧
    ∃ f e, IsFirstWithout (fun f => ∃ c, Factor.cost f values.entries = .ok c) g.factors f ∧
      f.cost values.entries = .error e ∧
      (f.noise ≠ none → (∃ key ∈ f.keys, key ∉ values.keys) → e = .absentKey) ∧
      ∀ count, Diagnostics.compute g values count = .error e := by
  obtain ⟨f, key, hmissing⟩ := exists_firstMissing h
  obtain ⟨f', e, hfirst, herror⟩ := exists_first_failing h
  refine ⟨⟨f, key, hmissing, hmissing.refuses⟩, f', e, hfirst, herror, ?_,
    Diagnostics.compute_error hfirst herror⟩
  intro hnoise hlacks
  rw [Factor.cost_error hnoise hlacks] at herror
  cases herror
  rfl

/-! ### A measured variable that has no value -/

namespace Absent

/-- One number is measured. -/
def factor : Factor ℝ :=
  ⟨.prior (.name "x") (.ofVector [1]), some ⟨[1], .none⟩, some "priorfactor_0"⟩

/-- Another one has a value. -/
def estimate : Values ℝ := ⟨[(.name "y", [1])]⟩

theorem not_covered : ¬ Graph.CoveredBy ⟨[factor]⟩ estimate.keys := by
  intro h
  have hx : Key.name "x" ∈ estimate.keys :=
    h factor List.mem_cons_self (.name "x") List.mem_cons_self
  simp [estimate, Values.keys, Table.keys] at hx

theorem eq_of_firstMissing {f : Factor ℝ} {key : Key}
    (h : Graph.FirstMissing ⟨[factor]⟩ estimate.keys f key) : f = factor ∧ key = .name "x" := by
  obtain rfl := List.mem_singleton.mp h.factor.mem
  exact ⟨rfl, List.mem_singleton.mp h.among.mem⟩

end Absent

theorem uncovered_fails_absent :
    ¬ CoveredBy ⟨[Absent.factor]⟩ Absent.estimate.keys ∧
    Refuses ⟨[Absent.factor]⟩ Absent.estimate (.missingVariable (.name "x") "priorfactor_0") ∧
    ∃ e, Diagnostics.compute ⟨[Absent.factor]⟩ Absent.estimate .null = .error e := by
  obtain ⟨⟨f, key, hmissing, hrefuses⟩, _, e, -, -, -, hdiagnostics⟩ :=
    uncovered_fails Absent.not_covered
  obtain ⟨rfl, rfl⟩ := Absent.eq_of_firstMissing hmissing
  exact ⟨Absent.not_covered, hrefuses, e, hdiagnostics .null⟩

end Graph

/-- **The diagnostics name nothing**: the cost of the graph names the variable and the factor, and
    the diagnostics of the same estimate only report that a look-up failed. -/
theorem Diagnostics.compute_unnamed :
    ¬ Graph.CoveredBy ⟨[Graph.Absent.factor]⟩ Graph.Absent.estimate.keys ∧
    Graph.cost ⟨[Graph.Absent.factor]⟩ Graph.Absent.estimate =
      .error (.missingVariable (.name "x") "priorfactor_0") ∧
    compute ⟨[Graph.Absent.factor]⟩ Graph.Absent.estimate .null = .error .absentKey ∧
    compute ⟨[Graph.Absent.factor]⟩ Graph.Absent.estimate .null ≠
      .error (.missingVariable (.name "x") "priorfactor_0") := by
  have hcompute : compute ⟨[Graph.Absent.factor]⟩ Graph.Absent.estimate .null
      = .error .absentKey := rfl
  refine ⟨Graph.Absent.not_covered, rfl, hcompute, ?_⟩
  rw [hcompute]
  intro h
  cases h

end LeastSquares
