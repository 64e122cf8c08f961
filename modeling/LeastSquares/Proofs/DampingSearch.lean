/-
  LeastSquares/Proofs/DampingSearch.lean
  ======================================
  **A search for a damping ends, and how.**

  Each trial of a search asks the solver about the problem with the current damping.  A candidate whose
  cost is finite and no greater than the current one is accepted; another one is rejected, and the
  damping grows by the factor.  When the dampings are computed exactly they grow geometrically, so they
  pass any bound after a number of trials that the first damping, the factor and the bound determine,
  whatever the solver answers and whatever the costs are.
-/
import LeastSquares.Proofs.AnsweredSteps
import Mathlib.Algebra.Order.Archimedean.Basic

namespace LeastSquares

/-! ### Exact dampings -/

/-- **A carrier computes with some of its values as with the real numbers** that they stand for.  Of its
    other values, such as those that are infinite or no numbers, nothing is asked. -/
structure Scalar.IsExact {α : Type} [Scalar α] (num : ℝ → α) : Prop where
  one_eq : (1 : α) = num 1
  sub_eq : ∀ x y, num x - num y = num (x - y)
  mul_eq : ∀ x y, num x * num y = num (x * y)
  div_eq : ∀ x y, y ≠ 0 → num x / num y = num (x / y)
  lt_iff : ∀ x y, num x < num y ↔ x < y
  ceilNat_eq : ∀ x, Scalar.ceilNat (num x) = ⌈x⌉₊
  lowerBound_eq : (Optimizer.lambdaLowerBound : α) = num 1e-10

theorem Scalar.isExact_real : Scalar.IsExact (id : ℝ → ℝ) :=
  ⟨rfl, fun _ _ => rfl, fun _ _ => rfl, fun _ _ _ => rfl, fun _ _ => Iff.rfl, fun _ => rfl, rfl⟩

/-- A real number, or a value that is not a number. -/
inductive Measured where
  | number (x : ℝ)
  | undefined

namespace Measured

/-- A value of a value, which is undefined where that is. -/
def map (f : ℝ → ℝ) : Measured → Measured
  | number x => number (f x)
  | undefined => undefined

def map₂ (f : ℝ → ℝ → ℝ) : Measured → Measured → Measured
  | number x, number y => number (f x y)
  | _, _ => undefined

/-- Two values are related when both are numbers that are. -/
def Relates (r : ℝ → ℝ → Prop) : Measured → Measured → Prop
  | number x, number y => r x y
  | _, _ => False

noncomputable instance (r : ℝ → ℝ → Prop) [DecidableRel r] : DecidableRel (Relates r) :=
  fun
  | number x, number y => inferInstanceAs (Decidable (r x y))
  | undefined, _ => .isFalse id
  | number _, undefined => .isFalse id

noncomputable instance : Scalar Measured where
  zero := number 0
  one := number 1
  add := map₂ (· + ·)
  sub := map₂ (· - ·)
  mul := map₂ (· * ·)
  div := map₂ (· / ·)
  neg := map (- ·)
  lt := Relates (· < ·)
  le := Relates (· ≤ ·)
  ofScientific := fun m s e => number (OfScientific.ofScientific m s e)
  decidableLT := inferInstanceAs (DecidableRel (Relates (· < ·)))
  decidableLE := inferInstanceAs (DecidableRel (Relates (· ≤ ·)))
  sqrt := map Scalar.sqrt
  sin := map Scalar.sin
  cos := map Scalar.cos
  exp := map Scalar.exp
  log1p := map Scalar.log1p
  pi := number Scalar.pi
  floorMod := map₂ Scalar.floorMod
  ceilNat
    | number x => Scalar.ceilNat x
    | undefined => 0

theorem isExact_number : Scalar.IsExact number :=
  ⟨rfl, fun _ _ => rfl, fun _ _ => rfl, fun _ _ _ => rfl, fun _ _ => Iff.rfl, fun _ => rfl, rfl⟩

theorem isFinite_number (x : ℝ) : Scalar.isFinite (number x) = true :=
  decide_eq_true (le_refl (x - x))

theorem isFinite_undefined : Scalar.isFinite undefined = false := decide_eq_false id

end Measured

namespace Scalar.IsExact

variable {α : Type} [Scalar α] {num : ℝ → α} (h : IsExact num)

include h

theorem largerOf_eq (x y : ℝ) : Scalar.largerOf (num x) (num y) = num (max x y) := by
  rw [Scalar.largerOf, max_def]
  simp only [h.lt_iff]
  split_ifs with hlt hle hle
  · rfl
  · exact absurd hlt.le hle
  · rw [le_antisymm (not_lt.mp hlt) hle]
  · rfl

end Scalar.IsExact

namespace Optimizer

/-- The damping that an accepted candidate leaves, as a real number. -/
noncomputable def relaxed (mode : DampingMode) (factor damping : ℝ) : ℝ :=
  match mode with
  | .cautious => damping
  | .fast => damping / factor
  | .bounded => max (damping / factor) 1e-10

theorem dampingAfter_eq {α : Type} [Scalar α] {num : ℝ → α} (h : Scalar.IsExact num)
    {p : Parameters α} {factor : ℝ} (hfactor : p.lambdaFactor = num factor) (hne : factor ≠ 0)
    (damping : ℝ) : dampingAfter p (num damping) = num (relaxed p.lambdaMode factor damping) := by
  simp only [dampingAfter, relaxed, hfactor]
  cases p.lambdaMode with
  | cautious => rfl
  | fast => exact h.div_eq damping factor hne
  | bounded =>
    change Scalar.largerOf (num damping / num factor) lambdaLowerBound = _
    rw [h.div_eq damping factor hne, h.lowerBound_eq, h.largerOf_eq]

/-- Dampings that grow by a factor pass any bound, at the latest after as many trials as a search may
    make: each factor adds at least its excess over one times the first damping. -/
theorem lt_geometric {damping factor bound : ℝ} (hdamping : 0 < damping) (hfactor : 1 < factor) :
    bound < damping * factor ^ (⌈bound / damping / (factor - 1)⌉₊ + 1) := by
  obtain ⟨count, hcount⟩ : ∃ count, count = ⌈bound / damping / (factor - 1)⌉₊ := ⟨_, rfl⟩
  have hexcess : 0 < factor - 1 := sub_pos.mpr hfactor
  have hceil : bound / damping / (factor - 1) ≤ count := hcount ▸ Nat.le_ceil _
  have hgrowth : 1 + ((count + 1 : ℕ) : ℝ) * (factor - 1) ≤ factor ^ (count + 1) := by
    have hbernoulli := one_add_mul_le_pow (show (-2 : ℝ) ≤ factor - 1 by linarith) (count + 1)
    rwa [add_sub_cancel] at hbernoulli
  have hbound : bound ≤ count * (factor - 1) * damping := by
    rw [div_le_iff₀ hexcess, div_le_iff₀ hdamping] at hceil
    exact hceil
  rw [← hcount]
  calc bound ≤ count * (factor - 1) * damping := hbound
    _ < damping * (1 + ((count + 1 : ℕ) : ℝ) * (factor - 1)) := by
      push_cast
      nlinarith [mul_pos hdamping hexcess]
    _ ≤ damping * factor ^ (count + 1) := mul_le_mul_of_nonneg_left hgrowth hdamping.le

theorem trialBound_eq {α : Type} [Scalar α] {num : ℝ → α} (h : Scalar.IsExact num)
    {p : Parameters α} {damping factor bound : ℝ} (hdamping : 0 < damping) (hgrows : 1 < factor)
    (hfactor : p.lambdaFactor = num factor) (hbound : p.lambdaUpperBound = num bound) :
    trialBound p (num damping) = ⌈bound / damping / (factor - 1)⌉₊ + 2 := by
  have hexcess : factor - 1 ≠ 0 := (sub_pos.mpr hgrows).ne'
  rw [trialBound, hfactor, hbound, h.one_eq, h.sub_eq, h.div_eq _ _ hdamping.ne',
    h.div_eq _ _ hexcess, h.ceilNat_eq]

/-- There is a first number of trials, within those that a search may make, after which the dampings
    have passed the bound. -/
theorem exists_isLeast_passed {α : Type} [Scalar α] {num : ℝ → α} (h : Scalar.IsExact num)
    {p : Parameters α} {damping factor bound : ℝ} (hdamping : 0 < damping) (hgrows : 1 < factor)
    (hfactor : p.lambdaFactor = num factor) (hbound : p.lambdaUpperBound = num bound) :
    ∃ count, IsLeast {n : ℕ | 1 ≤ n ∧ bound < damping * factor ^ n} count ∧
      count ≤ trialBound p (num damping) := by
  classical
  have hexists : ∃ n : ℕ, 1 ≤ n ∧ bound < damping * factor ^ n :=
    ⟨_, Nat.le_add_left 1 _, lt_geometric hdamping hgrows⟩
  refine ⟨Nat.find hexists, ⟨Nat.find_spec hexists, fun n hn => Nat.find_min' hexists hn⟩, ?_⟩
  rw [trialBound_eq h hdamping hgrows hfactor hbound]
  exact (Nat.find_min' hexists ⟨Nat.le_add_left 1 _, lt_geometric hdamping hgrows⟩).trans
    (Nat.le_succ _)

end Optimizer

/-! ### The outcome of a trial -/

/-- What a solver remembers after it has been asked about several problems in turn. -/
def LinearSolver.remembers {σ α : Type} (solver : LinearSolver σ α) (memory : σ)
    (problems : List (LinearGraph α)) : σ :=
  problems.foldl (fun memory problem => (solver.solve memory problem).memory) memory

namespace Optimizer

variable {σ α : Type} [Scalar α] {o : Optimizer σ α} {s t u : OptimizerState σ α}

theorem candidate_eq_ok {problem : LinearGraph α} {delta : Delta α} {step : Values α × α}
    (hanswer : (o.solver.solve s.memory problem).result = .ok delta)
    (hleads : o.Leads s.values delta step) : o.candidate s problem = .ok step := by
  rw [candidate, hanswer]
  exact hleads.reached_eq

theorem Echoes.rejects_iff (h : Echoes s t) (problem : LinearGraph α) :
    o.Rejects t problem ↔ o.Rejects s problem := by
  rw [Rejects, Rejects, h.candidate_eq]
  rw [h]

/-- A trial comes to the same from states that differ in their reports only. -/
theorem Tried.of_echoes {linear : LinearGraph α} {trials : ℕ}
    {r : Except Error Bool × OptimizerState σ α} (h : Echoes s t) (htried : o.Tried linear t trials r) :
    o.Tried linear s trials r := by
  have hdamping : t.damping = s.damping := by rw [h]
  have hcost : t.cost = s.cost := by rw [h]
  have hcandidate := h.candidate_eq (o := o) (linear.damped s.damping o.dims)
  have hrejects := h.rejects_iff (o := o) (linear.damped s.damping o.dims)
  have hasked := h.change (fun t => o.asked t (linear.damped s.damping o.dims)) fun _ _ => rfl
  have hgrown := hasked.change (fun t => { t with
    damping := s.damping * o.parameters.lambdaFactor }) fun _ _ => rfl
  cases htried with
  | failed e herror hechoes =>
    rw [hdamping] at herror hechoes
    exact .failed e (hcandidate ▸ herror) (hasked.trans hechoes)
  | accepted step hok hadmits hechoes =>
    rw [hdamping] at hok hechoes
    refine .accepted step (hcandidate ▸ hok) (hcost ▸ hadmits) (Echoes.trans ?_ hechoes)
    exact hasked.change (fun t => { taken t step with
      damping := dampingAfter o.parameters s.damping }) fun _ _ => rfl
  | exhausted hreject hbound hechoes =>
    rw [hdamping] at hreject hbound hechoes
    exact .exhausted (hrejects.mp hreject) hbound (hgrown.trans hechoes)
  | continued hreject hbound hechoes =>
    rw [hdamping] at hreject hbound hechoes
    exact .continued (hrejects.mp hreject) hbound (hgrown.trans hechoes)

section Outcomes

variable {linear : LinearGraph α} {trials : ℕ} {r : Except Error Bool × OptimizerState σ α}

theorem Tried.of_error (h : o.Tried linear s trials r) {e : Error}
    (herror : o.candidate s (linear.damped s.damping o.dims) = .error e) :
    r.1 = .error e ∧ Echoes (o.asked s (linear.damped s.damping o.dims)) r.2 := by
  cases h with
  | failed e' herror' hechoes =>
    cases herror.symm.trans herror'
    exact ⟨rfl, hechoes⟩
  | accepted step hok => cases herror.symm.trans hok
  | exhausted hreject => cases herror.symm.trans hreject.choose_spec.1
  | continued hreject => cases herror.symm.trans hreject.choose_spec.1

theorem Tried.of_admitted (h : o.Tried linear s trials r) {step : Values α × α}
    (hok : o.candidate s (linear.damped s.damping o.dims) = .ok step)
    (hadmits : Method.levenbergMarquardt.Admits s.cost step.2) :
    r.1 = .ok true ∧ Echoes { taken (o.asked s (linear.damped s.damping o.dims)) step with
      damping := dampingAfter o.parameters s.damping } r.2 := by
  have hnot : ¬ o.Rejects s (linear.damped s.damping o.dims) := by
    rintro ⟨step', hok', hrejected⟩
    cases hok.symm.trans hok'
    exact hrejected hadmits
  cases h with
  | failed e herror => cases hok.symm.trans herror
  | accepted step' hok' _ hechoes =>
    cases hok.symm.trans hok'
    exact ⟨rfl, hechoes⟩
  | exhausted hreject => exact (hnot hreject).elim
  | continued hreject => exact (hnot hreject).elim

theorem Tried.of_rejected (h : o.Tried linear s trials r)
    (hrejects : o.Rejects s (linear.damped s.damping o.dims))
    (hpassed : o.parameters.lambdaUpperBound < s.damping * o.parameters.lambdaFactor) :
    r.1 = .ok false ∧ Echoes { o.asked s (linear.damped s.damping o.dims) with
      damping := s.damping * o.parameters.lambdaFactor } r.2 := by
  obtain ⟨step, hok, hnot⟩ := hrejects
  cases h with
  | failed e herror => cases hok.symm.trans herror
  | accepted step' hok' hadmits =>
    cases hok.symm.trans hok'
    exact (hnot hadmits).elim
  | exhausted _ _ hechoes => exact ⟨rfl, hechoes⟩
  | continued _ hwithin => exact (hwithin hpassed).elim

end Outcomes

/-! ### All trials -/

/-- The state of a search before a trial, when all trials before it were rejected: only the damping and
    what the solver remembers are different. -/
def probed (o : Optimizer σ α) (s : OptimizerState σ α) (linear : LinearGraph α) (dampings : ℕ → α)
    (trial : ℕ) : OptimizerState σ α :=
  { s with
    damping := dampings trial
    memory := o.solver.remembers s.memory
      ((List.range trial).map fun j => linear.damped (dampings j) o.dims) }

@[simp] theorem probed_damping (o : Optimizer σ α) (s : OptimizerState σ α) (linear : LinearGraph α)
    (dampings : ℕ → α) (trial : ℕ) : (o.probed s linear dampings trial).damping = dampings trial := rfl

@[simp] theorem probed_cost (o : Optimizer σ α) (s : OptimizerState σ α) (linear : LinearGraph α)
    (dampings : ℕ → α) (trial : ℕ) : (o.probed s linear dampings trial).cost = s.cost := rfl

/-- The candidate of a trial, when all trials before it were rejected. -/
def candidateAt (o : Optimizer σ α) (s : OptimizerState σ α) (linear : LinearGraph α)
    (dampings : ℕ → α) (trial : ℕ) : Except Error (Values α × α) :=
  o.candidate (o.probed s linear dampings trial) (linear.damped (dampings trial) o.dims)

/-- The candidate of a trial is rejected, when all trials before it were. -/
def RejectsAt (o : Optimizer σ α) (s : OptimizerState σ α) (linear : LinearGraph α)
    (dampings : ℕ → α) (trial : ℕ) : Prop :=
  o.Rejects (o.probed s linear dampings trial) (linear.damped (dampings trial) o.dims)

theorem asked_probed (o : Optimizer σ α) (s : OptimizerState σ α) (linear : LinearGraph α)
    (dampings : ℕ → α) (trial : ℕ) :
    o.asked (o.probed s linear dampings trial) (linear.damped (dampings trial) o.dims) =
      { o.probed s linear dampings (trial + 1) with damping := dampings trial } := by
  simp only [asked, probed, LinearSolver.remembers, List.range_succ, List.map_append,
    List.foldl_append, List.map_cons, List.map_nil, List.foldl_cons, List.foldl_nil]

/-- The dampings of a search: they grow from the first one on, and pass the bound for the first time
    after a number of trials that the search may make. -/
structure Schedules (o : Optimizer σ α) (s : OptimizerState σ α) (dampings : ℕ → α) (count : ℕ) :
    Prop where
  first : s.damping = dampings 0
  growth : ∀ j, dampings j * o.parameters.lambdaFactor = dampings (j + 1)
  within : ∀ j, 1 ≤ j → j < count → ¬ o.parameters.lambdaUpperBound < dampings j
  passed : o.parameters.lambdaUpperBound < dampings count
  positive : 1 ≤ count
  room : count ≤ trialBound o.parameters s.damping

section Schedules

variable {linear : LinearGraph α} {dampings : ℕ → α} {count trial : ℕ}
  (h : o.Schedules s dampings count)

include h

/-- Rejected trials leave the rest of a search to the trials behind them. -/
theorem Schedules.tryDampings_rejected (trials : ℕ) (htrial : trial < count)
    (hrejected : ∀ j < trial, o.RejectsAt s linear dampings j) :
    ∃ t, Echoes (o.probed s linear dampings trial) t ∧
      (o.tryDampings linear (trial + trials)).run s = (o.tryDampings linear trials).run t := by
  induction trial generalizing trials with
  | zero =>
    refine ⟨s, ?_, by rw [Nat.zero_add]⟩
    rw [Echoes, probed, ← h.first]
    rfl
  | succ trial ih =>
    obtain ⟨t, ht, hrun⟩ := ih (trials + 1) (by omega) fun j hj => hrejected j (by omega)
    have htried := (o.tryDampings_tried linear trials t).of_echoes ht
    rw [show trial + 1 + trials = trial + (trials + 1) by omega, hrun]
    obtain ⟨step, hcandidate, hnot⟩ := hrejected trial (by omega)
    generalize (o.tryDampings linear (trials + 1)).run t = r at htried ⊢
    cases htried with
    | failed e herror => cases hcandidate.symm.trans herror
    | accepted step' hok hadmits =>
      cases hcandidate.symm.trans hok
      exact (hnot hadmits).elim
    | exhausted _ hbound =>
      rw [probed_damping, h.growth] at hbound
      exact (h.within (trial + 1) (by omega) htrial hbound).elim
    | @continued u _ _ hechoes =>
      refine ⟨u, ?_, rfl⟩
      simp only [probed_damping, h.growth, asked_probed] at hechoes
      exact hechoes

/-- The trial behind some that were rejected decides about the search. -/
theorem Schedules.decides (htrial : trial < count)
    (hrejected : ∀ j < trial, o.RejectsAt s linear dampings j) :
    ∃ left, o.Tried linear (o.probed s linear dampings trial) left ((o.tryLambda linear).run s) := by
  have hroom := h.room
  obtain ⟨left, hleft⟩ : ∃ left, trialBound o.parameters s.damping = trial + (left + 1) :=
    ⟨trialBound o.parameters s.damping - trial - 1, by omega⟩
  obtain ⟨t, ht, hrun⟩ := h.tryDampings_rejected (left + 1) htrial hrejected
  refine ⟨left, ?_⟩
  simp only [tryLambda, run_bind, run_get, hleft, hrun]
  exact (o.tryDampings_tried linear left t).of_echoes ht

theorem Schedules.failed (htrial : trial < count)
    (hrejected : ∀ j < trial, o.RejectsAt s linear dampings j) {e : Error}
    (herror : o.candidateAt s linear dampings trial = .error e) :
    ((o.tryLambda linear).run s).1 = .error e ∧
      Echoes { o.probed s linear dampings (trial + 1) with damping := dampings trial }
        ((o.tryLambda linear).run s).2 := by
  obtain ⟨left, htried⟩ := h.decides htrial hrejected
  have houtcome := htried.of_error herror
  simp only [probed_damping, asked_probed] at houtcome
  exact houtcome

theorem Schedules.accepted (htrial : trial < count)
    (hrejected : ∀ j < trial, o.RejectsAt s linear dampings j) {step : Values α × α}
    (hok : o.candidateAt s linear dampings trial = .ok step)
    (hadmits : Method.levenbergMarquardt.Admits s.cost step.2) :
    ((o.tryLambda linear).run s).1 = .ok true ∧
      Echoes { taken (o.probed s linear dampings (trial + 1)) step with
        damping := dampingAfter o.parameters (dampings trial) } ((o.tryLambda linear).run s).2 := by
  obtain ⟨left, htried⟩ := h.decides htrial hrejected
  have houtcome := htried.of_admitted hok hadmits
  simp only [probed_damping, asked_probed] at houtcome
  exact houtcome

theorem Schedules.givenUp (hrejected : ∀ j < count, o.RejectsAt s linear dampings j) :
    ((o.tryLambda linear).run s).1 = .ok false ∧
      Echoes (o.probed s linear dampings count) ((o.tryLambda linear).run s).2 := by
  have hpositive := h.positive
  obtain ⟨last, rfl⟩ : ∃ last, count = last + 1 := ⟨count - 1, by omega⟩
  obtain ⟨left, htried⟩ := h.decides (Nat.lt_succ_self last) fun j hj => hrejected j (by omega)
  have houtcome := htried.of_rejected (hrejected last (by omega))
    (by rw [probed_damping, h.growth]; exact h.passed)
  simp only [probed_damping, h.growth, asked_probed] at houtcome
  exact houtcome

/-- A search that is given up has rejected the candidates of all trials. -/
theorem Schedules.rejectsAt (hgivenUp : ((o.tryLambda linear).run s).1 = .ok false)
    (htrial : trial < count) : o.RejectsAt s linear dampings trial := by
  induction trial using Nat.strong_induction_on with
  | h trial ih =>
    have hrejected : ∀ j < trial, o.RejectsAt s linear dampings j := fun j hj =>
      ih j hj (hj.trans htrial)
    cases hcandidate : o.candidateAt s linear dampings trial with
    | error e => cases hgivenUp.symm.trans (h.failed htrial hrejected hcandidate).1
    | ok step =>
      refine ⟨step, hcandidate, fun hadmits => ?_⟩
      cases hgivenUp.symm.trans (h.accepted htrial hrejected hcandidate hadmits).1

end Schedules

/-! ### Searches -/

/-- The damping that is left by an accepted candidate of a trial, as a power of the factor. -/
theorem dampingAfter_pow {num : ℝ → α} (hnum : Scalar.IsExact num) {p : Parameters α}
    {factor : ℝ} (hfactor : p.lambdaFactor = num factor) (hne : factor ≠ 0) (damping : ℝ) (trial : ℕ) :
    dampingAfter p (num (damping * factor ^ trial)) = num (match p.lambdaMode with
      | .fast => damping * factor ^ ((trial : ℤ) - 1)
      | .bounded => max (damping * factor ^ ((trial : ℤ) - 1)) 1e-10
      | .cautious => damping * factor ^ trial) := by
  have hdivided : damping * factor ^ ((trial : ℤ) - 1) = damping * factor ^ trial / factor := by
    rw [zpow_sub_one₀ hne, zpow_natCast, ← mul_assoc, ← div_eq_mul_inv]
  rw [dampingAfter_eq hnum hfactor hne, hdivided]
  cases p.lambdaMode <;> rfl

/-- **A search ends.**  With dampings that are computed exactly, let a number be the least by which the
    first damping, grown by the factor so often, has passed the bound.  The search asks the solver about
    the problem with at most so many dampings, which grow from the first one on.  It is given up when so
    many candidates are rejected, and then only the damping has changed, besides what the solver
    remembers and what is reported.  Otherwise the first candidate that is not rejected ends it. -/
theorem tryLambda_ends {num : ℝ → α} (hnum : Scalar.IsExact num) {damping factor bound : ℝ}
    (hpositive : 0 < damping) (hgrows : 1 < factor) (hdamping : s.damping = num damping)
    (hfactor : o.parameters.lambdaFactor = num factor)
    (hbound : o.parameters.lambdaUpperBound = num bound) (linear : LinearGraph α) :
    let dampings := fun j : ℕ => num (damping * factor ^ j)
    ∃ count, IsLeast {n : ℕ | 1 ≤ n ∧ bound < damping * factor ^ n} count ∧
      (((o.tryLambda linear).run s).1 = .ok false ↔ ∀ j < count, o.RejectsAt s linear dampings j) ∧
      (((o.tryLambda linear).run s).1 = .ok false →
        Echoes (o.probed s linear dampings count) ((o.tryLambda linear).run s).2) ∧
      ∀ trial < count, (∀ j < trial, o.RejectsAt s linear dampings j) →
        (∀ e, o.candidateAt s linear dampings trial = .error e →
          ((o.tryLambda linear).run s).1 = .error e ∧
            Echoes { o.probed s linear dampings (trial + 1) with damping := dampings trial }
              ((o.tryLambda linear).run s).2) ∧
        ∀ step, o.candidateAt s linear dampings trial = .ok step →
          Scalar.isFinite step.2 = true → step.2 ≤ s.cost →
          ((o.tryLambda linear).run s).1 = .ok true ∧
            Echoes { taken (o.probed s linear dampings (trial + 1)) step with
              damping := num (match o.parameters.lambdaMode with
                | .fast => damping * factor ^ ((trial : ℤ) - 1)
                | .bounded => max (damping * factor ^ ((trial : ℤ) - 1)) 1e-10
                | .cautious => damping * factor ^ trial) } ((o.tryLambda linear).run s).2 := by
  intro dampings
  have hne : factor ≠ 0 := by linarith
  obtain ⟨count, ⟨⟨hone, hpassed⟩, hmin⟩, hroom⟩ :=
    exists_isLeast_passed hnum hpositive hgrows hfactor hbound
  have hschedules : o.Schedules s dampings count := by
    refine ⟨?_, fun j => ?_, fun j hj hlt hbounded => ?_, ?_, hone, hdamping ▸ hroom⟩
    · simp only [hdamping, dampings, pow_zero, mul_one]
    · rw [hfactor, hnum.mul_eq, mul_assoc, ← pow_succ]
    · rw [hbound, hnum.lt_iff] at hbounded
      exact absurd (hmin ⟨hj, hbounded⟩) (not_le.mpr hlt)
    · rw [hbound, hnum.lt_iff]
      exact hpassed
  refine ⟨count, ⟨⟨hone, hpassed⟩, hmin⟩, ⟨fun hr j => hschedules.rejectsAt hr,
    fun hall => (hschedules.givenUp hall).1⟩, fun hr => ?_, fun trial htrial hrejected => ⟨fun e => ?_,
    fun step hok hfinite hle => ?_⟩⟩
  · exact (hschedules.givenUp fun j => hschedules.rejectsAt hr).2
  · exact hschedules.failed htrial hrejected
  · rw [← dampingAfter_pow hnum hfactor hne]
    exact hschedules.accepted htrial hrejected hok ⟨hfinite, hle⟩

end Optimizer

/-! ### A number that is held at zero -/

namespace Measured

noncomputable def anchored : Graph Measured :=
  ⟨[⟨.prior (.number 0) (.ofVector [0]), some ⟨[1], .none⟩, none⟩]⟩

def estimate (x : Measured) : Values Measured := ⟨[(.number 0, [x])]⟩

theorem cost_anchored (x : Measured) : anchored.cost (estimate x) =
    .ok (0 + 0.5 * Scalar.sq (Vec.norm [(x - 0) / 1])) := rfl

theorem cost_number (x : ℝ) : anchored.cost (estimate (number x)) = .ok (number (x ^ 2 / 2)) := by
  have hvalue : (0 + 0.5 * Scalar.sq (Vec.norm [(number x - 0) / 1]) : Measured) =
      number (0 + 0.5 * Scalar.sq (√(0 + (x - 0) / 1 * ((x - 0) / 1)))) := rfl
  have hroot : √(0 + (x - 0) / 1 * ((x - 0) / 1)) = |x| := by
    rw [zero_add, sub_zero, div_one, Real.sqrt_mul_self_eq_abs]
  rw [cost_anchored, hvalue, hroot, Scalar.sq, abs_mul_abs_self]
  ring_nf

/-- A solver that has no number for its answer when it is first asked, and then goes to zero. -/
noncomputable def hesitant : LinearSolver Bool Measured :=
  ⟨fun asked _ => ⟨.ok ⟨[(.number 0, [if asked then number (-1) else undefined])]⟩, true, []⟩⟩

noncomputable def optimizer : Optimizer Bool Measured :=
  ⟨anchored, hesitant, { Parameters.standard with lambdaUpperBound := number 50 }, [(.number 0, 1)]⟩

/-- One, before a search whose first damping is one. -/
noncomputable def state : OptimizerState Bool Measured :=
  ⟨estimate (number 1), number 0.5, number 1, 0, [number 0.5], false, []⟩

theorem reached_undefined : optimizer.reached (estimate (number 1)) ⟨[(.number 0, [undefined])]⟩ =
    .ok (estimate undefined, undefined) := rfl

theorem reached_zero : optimizer.reached (estimate (number 1)) ⟨[(.number 0, [number (-1)])]⟩ =
    .ok (estimate (number 0), number 0) := by
  have hretract : (estimate (number 1)).retract ⟨[(.number 0, [number (-1)])]⟩ =
      .ok (estimate (number (1 + -1))) := rfl
  have hcost := cost_number (1 + -1)
  rw [add_neg_cancel] at hretract hcost
  simp only [Optimizer.reached, hretract, optimizer, hcost, bind, Except.bind]
  norm_num
  rfl

end Measured

namespace Optimizer

open Measured

/-- Of two candidates the first has no number for its cost and is rejected.  The second one is accepted,
    with ten times the first damping, which is divided by ten again. -/
theorem tryLambda_ends_measured :
    ((optimizer.tryLambda ⟨[]⟩).run state).1 = .ok true ∧
      let t := ((optimizer.tryLambda ⟨[]⟩).run state).2
      t.values = estimate (number 0) ∧ t.damping = number 1 ∧ t.history = [number 0.5, number 0] := by
  have hfactor : optimizer.parameters.lambdaFactor = number 10 := by
    have hten : optimizer.parameters.lambdaFactor = number 10.0 := rfl
    norm_num at hten
    exact hten
  obtain ⟨count, ⟨⟨-, hpassed⟩, -⟩, -, -, htrials⟩ := tryLambda_ends (o := optimizer) (s := state)
    isExact_number one_pos (show (1 : ℝ) < 10 by norm_num) rfl hfactor rfl ⟨[]⟩
  have hcount : 1 < count := by
    by_contra hle
    have hpower : (10 : ℝ) ^ count ≤ 10 ^ 1 := pow_le_pow_right₀ (by norm_num) (not_lt.mp hle)
    norm_num at hpassed hpower
    linarith
  obtain ⟨dampings, hdampings⟩ : ∃ dampings : ℕ → Measured,
      dampings = fun j => number (1 * 10 ^ j) := ⟨_, rfl⟩
  rw [← hdampings] at htrials
  have hfirst : optimizer.candidateAt state ⟨[]⟩ dampings 0 = .ok (estimate undefined, undefined) :=
    reached_undefined
  have hsecond : optimizer.candidateAt state ⟨[]⟩ dampings 1 = .ok (estimate (number 0), number 0) :=
    reached_zero
  have hrejected : ∀ j < 1, optimizer.RejectsAt state ⟨[]⟩ dampings j := by
    intro j hj
    obtain rfl := Nat.lt_one_iff.mp hj
    exact ⟨_, hfirst, fun hadmits => Bool.false_ne_true (isFinite_undefined.symm.trans hadmits.1)⟩
  have hle : number 0 ≤ state.cost := show (0 : ℝ) ≤ 0.5 by norm_num
  obtain ⟨htrue, hlast⟩ := (htrials 1 hcount hrejected).2 _ hsecond (isFinite_number 0) hle
  refine ⟨htrue, ?_⟩
  simp only
  rw [hlast]
  have hleft : max (1 * (10 : ℝ) ^ (((1 : ℕ) : ℤ) - 1)) 1e-10 = 1 := by norm_num
  exact ⟨rfl, congrArg number hleft, rfl⟩

end Optimizer

end LeastSquares
