/-
  LeastSquares/Proofs/MeasuredProblems.lean
  =========================================
  **At the truth of a synthetic problem only the noise is missed.**

  A generator measures its own truth and adds noise to what it measures, one draw for each component.  So at
  the truth a measurement is missed by its noise, backwards and with its heading reduced, and a prior, to which
  nothing is added, is not missed at all.  This is shown for one measurement of each kind; that the loops of a
  generator add such measurements only, with the draws one after another, is the same argument for all of them.
  What the truth costs follows from the factors alone.
-/
import LeastSquares.Proofs.CostReports
import LeastSquares.Proofs.PoseGroup
import LeastSquares.Proofs.RangeNetworks
import LeastSquares.Proofs.SyntheticChains
import LeastSquares.Proofs.UncoveredEstimates

namespace LeastSquares

/-! ### What is missed -/

/-- Whether a measurement says where one variable is, and not how several lie to each other. -/
def Measurement.isPrior {α : Type} : Measurement α → Bool
  | .prior .. => true
  | .posePrior .. => true
  | _ => false

/-- The noise of a measurement: what is drawn for each component times its standard deviation. -/
noncomputable def Noise.errors (noise : Noise ℝ) (drawn : Vec ℝ) : Vec ℝ :=
  List.zipWith (· * ·) noise.sigmas drawn

theorem Noise.errors_of_zero (noise : Noise ℝ) {drawn : Vec ℝ} (h : ∀ z ∈ drawn, z = 0) :
    noise.errors drawn = Vec.zeros (noise.errors drawn).length := by
  rw [Vec.zeros, List.eq_replicate_iff]
  refine ⟨rfl, fun x hx => ?_⟩
  obtain ⟨i, hi, rfl⟩ := List.getElem_of_mem hx
  simp only [errors, List.getElem_zipWith, h _ (List.getElem_mem _), mul_zero]

/-- From a vector with something added to it, the vector is what was added away, backwards. -/
theorem Vec.sub_add_self {xs ys : Vec ℝ} (h : xs.length = ys.length) : sub xs (add xs ys) = neg ys := by
  refine List.ext_getElem (by simp [sub, add, neg, h]) fun i _ _ => ?_
  simp only [sub, add, neg, List.getElem_zipWith, List.getElem_map, sub_add_cancel_left]

theorem Vec.squares_zeros_div (n : ℕ) (sigmas : Vec ℝ) :
    squares (List.zipWith (· / ·) (zeros n) sigmas) = 0 := by
  rw [squares_eq_zero_iff]
  intro x hx
  obtain ⟨i, hi, rfl⟩ := List.getElem_of_mem hx
  simp only [zeros, List.getElem_zipWith, List.getElem_replicate, zero_div]

namespace Factor

/-- At a point a factor with some noise misses its measurement by a vector. -/
structure Misses (f : Factor ℝ) (point : Table (Vec ℝ)) (noise : Noise ℝ) (missed : Vec ℝ) : Prop where
  noise_eq : f.noise = some noise
  loss_eq : noise.loss = .none
  residual_eq : f.residual point = .ok (.ofVector missed)
  length_eq : missed.length = noise.dim

variable {f : Factor ℝ} {point : Table (Vec ℝ)} {noise : Noise ℝ} {missed : Vec ℝ}

/-- What is missed costs half the squares of its components in units of their standard deviations. -/
theorem Misses.cost_eq (h : f.Misses point noise missed) :
    f.cost point = .ok (1 / 2 * Vec.squares (List.zipWith (· / ·) missed noise.sigmas)) := by
  refine cost_of_whitened h.noise_eq (by rw [h.loss_eq]; rfl) ?_
  rw [whitened, h.noise_eq]
  refine bind_eq_ok.mpr ⟨noise, rfl, bind_eq_ok.mpr ⟨_, h.residual_eq, ?_⟩⟩
  rw [Noise.whiten_ofVector, combine_of_length_eq _ _ _ h.length_eq]
  rfl

/-- At a point a factor meets its measurement: nothing is missed. -/
def Meets (f : Factor ℝ) (point : Table (Vec ℝ)) : Prop :=
  ∃ noise : Noise ℝ, f.Misses point noise (Vec.zeros noise.dim)

theorem Meets.cost_eq (h : f.Meets point) : f.cost point = .ok 0 := by
  obtain ⟨noise, h⟩ := h
  rw [h.cost_eq, Vec.squares_zeros_div, mul_zero]

/-- A name makes no difference to what a factor misses. -/
theorem Misses.named (h : f.Misses point noise missed) (g : Graph ℝ) :
    (g.named f).Misses point noise missed := by
  obtain ⟨hnoise, hloss, hresidual, hlength⟩ := h
  refine ⟨?_, hloss, ?_, hlength⟩
  · rwa [Graph.named_noise]
  · rwa [residual, Graph.named_measurement]

/-- What has a residual has all variables that it refers to. -/
theorem Misses.covered (h : f.Misses point noise missed) : ∀ key ∈ f.keys, key ∈ point.keys := by
  by_contra! hmissing
  have herror := (Measurement.residual_error (m := f.measurement) hmissing).symm.trans h.residual_eq
  cases herror

end Factor

/-! ### Reduced headings -/

/-- The heading of a pose is reduced; other vectors stay as they are. -/
noncomputable def Pose2.wrapHeading : Vec ℝ → Vec ℝ
  | [x, y, heading] => [x, y, wrapAngle heading]
  | xs => xs

/-- From a pose with something added to it, the pose is as far away as what was added, backwards. -/
theorem Pose2.displacement_add (p : Pose2 ℝ) (x y heading : ℝ) :
    displacement ⟨p.x + x, p.y + y, p.heading + heading⟩ p = ⟨-x, -y, wrapAngle (-heading)⟩ := by
  simp only [displacement, sub_add_cancel_left]

/-- A way to reduce what is missed, for which it does not matter to the squares whether the noise is added or
    taken off. -/
structure IsReduction (wrap : Vec ℝ → Vec ℝ) : Prop where
  squares_neg : ∀ xs sigmas, Vec.squares (List.zipWith (· / ·) (wrap (Vec.neg xs)) sigmas) =
    Vec.squares (List.zipWith (· / ·) (wrap xs) sigmas)
  zeros : ∀ n, wrap (Vec.zeros n) = Vec.zeros n

theorem Vec.squares_zipWith_neg (xs sigmas : Vec ℝ) :
    squares (List.zipWith (· / ·) (neg xs) sigmas) = squares (List.zipWith (· / ·) xs sigmas) := by
  have hneg : List.zipWith (· / ·) (neg xs) sigmas = neg (List.zipWith (· / ·) xs sigmas) := by
    rw [neg, List.zipWith_map_left, neg, List.map_zipWith]
    simp only [neg_div]
  rw [hneg, squares_neg]

theorem isReduction_id : IsReduction id := ⟨Vec.squares_zipWith_neg, fun _ => rfl⟩

/-- Headings that are opposite are as far from zero when they are reduced. -/
theorem Pose2.sq_wrapAngle_neg (x : ℝ) : wrapAngle (-x) ^ 2 = wrapAngle x ^ 2 := by
  have hreduced : wrapAngle (-x) = wrapAngle (-wrapAngle x) := by
    apply wrapAngle_congr
    rw [Real.Angle.coe_neg, Real.Angle.coe_neg, coe_wrapAngle]
  obtain ⟨hlow, hhigh⟩ := wrapAngle_mem x
  rw [hreduced]
  obtain hseam | hinside := hlow.eq_or_lt
  · -- half a turn is the same to both sides, and is reduced to the negative one
    have hsame : ((Real.pi : ℝ) : Real.Angle) = ((-Real.pi : ℝ) : Real.Angle) := by
      rw [Real.Angle.coe_neg, Real.Angle.neg_coe_pi]
    have hhalf : wrapAngle Real.pi = -Real.pi := by
      rw [wrapAngle_congr hsame, wrapAngle_of_mem ⟨le_rfl, by linarith [Real.pi_pos]⟩]
    rw [← hseam, neg_neg, hhalf]
  · rw [wrapAngle_of_mem ⟨by linarith, by linarith⟩, neg_sq]

theorem Pose2.wrapHeading_of_length_ne {xs : Vec ℝ} (h : xs.length ≠ 3) : wrapHeading xs = xs := by
  rw [wrapHeading]
  rintro x y heading rfl
  exact h rfl

theorem Pose2.isReduction_wrapHeading : IsReduction wrapHeading := by
  constructor
  case squares_neg =>
    intro xs sigmas
    by_cases hlength : xs.length = 3
    · obtain ⟨x, y, heading, rfl⟩ := List.length_eq_three.mp hlength
      have hheading : ∀ sigma : ℝ, (wrapAngle (-heading) / sigma) ^ 2 = (wrapAngle heading / sigma) ^ 2 := by
        intro sigma
        rw [div_pow, sq_wrapAngle_neg, div_pow]
      have hneg : wrapHeading (Vec.neg [x, y, heading]) = [-x, -y, wrapAngle (-heading)] := rfl
      rw [hneg, wrapHeading]
      -- only so many components count as there are standard deviations
      obtain _ | ⟨a, _ | ⟨b, _ | ⟨c, rest⟩⟩⟩ := sigmas <;> simp [hheading, neg_div]
    · have hneg : (Vec.neg xs).length ≠ 3 := by rwa [Vec.neg, List.length_map]
      rw [wrapHeading_of_length_ne hneg, wrapHeading_of_length_ne hlength]
      exact Vec.squares_zipWith_neg xs sigmas
  case zeros =>
    intro n
    by_cases hthree : n = 3
    · subst hthree
      simp [Vec.zeros, wrapHeading, List.replicate_succ]
    · exact wrapHeading_of_length_ne (by rwa [Vec.zeros, List.length_replicate])

/-! ### Problems that are measured -/

/-- A factor that is no prior misses the noise that was drawn for it, backwards. -/
structure Factor.Measures (f : Factor ℝ) (point : Table (Vec ℝ)) (noise : Noise ℝ) (wrap : Vec ℝ → Vec ℝ)
    (drawn : Vec ℝ) : Prop where
  not_prior : f.measurement.isPrior = false
  length_eq : drawn.length = noise.dim
  misses : f.Misses point noise (wrap (Vec.neg (noise.errors drawn)))

/-- **A problem whose measurements have the noise that was drawn**, in the order of the draws. -/
structure Problem.IsMeasured (p : Problem ℝ) (noise : Noise ℝ) (wrap : Vec ℝ → Vec ℝ) (drawn : List (Vec ℝ)) :
    Prop where
  /-- At the truth no prior is missed. -/
  priors : ∀ f ∈ p.graph.factors, f.measurement.isPrior = true →
    f.Meets p.truth.entries
  /-- Every other factor is missed by its noise, backwards. -/
  measured : List.Forall₂ (fun f zs => f.Measures p.truth.entries noise wrap zs)
    (p.graph.factors.filter (!·.measurement.isPrior)) drawn
  /-- The truth costs half the squares of the noise in units of the standard deviations. -/
  cost_eq : p.graph.cost p.truth = .ok (1 / 2 * (drawn.map fun zs =>
    Vec.squares (List.zipWith (· / ·) (wrap (noise.errors zs)) noise.sigmas)).sum)
  /-- Without noise it costs nothing. -/
  cost_zero : (∀ zs ∈ drawn, ∀ z ∈ zs, z = 0) → p.graph.cost p.truth = .ok 0

namespace Problem

variable {point : Table (Vec ℝ)} {noise : Noise ℝ} {wrap : Vec ℝ → Vec ℝ} {drawn : List (Vec ℝ)}

/-- What costs nothing does not count for the sum of the costs. -/
theorem mapM_costs {factors : List (Factor ℝ)} {cost : Vec ℝ → ℝ}
    (hpriors : ∀ f ∈ factors, f.measurement.isPrior = true → f.cost point = .ok 0)
    (hmeasured : List.Forall₂ (fun f zs => f.cost point = .ok (cost zs))
      (factors.filter (!·.measurement.isPrior)) drawn) :
    ∃ costs, factors.mapM (·.cost point) = .ok costs ∧ costs.sum = (drawn.map cost).sum := by
  induction factors generalizing drawn with
  | nil =>
    cases hmeasured
    exact ⟨[], rfl, rfl⟩
  | cons f factors ih =>
    obtain ⟨hf, hrest⟩ := List.forall_mem_cons.mp hpriors
    by_cases hprior : f.measurement.isPrior = true
    · rw [List.filter_cons_of_neg (by simp [hprior])] at hmeasured
      obtain ⟨costs, hcosts, hsum⟩ := ih hrest hmeasured
      refine ⟨0 :: costs, ?_, by rw [List.sum_cons, zero_add, hsum]⟩
      rw [mapM_eq_ok_iff] at hcosts ⊢
      exact .cons (hf hprior) hcosts
    · rw [List.filter_cons_of_pos (by simp [hprior])] at hmeasured
      cases hmeasured with
      | cons hfirst hmeasured =>
        obtain ⟨costs, hcosts, hsum⟩ := ih hrest hmeasured
        refine ⟨_ :: costs, ?_, by rw [List.sum_cons, hsum, List.map_cons, List.sum_cons]⟩
        rw [mapM_eq_ok_iff] at hcosts ⊢
        exact .cons hfirst hcosts

/-- **What the truth costs follows from what each factor misses there.** -/
theorem isMeasured_of {p : Problem ℝ} (hwrap : IsReduction wrap)
    (hpriors : ∀ f ∈ p.graph.factors, f.measurement.isPrior = true → f.Meets p.truth.entries)
    (hmeasured : List.Forall₂ (fun f zs => f.Measures p.truth.entries noise wrap zs)
      (p.graph.factors.filter (!·.measurement.isPrior)) drawn) : p.IsMeasured noise wrap drawn := by
  have hcovered : p.graph.CoveredBy p.truth.keys := by
    intro f hf
    by_cases hprior : f.measurement.isPrior = true
    · obtain ⟨tight, hmisses⟩ := hpriors f hf hprior
      exact hmisses.covered
    · obtain ⟨zs, -, hf⟩ := exists_right_of_mem hmeasured (List.mem_filter.mpr ⟨hf, by simp [hprior]⟩)
      exact hf.misses.covered
  have hcost : p.graph.cost p.truth = .ok (1 / 2 * (drawn.map fun zs =>
      Vec.squares (List.zipWith (· / ·) (wrap (noise.errors zs)) noise.sigmas)).sum) := by
    have hfree : ∀ f ∈ p.graph.factors, f.measurement.isPrior = true → f.cost p.truth.entries = .ok 0 := by
      intro f hf hprior
      exact (hpriors f hf hprior).cost_eq
    obtain ⟨costs, hcosts, hsum⟩ := mapM_costs hfree (hmeasured.imp fun f zs h => h.misses.cost_eq)
    refine bind_eq_ok.mpr ⟨(), Graph.checkKeys_of_covered hcovered, bind_eq_ok.mpr ⟨costs, hcosts, ?_⟩⟩
    simp only [Vec.sum_real, hsum, hwrap.squares_neg, List.sum_map_mul_left]
    rfl
  refine ⟨hpriors, hmeasured, hcost, fun hzero => ?_⟩
  have hnone : ∀ zs ∈ drawn,
      Vec.squares (List.zipWith (· / ·) (wrap (noise.errors zs)) noise.sigmas) = 0 := by
    intro zs hzs
    rw [noise.errors_of_zero (hzero zs hzs), hwrap.zeros, Vec.squares_zeros_div]
  rw [hcost, List.map_congr_left hnone]
  simp

variable {g g' g'' : Graph ℝ} {d d' d'' e : Draws ℝ}

/-- A graph of priors that are all met stays one when one more is added. -/
theorem priors_concat {f : Factor ℝ} (hg : ∀ f ∈ g.factors, f.measurement.isPrior = true ∧ f.Meets point)
    (hf : f.measurement.isPrior = true ∧ f.Meets point) :
    ∀ other ∈ g.factors ++ [g.named f], other.measurement.isPrior = true ∧ other.Meets point := by
  refine List.forall_mem_append.mpr ⟨hg, List.forall_mem_singleton.mpr ?_⟩
  obtain ⟨hprior, noise, hmisses⟩ := hf
  refine ⟨?_, noise, hmisses.named g⟩
  rwa [Graph.named_measurement]

/-- From one graph to another only measurements are added, and what is drawn in between is their noise. -/
def Gains (point : Table (Vec ℝ)) (noise : Noise ℝ) (wrap : Vec ℝ → Vec ℝ) (g : Graph ℝ) (d : Draws ℝ)
    (g' : Graph ℝ) (d' : Draws ℝ) : Prop :=
  ∃ measured drawn, g'.factors = g.factors ++ measured ∧
    List.Forall₂ (fun f zs => Factor.Measures f point noise wrap zs) measured drawn ∧ d.Takes drawn.flatten d'

theorem Gains.refl (g : Graph ℝ) (d : Draws ℝ) : Gains point noise wrap g d g d :=
  ⟨[], [], (List.append_nil _).symm, .nil, .nil d⟩

theorem Gains.trans (h : Gains point noise wrap g d g' d') (h' : Gains point noise wrap g' d' g'' d'') :
    Gains point noise wrap g d g'' d'' := by
  obtain ⟨measured, drawn, hfactors, hmeasured, htakes⟩ := h
  obtain ⟨measured', drawn', hfactors', hmeasured', htakes'⟩ := h'
  refine ⟨measured ++ measured', drawn ++ drawn', ?_, List.rel_append hmeasured hmeasured', ?_⟩
  · rw [hfactors', hfactors, List.append_assoc]
  · rw [List.flatten_append]
    exact htakes.append htakes'

/-- What a measurement misses is what was drawn for it. -/
theorem Gains.add {f : Factor ℝ} {zs : Vec ℝ} (hf : f.Measures point noise wrap zs) (htakes : d.Takes zs e) :
    Gains point noise wrap g d ⟨g.factors ++ [g.named f]⟩ e := by
  have hnamed : (g.named f).Measures point noise wrap zs := by
    refine ⟨?_, hf.length_eq, hf.misses.named g⟩
    rw [Graph.named_measurement]
    exact hf.not_prior
  refine ⟨[g.named f], [zs], rfl, .cons hnamed .nil, ?_⟩
  rwa [List.flatten_singleton]

/-- What every step of a loop adds, the loop adds. -/
theorem Gains.foldlM {β γ : Type} {f : γ → β → Drawing ℝ γ} {xs : List β} (graph : γ → Graph ℝ)
    (hstep : ∀ x ∈ xs, ∀ c d c' d', (f c x).run d = .ok (c', d') →
      Gains point noise wrap (graph c) d (graph c') d')
    {start final : γ} (h : (xs.foldlM f start).run d = .ok (final, e)) :
    Gains point noise wrap (graph start) d (graph final) e := by
  refine Draws.foldlM_keeps (P := fun _ c d' => Gains point noise wrap (graph start) d (graph c) d') ?_
    (Gains.refl _ d) h
  intro before x after hsplit c d c' d' hbefore hrun
  exact hbefore.trans (hstep x (by simp [hsplit]) c d c' d' hrun)

/-- **Priors that are not missed and measurements that are drawn make up a measured problem.** -/
theorem Gains.isMeasured {p : Problem ℝ} (hwrap : IsReduction wrap)
    (hpriors : ∀ f ∈ g.factors, f.measurement.isPrior = true ∧ f.Meets p.truth.entries)
    (h : Gains p.truth.entries noise wrap g d p.graph e) :
    ∃ drawn, d.Gives d.taken drawn.flatten ∧ p.IsMeasured noise wrap drawn := by
  obtain ⟨measured, drawn, hfactors, hmeasured, htakes⟩ := h
  have hnone : g.factors.filter (!·.measurement.isPrior) = [] := by
    rw [List.filter_eq_nil_iff]
    intro f hf
    simp [(hpriors f hf).1]
  have hnot : ∀ f ∈ measured, f.measurement.isPrior = false := by
    intro f hf
    obtain ⟨zs, -, hmeasures⟩ := exists_right_of_mem hmeasured hf
    exact hmeasures.not_prior
  have hall : measured.filter (!·.measurement.isPrior) = measured := by
    rw [List.filter_eq_self]
    intro f hf
    simp [hnot f hf]
  refine ⟨drawn, htakes.given, isMeasured_of hwrap ?_ ?_⟩
  · intro f hf hprior
    rw [hfactors] at hf
    rcases List.mem_append.mp hf with hf | hf
    · exact (hpriors f hf).2
    · rw [hnot f hf] at hprior
      cases hprior
  · rwa [hfactors, List.filter_append, hnone, hall, List.nil_append]

end Problem

/-! ### Factors at the truth -/

namespace Factor

variable {f : Factor ℝ} {point : Table (Vec ℝ)} {noise : Noise ℝ} {key : Key} {zs : Vec ℝ}

/-- A prior for the value that a variable has is not missed. -/
theorem prior_meets {x : Vec ℝ} (hx : point.get? key = some x) (hloss : noise.loss = .none)
    (h : prior key (.ofVector x) (some noise) none = .ok f) :
    f.measurement.isPrior = true ∧ f.Meets point := by
  obtain ⟨hsize, rfl⟩ := prior_eq_ok.mp h
  have hself : Vec.sub x x = Vec.zeros noise.dim := by
    rw [Vec.sub, List.zipWith_self, ← hsize]
    simp only [sub_self, List.map_const']
    rfl
  refine ⟨rfl, noise, rfl, hloss, ?_, List.length_replicate⟩
  refine bind_eq_ok.mpr ⟨x, Table.find_eq_ok.mpr hx, ?_⟩
  rw [Tensor.combine_ofVector, combine_of_length_eq _ _ _ rfl, ← hself]
  rfl

theorem posePrior_meets {pose : Pose2 ℝ} (hpose : point.get? key = some pose.toVec)
    (hloss : noise.loss = .none) (h : posePrior key (.ofVector pose.toVec) (some noise) none = .ok f) :
    f.measurement.isPrior = true ∧ f.Meets point := by
  obtain ⟨hdim, rfl⟩ := posePrior_eq_ok.mp h
  have hself : (Pose2.displacement pose pose).toVec = Vec.zeros noise.dim := by
    rw [hdim]
    simp [Pose2.displacement, Pose2.toVec, Vec.zeros, List.replicate_succ]
  refine ⟨rfl, noise, rfl, hloss, ?_, List.length_replicate⟩
  rw [← hself]
  exact bind_eq_ok.mpr ⟨_, Table.find_eq_ok.mpr hpose, rfl⟩

/-- **A pose that is measured with noise is missed by this noise**, backwards and with its heading reduced. -/
theorem poseBetween_measures {a b : Key × Pose2 ℝ} (ha : point.get? a.1 = some a.2.toVec)
    (hb : point.get? b.1 = some b.2.toVec) (hloss : noise.loss = .none) (hzs : zs.length = noise.dim)
    {measured : Vec ℝ}
    (hmeasured : combine (· + ·) (Pose2.between a.2 b.2).toVec (noise.errors zs) = .ok measured)
    (h : poseBetween a.1 b.1 (.ofVector measured) (some noise) none = .ok f) :
    f.Measures point noise Pose2.wrapHeading zs := by
  obtain ⟨-, hdim, rfl⟩ := poseBetween_eq_ok.mp h
  obtain ⟨ex, ey, eheading, herrors⟩ : ∃ ex ey eheading, noise.errors zs = [ex, ey, eheading] := by
    rw [← List.length_eq_three, Noise.errors, List.length_zipWith, hzs, ← Noise.dim, hdim, min_self]
  have hsum := combine_of_length_eq (· + ·) (Pose2.between a.2 b.2).toVec [ex, ey, eheading] rfl
  rw [herrors] at hmeasured
  cases hsum.symm.trans hmeasured
  refine ⟨rfl, hzs, rfl, hloss, ?_, ?_⟩
  · refine map_eq_ok.mpr ⟨_, bind_eq_ok.mpr ⟨_, Table.find_eq_ok.mpr ha, bind_eq_ok.mpr
      ⟨_, Table.find_eq_ok.mpr hb, rfl⟩⟩, ?_⟩
    rw [herrors]
    exact congrArg (Tensor.ofVector ·.toVec) (Pose2.displacement_add (Pose2.between a.2 b.2) ex ey eheading)
  · rw [herrors, hdim]
    rfl

end Factor

/-! ### Poses -/

namespace PoseChain

variable {chain : PoseChain ℝ} {noise : Noise ℝ} {g g' : Graph ℝ} {d e : Draws ℝ} {p : Problem ℝ}

theorem measureMotion_gains {point : Table (Vec ℝ)} {a b : Key × Pose2 ℝ}
    (ha : point.get? a.1 = some a.2.toVec) (hb : point.get? b.1 = some b.2.toVec) (hloss : noise.loss = .none)
    (h : (measureMotion noise g a b).run d = .ok (g', e)) :
    Problem.Gains point noise Pose2.wrapHeading g d g' e := by
  obtain ⟨errors, d', herrors, h⟩ := Draws.run_bind_eq_ok.mp h
  obtain ⟨zs, hzs, rfl, htakes⟩ := Draws.normalVec_takes herrors
  obtain ⟨measured, hmeasured, h⟩ := Draws.run_lift_bind_eq_ok.mp h
  obtain ⟨f, hf, rfl, rfl⟩ := Problem.addFactor_eq_ok h
  exact .add (Factor.poseBetween_measures ha hb hloss hzs hmeasured hf) htakes

/-- **At the truth of a chain of poses every motion is missed by its noise**, and the first pose is not missed. -/
theorem isMeasured_of_returned (h : chain.problem.run d = .ok (p, e)) :
    ∃ noise drawn, Noise.diagonal chain.sigmas = .ok noise ∧ d.Gives d.taken drawn.flatten ∧
      p.IsMeasured noise Pose2.wrapHeading drawn := by
  obtain ⟨poses, noise, anchor, anchored, chained, d₁, d₂, d₃, hhead, hnoise, hanchor, hanchored, hchained,
    hclosed, htruth⟩ := problem_parts h
  have hloss := Noise.loss_of_diagonal hnoise
  have hat : ∀ entry ∈ Problem.named "x" poses, p.truth.entries.get? entry.1 = some entry.2.toVec := by
    intro entry hentry
    rw [htruth]
    exact Problem.get?_named Pose2.toVec hentry
  obtain ⟨f, hf, rfl, rfl⟩ := Problem.addFactor_eq_ok hanchored
  have hchain : Problem.Gains p.truth.entries noise Pose2.wrapHeading
      ⟨Graph.empty.factors ++ [Graph.empty.named f]⟩ d chained d₂ := by
    refine .foldlM (fun g => g) ?_ hchained
    intro pair hpair g d g' d' hrun
    obtain ⟨hfirst, hsecond⟩ := List.of_mem_zip hpair
    exact measureMotion_gains (hat _ hfirst) (hat _ (List.mem_of_mem_tail hsecond)) hloss hrun
  have hgains : ∃ e, Problem.Gains p.truth.entries noise Pose2.wrapHeading
      ⟨Graph.empty.factors ++ [Graph.empty.named f]⟩ d p.graph e := by
    rcases hclosed with rfl | ⟨last, hlast, first, hfirst, hclosed⟩
    · exact ⟨d₂, hchain⟩
    · exact ⟨d₃, hchain.trans (measureMotion_gains (hat last hlast) (hat first hfirst) hloss hclosed)⟩
  obtain ⟨e', hgains⟩ := hgains
  have hpriors : ∀ prior ∈ Graph.empty.factors ++ [Graph.empty.named f], prior.measurement.isPrior = true ∧
      prior.Meets p.truth.entries := by
    refine Problem.priors_concat (List.forall_mem_nil _) (Factor.posePrior_meets ?_ ?_ hf)
    · exact hat _ (Problem.mem_named_zero hhead)
    · exact Noise.loss_of_isotropic hanchor
  obtain ⟨drawn, hgives, hmeasured⟩ := hgains.isMeasured Pose2.isReduction_wrapHeading hpriors
  exact ⟨noise, drawn, hnoise, hgives, hmeasured⟩

end PoseChain

/-! ### Distances -/

namespace RangeNetwork

variable {point : Table (Vec ℝ)} {noise : Noise ℝ} {g g' : Graph ℝ} {d e : Draws ℝ} {p : Problem ℝ}

/-- A distance that is measured with noise is missed by this noise, backwards. -/
theorem rangeFactor_measures {a b : Key} {u v : Vec ℝ} {sigma : ℝ} (ha : point.get? a = some u)
    (hb : point.get? b = some v) (hlength : v.length = u.length) (z : ℝ) :
    (rangeFactor ⟨[sigma], .none⟩ a b (distance v u + sigma * z)).Measures point ⟨[sigma], .none⟩ id [z] := by
  refine ⟨rfl, rfl, rfl, rfl, ?_, rfl⟩
  have hmissed : distance v u - (distance v u + sigma * z) = -(sigma * z) := sub_add_cancel_left _ _
  refine bind_eq_ok.mpr ⟨v, Table.find_eq_ok.mpr hb, bind_eq_ok.mpr ⟨u, Table.find_eq_ok.mpr ha, ?_⟩⟩
  refine bind_eq_ok.mpr ⟨_, combine_of_length_eq _ _ _ hlength, ?_⟩
  exact congrArg (fun missed => Except.ok (Tensor.ofVector [missed])) hmissed

variable {sigma : Given ℝ} {x : ℝ} {network : RangeNetwork ℝ} {anchors members : List (Key × Vec ℝ)}
  {points : List (Vec ℝ)}

theorem measureRange_gains {a b : Key} {u v : Vec ℝ} (hsigma : sigma.IsNumber x) (ha : point.get? a = some u)
    (hb : point.get? b = some v) (hlength : v.length = u.length)
    (h : (measureRange ⟨[x], .none⟩ sigma g a b (distance v u)).run d = .ok (g', e)) :
    Problem.Gains point ⟨[x], .none⟩ id g d g' e := by
  obtain ⟨-, z, htakes, rfl⟩ := measureRange_parts hsigma h
  exact .add (rangeFactor_measures ha hb hlength z) htakes

/-- The anchors are met, and nothing is drawn for them. -/
theorem anchored_meets {tight : Noise ℝ} (htight : tight.loss = .none)
    (hanchors : ∀ anchor ∈ anchors, point.get? anchor.1 = some anchor.2)
    (h : (anchored tight anchors).run d = .ok (g, e)) :
    (∀ f ∈ g.factors, f.measurement.isPrior = true ∧ f.Meets point) ∧ d = e := by
  refine Draws.foldlM_keeps (P := fun _ (g : Graph ℝ) d' =>
    (∀ f ∈ g.factors, f.measurement.isPrior = true ∧ f.Meets point) ∧ d = d') ?_
    ⟨List.forall_mem_nil _, rfl⟩ h
  rintro before anchor after hsplit g d₁ g' d₂ ⟨hg, rfl⟩ hstep
  obtain ⟨f, hf, rfl, rfl⟩ := Problem.addFactor_eq_ok hstep
  have hanchor := hanchors anchor (by simp [hsplit])
  exact ⟨Problem.priors_concat hg (Factor.prior_meets hanchor htight hf), rfl⟩

theorem measured_gains (hsigma : sigma.IsNumber x)
    (hanchors : ∀ anchor ∈ anchors, point.get? anchor.1 = some anchor.2 ∧ anchor.2.length = 2)
    (hmembers : ∀ member ∈ members, point.get? member.1 = some member.2 ∧ member.2.length = 2)
    (h : (members.foldlM (measurePoint ⟨[x], .none⟩ sigma anchors) g).run d = .ok (g', e)) :
    Problem.Gains point ⟨[x], .none⟩ id g d g' e := by
  refine .foldlM (fun g => g) ?_ h
  intro member hmember g d g' d' hrun
  refine .foldlM (fun g => g) ?_ hrun
  intro anchor hanchor g d g' d' hrun
  obtain ⟨hanchor, hanchorLength⟩ := hanchors anchor hanchor
  obtain ⟨hmember, hmemberLength⟩ := hmembers member hmember
  exact measureRange_gains hsigma hanchor hmember (hmemberLength.trans hanchorLength.symm) hrun

/-- Whichever of two points is named first, their distance is the same. -/
theorem connectPair_gains {state state' : Graph ℝ × List (ℕ × ℕ)} {i j : ℕ} (hi : i < points.length)
    (hj : j < points.length) (hsigma : sigma.IsNumber x)
    (hpoints : ∀ j (hj : j < points.length),
      point.get? (Problem.member "p" j) = some points[j] ∧ points[j].length = 2)
    (h : (connectPair ⟨[x], .none⟩ sigma points (points[j], j) state i).run d = .ok (state', e)) :
    Problem.Gains point ⟨[x], .none⟩ id state.1 d state'.1 e := by
  rw [connectPair] at h
  split_ifs at h
  · obtain ⟨rfl, rfl⟩ := Draws.run_pure_eq_ok.mp h
    exact .refl _ _
  · obtain ⟨g', d', hmeasure, h⟩ := Draws.run_bind_eq_ok.mp h
    obtain ⟨rfl, rfl⟩ := Draws.run_pure_eq_ok.mp h
    obtain ⟨hi', hiLength⟩ := hpoints i hi
    obtain ⟨hj', hjLength⟩ := hpoints j hj
    rw [getD_distancesFrom hi] at hmeasure
    rcases le_total j i with hle | hle
    · simp only [min_eq_left hle, max_eq_right hle] at hmeasure
      exact measureRange_gains hsigma hj' hi' (hiLength.trans hjLength.symm) hmeasure
    · simp only [min_eq_right hle, max_eq_left hle] at hmeasure
      rw [distance_comm] at hmeasure
      exact measureRange_gains hsigma hi' hj' (hjLength.trans hiLength.symm) hmeasure

theorem connected_gains {state state' : Graph ℝ × List (ℕ × ℕ)} (hsigma : network.rangeSigma.IsNumber x)
    (hpoints : ∀ j (hj : j < points.length),
      point.get? (Problem.member "p" j) = some points[j] ∧ points[j].length = 2)
    (h : (points.zipIdx.foldlM (connectNearest network ⟨[x], .none⟩ points) state).run d = .ok (state', e)) :
    Problem.Gains point ⟨[x], .none⟩ id state.1 d state'.1 e := by
  refine .foldlM Prod.fst ?_ h
  rintro ⟨q, j⟩ hq state d state' d' hrun
  have hget : points[j]? = some q := List.mem_zipIdx_iff_getElem?.mp hq
  obtain ⟨hj, rfl⟩ := List.getElem?_eq_some_iff.mp hget
  obtain ⟨count, -, hrun⟩ := Draws.run_lift_bind_eq_ok.mp hrun
  refine .foldlM Prod.fst ?_ hrun
  intro i hi state d state' d' hrun
  have hi := lt_of_mem_nearest hi
  rw [List.length_map] at hi
  exact connectPair_gains hi hj hsigma hpoints hrun

theorem totalDim_of_planar {values : Values ℝ} (h : ∀ entry ∈ values.entries, entry.2.length = 2) :
    values.totalDim = values.entries.length * 2 := by
  obtain ⟨entries⟩ := values
  induction entries with
  | nil => rfl
  | cons entry entries ih =>
    obtain ⟨hentry, hrest⟩ := List.forall_mem_cons.mp h
    have hsum : Values.totalDim ⟨entry :: entries⟩ = entry.2.length + Values.totalDim ⟨entries⟩ := rfl
    rw [hsum, hentry, ih hrest, List.length_cons, Nat.succ_mul, Nat.add_comm]

theorem length_of_mem_uniformPoints {bound count : Given ℝ}
    (h : (Draws.uniformPoints bound count).run d = .ok (points, e)) :
    (∀ q ∈ points, q.length = 2) ∧ ∃ zs, zs.length = points.length * 2 ∧ d.Takes zs e := by
  obtain ⟨zs, b, htakes, -, hlength, -, hpoints⟩ := Draws.uniformPoints_takes h
  refine ⟨fun q hq => ?_, zs, hlength, htakes⟩
  rw [hpoints] at hq
  obtain ⟨piece, hpiece, rfl⟩ := List.mem_map.mp hq
  rw [List.length_map]
  exact Tensor.length_of_mem_cut hlength piece hpiece

/-- **At the truth of a network every distance is missed by its noise**, and no anchor is missed. -/
theorem isMeasured_of_returned (hsigma : network.rangeSigma.IsNumber x)
    (h : network.problem.run d = .ok (p, e)) :
    ∃ drawn, d.Gives (d.taken + p.truth.totalDim) drawn.flatten ∧ p.IsMeasured ⟨[x], .none⟩ id drawn := by
  obtain ⟨anchors, points, noise, tight, gAnchored, gRanged, connected, d₁, d₂, d₃, d₄, d₅, hanchors, hpoints,
    hnoise, htight, hanchored, hranged, hconnected, hgraph, htruth⟩ := problem_parts h
  obtain ⟨hanchorsPlanar, zs₁, hzs₁, htakes₁⟩ := length_of_mem_uniformPoints hanchors
  obtain ⟨hpointsPlanar, zs₂, hzs₂, htakes₂⟩ := length_of_mem_uniformPoints hpoints
  obtain rfl : noise = ⟨[x], .none⟩ := hsigma.of_filled hnoise
  have hnodup : p.truth.entries.keys.Nodup := by
    rw [htruth, Table.keys, List.map_append, List.nodup_append]
    refine ⟨Problem.nodup_named .., Problem.nodup_named .., ?_⟩
    intro a ha q hq
    rw [Problem.keys_named] at ha hq
    obtain ⟨i, -, rfl⟩ := List.mem_map.mp ha
    obtain ⟨j, -, rfl⟩ := List.mem_map.mp hq
    exact Problem.member_ne (by decide : 'a' ≠ 'p') i j
  have hat : ∀ entry ∈ p.truth.entries, p.truth.entries.get? entry.1 = some entry.2 ∧ entry.2.length = 2 := by
    intro entry hentry
    refine ⟨Table.get?_of_mem hnodup hentry, ?_⟩
    rw [htruth] at hentry
    rcases List.mem_append.mp hentry with hentry | hentry
    · obtain ⟨i, hi, rfl⟩ := Problem.mem_named.mp hentry
      exact hanchorsPlanar _ (List.getElem_mem hi)
    · obtain ⟨i, hi, rfl⟩ := Problem.mem_named.mp hentry
      exact hpointsPlanar _ (List.getElem_mem hi)
  have hanchorsAt : ∀ anchor ∈ Problem.named "a" anchors,
      p.truth.entries.get? anchor.1 = some anchor.2 ∧ anchor.2.length = 2 := by
    intro anchor hanchor
    exact hat anchor (htruth ▸ List.mem_append_left _ hanchor)
  have hpointsAt : ∀ member ∈ Problem.named "p" points,
      p.truth.entries.get? member.1 = some member.2 ∧ member.2.length = 2 := by
    intro member hmember
    exact hat member (htruth ▸ List.mem_append_right _ hmember)
  obtain ⟨hpriors, rfl⟩ :=
    anchored_meets (Noise.loss_of_isotropic htight) (fun anchor h => (hanchorsAt anchor h).1) hanchored
  have hgains : Problem.Gains p.truth.entries ⟨[x], .none⟩ id gAnchored d₂ p.graph d₅ := by
    rw [hgraph]
    refine (measured_gains hsigma hanchorsAt hpointsAt hranged).trans (connected_gains hsigma ?_ hconnected)
    exact fun j hj => hpointsAt _ (Problem.mem_named.mpr ⟨j, hj, rfl⟩)
  obtain ⟨drawn, hgives, hmeasured⟩ := hgains.isMeasured isReduction_id hpriors
  refine ⟨drawn, ?_, hmeasured⟩
  have htakes := htakes₁.append htakes₂
  have htaken : d₂.taken = d.taken + p.truth.totalDim := by
    rw [htakes.taken_eq, totalDim_of_planar fun entry h => (hat entry h).2, List.length_append, hzs₁, hzs₂,
      htruth, List.length_append, Problem.length_named, Problem.length_named, Nat.add_mul]
  rw [← htaken]
  exact fun i hi => htakes.source_eq ▸ hgives i hi

end RangeNetwork

/-! ### Differences -/

namespace LinearChain

variable {point : Table (Vec ℝ)} {noise : Noise ℝ} {g g' : Graph ℝ} {d e : Draws ℝ} {p : Problem ℝ}

/-- A difference that is measured with noise is missed by this noise, backwards. -/
theorem between_measures {f : Factor ℝ} {a b : Key} {u v zs : Vec ℝ} (ha : point.get? a = some u)
    (hb : point.get? b = some v) (hu : u.length = noise.dim) (hv : v.length = noise.dim)
    (hloss : noise.loss = .none) (hzs : zs.length = noise.dim)
    (h : Factor.between a b (.ofVector (Vec.add (Vec.sub v u) (noise.errors zs))) (some noise) none = .ok f) :
    f.Measures point noise id zs := by
  obtain ⟨-, -, rfl⟩ := Factor.between_eq_ok.mp h
  have herrors : (noise.errors zs).length = noise.dim := by
    rw [Noise.errors, List.length_zipWith, hzs, ← Noise.dim, min_self]
  refine ⟨rfl, hzs, rfl, hloss, ?_, by rwa [Vec.neg, id, List.length_map]⟩
  refine bind_eq_ok.mpr ⟨v, Table.find_eq_ok.mpr hb, bind_eq_ok.mpr ⟨u, Table.find_eq_ok.mpr ha, ?_⟩⟩
  refine bind_eq_ok.mpr ⟨_, combine_of_length_eq _ _ _ (hv.trans hu.symm), ?_⟩
  -- what is left is the difference taken from itself with the noise
  have hdifference : (Vec.sub v u).length = (noise.errors zs).length := by
    rw [herrors, Vec.sub, List.length_zipWith, hu, hv, min_self]
  have hsum : (Vec.sub v u).length = (Vec.add (Vec.sub v u) (noise.errors zs)).length := by
    rw [Vec.add, List.length_zipWith, ← hdifference, min_self]
  refine map_eq_ok.mpr ⟨_, combine_of_length_eq _ _ _ hsum, ?_⟩
  exact congrArg Tensor.ofVector (Vec.sub_add_self hdifference)

variable {chain : LinearChain ℝ} {sigma : Given ℝ} {x : ℝ} {n : ℤ}

theorem measureStep_gains {a b : Key × Vec ℝ} {k : ℕ} (hdim : chain.dim = .integer k)
    (hsigma : chain.sigma.IsNumber x) (ha : point.get? a.1 = some a.2 ∧ a.2.length = k)
    (hb : point.get? b.1 = some b.2 ∧ b.2.length = k)
    (h : (measureStep chain g a b).run d = .ok (g', e)) :
    Problem.Gains point ⟨List.replicate k x, .none⟩ id g d g' e := by
  rw [measureStep, hdim] at h
  obtain ⟨t, d', ht, h⟩ := Draws.run_bind_eq_ok.mp h
  obtain ⟨zs, hlength, rfl, htakes⟩ := noiseOf_takes hsigma ht
  obtain ⟨measured, hmeasured, h⟩ := Draws.run_lift_bind_eq_ok.mp h
  obtain ⟨noise, hnoise, h⟩ := Draws.run_lift_bind_eq_ok.mp h
  obtain ⟨f, hf, rfl, rfl⟩ := Problem.addFactor_eq_ok h
  obtain rfl : k = zs.length := by exact_mod_cast hlength
  obtain rfl := hsigma.of_filled hnoise
  have herrors : zs.map (x * ·) = Noise.errors ⟨List.replicate zs.length x, .none⟩ zs := by
    refine List.ext_getElem (by simp [Noise.errors]) fun i _ _ => ?_
    simp [Noise.errors]
  have hdifference : (Vec.sub b.2 a.2).length = (zs.map (x * ·)).length := by
    rw [Vec.sub, List.length_zipWith, ha.2, hb.2, min_self, List.length_map]
  rw [Tensor.combine_ofVector, combine_of_length_eq _ _ _ hdifference, herrors] at hmeasured
  cases hmeasured
  have hsize : Noise.dim (⟨List.replicate zs.length x, .none⟩ : Noise ℝ) = zs.length := List.length_replicate
  exact .add
    (between_measures ha.1 hb.1 (ha.2.trans hsize.symm) (hb.2.trans hsize.symm) rfl hsize.symm hf) htakes

/-- **At the truth of a chain of vectors every difference is missed by its noise**, and the first vector is not
    missed. -/
theorem isMeasured_of_returned (hdim : chain.dim = .integer n) (hsigma : chain.sigma.IsNumber x)
    (h : chain.problem.run d = .ok (p, e)) :
    ∃ drawn, d.Gives (d.taken + p.truth.totalDim) drawn.flatten ∧
      p.IsMeasured ⟨List.replicate n.toNat x, .none⟩ id drawn := by
  obtain ⟨count, -, h⟩ := Draws.run_lift_bind_eq_ok.mp h
  obtain ⟨entries, d₁, hentries, h⟩ := Draws.run_bind_eq_ok.mp h
  obtain ⟨first, hfirst, h⟩ := Draws.run_lift_bind_eq_ok.mp h
  obtain ⟨noise, hnoise, h⟩ := Draws.run_lift_bind_eq_ok.mp h
  obtain ⟨anchored, d₂, hanchored, h⟩ := Draws.run_bind_eq_ok.mp h
  obtain ⟨chained, d₃, hchained, h⟩ := Draws.run_bind_eq_ok.mp h
  obtain ⟨rfl, -⟩ := Draws.run_pure_eq_ok.mp h
  rw [hdim] at hentries hnoise
  obtain ⟨-, hsizes, zs, hzs, htakes⟩ := drawVectors_takes hentries
  have hget : Table.get? entries (.number 0) = some first := Table.find_eq_ok.mp hfirst
  obtain rfl : n = first.length := (hsizes _ (mem_of_lookup hget)).symm
  obtain rfl := hsigma.of_filled hnoise
  have hnodup : (Table.keys entries).Nodup := nodup_of_drawVectors hentries
  have hat : ∀ entry ∈ entries, Table.get? entries entry.1 = some entry.2 ∧ entry.2.length = first.length :=
    fun entry hentry => ⟨Table.get?_of_mem hnodup hentry, by exact_mod_cast hsizes entry hentry⟩
  obtain ⟨f, hf, rfl, rfl⟩ := Problem.addFactor_eq_ok hanchored
  have hgains : Problem.Gains entries ⟨List.replicate first.length x, .none⟩ id
      ⟨Graph.empty.factors ++ [Graph.empty.named f]⟩ d₁ chained d₃ := by
    refine .foldlM (fun g => g) ?_ hchained
    intro pair hpair g d g' d' hrun
    obtain ⟨ha, hb⟩ := List.of_mem_zip hpair
    exact measureStep_gains hdim hsigma (hat _ ha) (hat _ (List.mem_of_mem_tail hb)) hrun
  have hpriors : ∀ prior ∈ (⟨Graph.empty.factors ++ [Graph.empty.named f]⟩ : Graph ℝ).factors,
      prior.measurement.isPrior = true ∧ prior.Meets entries :=
    Problem.priors_concat (List.forall_mem_nil _) (Factor.prior_meets hget rfl hf)
  obtain ⟨drawn, hgives, hmeasured⟩ :=
    Problem.Gains.isMeasured (p := ⟨chained, ⟨entries⟩, _⟩) isReduction_id hpriors hgains
  refine ⟨drawn, ?_, hmeasured⟩
  rw [← hzs, ← htakes.taken_eq]
  exact fun i hi => htakes.source_eq ▸ hgives i hi

end LinearChain

/-! ### All generators -/

namespace Problem

/-- **At the truth of a generated problem the noise alone is missed.**  Every prior is met, and every measurement
    is missed by the noise that was drawn for it, backwards and with headings reduced; so the truth costs half
    the squares of the noise in units of its standard deviations, and nothing if no noise was drawn.  The noise
    of poses is drawn before anything else, that of distances and differences after the truth. -/
theorem truth_misses_noise (d e : Draws ℝ) (p : Problem ℝ) :
    (∀ chain : PoseChain ℝ, chain.problem.run d = .ok (p, e) →
      ∃ noise drawn, Noise.diagonal chain.sigmas = .ok noise ∧ d.Gives d.taken drawn.flatten ∧
        p.IsMeasured noise Pose2.wrapHeading drawn) ∧
    (∀ (network : RangeNetwork ℝ) (sigma : ℝ), network.rangeSigma.IsNumber sigma →
      network.problem.run d = .ok (p, e) →
      ∃ drawn, d.Gives (d.taken + p.truth.totalDim) drawn.flatten ∧ p.IsMeasured ⟨[sigma], .none⟩ id drawn) ∧
    (∀ (chain : LinearChain ℝ) (n : ℤ) (sigma : ℝ), chain.dim = .integer n → chain.sigma.IsNumber sigma →
      chain.problem.run d = .ok (p, e) →
      ∃ drawn, d.Gives (d.taken + p.truth.totalDim) drawn.flatten ∧
        p.IsMeasured ⟨List.replicate n.toNat sigma, .none⟩ id drawn) := by
  refine ⟨?_, ?_, ?_⟩
  · intro chain h
    exact PoseChain.isMeasured_of_returned h
  · intro network sigma hsigma h
    exact RangeNetwork.isMeasured_of_returned hsigma h
  · intro chain n sigma hdim hsigma h
    exact LinearChain.isMeasured_of_returned hdim hsigma h

/-- Two or three variables of each kind, with draws that rise and then stay. -/
theorem truth_misses_noise_halfFrom :
    (∃ p e noise drawn, (PoseChain.ofCount (.integer 3) : PoseChain ℝ).problem.run (RangeNetwork.halfFrom 7) =
      .ok (p, e) ∧ (RangeNetwork.halfFrom 7).Gives 0 drawn.flatten ∧ p.IsMeasured noise Pose2.wrapHeading drawn) ∧
    (∃ p e drawn, (RangeNetwork.ofPoints (.integer 2) : RangeNetwork ℝ).problem.run (RangeNetwork.halfFrom 7) =
      .ok (p, e) ∧ p.IsMeasured ⟨[0.01], .none⟩ id drawn) ∧
    (∃ p e drawn, (LinearChain.ofCount (.integer 2) : LinearChain ℝ).problem.run (RangeNetwork.halfFrom 7) =
      .ok (p, e) ∧ p.IsMeasured ⟨[0.1, 0.1], .none⟩ id drawn) := by
  have hd : (RangeNetwork.halfFrom 7).Endless := fun place => ⟨_, rfl⟩
  refine ⟨?_, ?_, ?_⟩
  · have hcount : (PoseChain.ofCount (.integer 3) : PoseChain ℝ).count = .integer (3 : ℕ) := rfl
    have hstep : Tensor.ofGiven (PoseChain.ofCount (.integer 3) : PoseChain ℝ).step =
        .ok (.ofVector (Pose2.toVec ⟨1.0, 0.0, 0.2⟩)) := Tensor.ofGiven_ofVector _
    obtain ⟨p, e, h⟩ := PoseChain.problem_returns hcount (by norm_num) hstep
      (PoseChain.diagonal_ofCount _) rfl ⟨rfl, rfl⟩ hd
    obtain ⟨noise, drawn, -, hgives, hmeasured⟩ := (truth_misses_noise _ e p).1 _ h
    exact ⟨p, e, noise, drawn, h, hgives, hmeasured⟩
  · obtain ⟨p, e, h⟩ := RangeNetwork.problem_returns (d := RangeNetwork.halfFrom 7)
      (RangeNetwork.isSized_ofPoints 2) ⟨rfl, rfl⟩ (le_refl 3) (by norm_num) (fun _ => rfl) (by decide)
      (.inr RangeNetwork.nodup_halfFrom)
    obtain ⟨drawn, -, hmeasured⟩ := (truth_misses_noise _ e p).2.1 _ _ ⟨rfl, rfl⟩ h
    exact ⟨p, e, drawn, h, hmeasured⟩
  · have hcount : (LinearChain.ofCount (.integer 2) : LinearChain ℝ).count = .integer (2 : ℕ) := rfl
    have hdim : (LinearChain.ofCount (.integer 2) : LinearChain ℝ).dim = .integer (2 : ℕ) := rfl
    obtain ⟨p, e, h⟩ := LinearChain.problem_returns hcount two_ne_zero hdim two_ne_zero (by decide) ⟨rfl, rfl⟩
      (by norm_num) hd
    obtain ⟨drawn, -, hmeasured⟩ := (truth_misses_noise _ e p).2.2 _ 2 _ rfl ⟨rfl, rfl⟩ h
    exact ⟨p, e, drawn, h, hmeasured⟩

end Problem

end LeastSquares
