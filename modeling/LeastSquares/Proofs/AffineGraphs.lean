/-
  LeastSquares/Proofs/AffineGraphs.lean
  =====================================
  **The cost of an affine graph, and the linear problem that stands for it.**

  An affine graph has terms: the whitened linear factors that its factors follow, each with its noise.  Its
  cost is the sum of the losses of what the terms miss, and its linearization misses at a step the weighted
  sum of what the terms miss at the moved estimate.  Because each loss lies below its quadratic, the cost
  goes down at least as far as half of what the linear problem misses.
-/
import LeastSquares.Proofs.AffineFactors
import LeastSquares.Proofs.MissingVariables
import LeastSquares.Proofs.RobustLosses

namespace LeastSquares

open Vec

theorem LinearFactor.misfit_nonneg (f : LinearFactor ℝ) (x : Assignment) : 0 ≤ f.misfit x :=
  squares_nonneg _

theorem LinearFactor.Fits.get?_of_mem {f : LinearFactor ℝ} {dims : Table ℕ} (hfits : f.Fits dims)
    {key : Key} (hkey : key ∈ f.keys) : ∃ n, dims.get? key = some n := by
  cases f with
  | arrays blocks rhs => exact hfits.elim
  | dense blocks rhs =>
    obtain ⟨entry, hentry, rfl⟩ := List.mem_map.mp hkey
    exact ⟨_, (hfits.2 entry hentry).1⟩

/-- What a factor misses depends on the components that there are. -/
theorem LinearFactor.Fits.misfit_congr {f : LinearFactor ℝ} {dims : Table ℕ} (hfits : f.Fits dims)
    {x y : Assignment} (h : ∀ key n, dims.get? key = some n → ∀ j < n, x key j = y key j) :
    f.misfit x = f.misfit y := by
  refine congrArg squares (missed_congr hfits fun key hkey j hj => ?_)
  obtain ⟨n, hn⟩ := hfits.get?_of_mem hkey
  exact h key n hn j (Table.dimOf_eq hn ▸ hj)

/-! ### Terms -/

/-- The whitened linear factors that the factors of a graph follow, with their noise. -/
abbrev Terms := List (Noise ℝ × LinearFactor ℝ)

namespace Terms

/-- The sum of the losses of what the terms miss. -/
noncomputable def cost (terms : Terms) (x : Assignment) : ℝ :=
  (terms.map fun t => t.1.loss.cost (Real.sqrt (t.2.misfit x))).sum

/-- What the terms miss at an assignment, with the weights that they have at another. -/
noncomputable def weighted (terms : Terms) (x z : Assignment) : ℝ :=
  (terms.map fun t => t.1.loss.weight (Real.sqrt (t.2.misfit x)) * t.2.misfit z).sum

/-- The losses of all terms have parameters for which they are losses. -/
def IsProper (terms : Terms) : Prop := ∀ t ∈ terms, t.1.loss.IsProper

variable {terms : Terms}

/-- **The cost lies below the weighted squares**, which touch it where the weights are taken. -/
theorem cost_le (h : terms.IsProper) (x z : Assignment) :
    terms.cost z ≤ terms.cost x + 1 / 2 * (terms.weighted x z - terms.weighted x x) := by
  induction terms with
  | nil => simp [cost, weighted]
  | cons t terms ih =>
    have hrest := ih fun t' ht' => h t' (List.mem_cons_of_mem _ ht')
    have hterm := Loss.cost_le (h t (by simp)) (Real.sqrt_nonneg (t.2.misfit x))
      (Real.sqrt_nonneg (t.2.misfit z))
    rw [Real.sq_sqrt (t.2.misfit_nonneg z), Real.sq_sqrt (t.2.misfit_nonneg x)] at hterm
    simp only [cost, weighted, List.map_cons, List.sum_cons] at hrest ⊢
    linarith

/-- Without robust losses the cost is half the weighted squares. -/
theorem weighted_eq (h : ∀ t ∈ terms, t.1.loss.isRobust = false) (x z : Assignment) :
    1 / 2 * terms.weighted x z = terms.cost z := by
  rw [cost, weighted, ← List.sum_map_mul_left]
  refine congrArg List.sum (List.map_congr_left fun t ht => ?_)
  have hquadratic : t.1.loss = .none := by
    have hloss := h t ht
    revert hloss
    cases t.1.loss <;> simp [Loss.isRobust]
  rw [hquadratic, Loss.cost_none, Real.sq_sqrt (t.2.misfit_nonneg z), Loss.weight]
  norm_num

theorem cost_congr {dims : Table ℕ} (hfits : ∀ t ∈ terms, t.2.Fits dims) {x y : Assignment}
    (h : ∀ key n, dims.get? key = some n → ∀ j < n, x key j = y key j) :
    terms.cost x = terms.cost y :=
  congrArg List.sum (List.map_congr_left fun t ht => by rw [(hfits t ht).misfit_congr h])

end Terms

/-! ### Graphs -/

namespace Graph

variable {g : Graph ℝ} {dims : Table ℕ} {terms : Terms} {v w : Values ℝ}

/-- All factors of a graph are affine for sizes of variables. -/
def IsAffine (g : Graph ℝ) (dims : Table ℕ) : Prop := ∀ f ∈ g.factors, f.measurement.IsAffine dims

/-- The losses of a graph have parameters for which they are losses. -/
def HasProperLosses (g : Graph ℝ) : Prop :=
  ∀ f ∈ g.factors, ∀ noise, f.noise = some noise → noise.loss.IsProper

/-- No factor of a graph has a robust loss. -/
def IsQuadratic (g : Graph ℝ) : Prop :=
  ∀ f ∈ g.factors, ∀ noise, f.noise = some noise → noise.loss.isRobust = false

/-- The factors of a graph follow terms, one after another. -/
def Follows (g : Graph ℝ) (dims : Table ℕ) (terms : Terms) : Prop :=
  List.Forall₂ (fun f t => f.Follows dims t.1 t.2) g.factors terms

theorem Follows.exists_factor (h : g.Follows dims terms) :
    ∀ t ∈ terms, ∃ f ∈ g.factors, f.Follows dims t.1 t.2 := fun _ ht =>
  exists_right_of_mem (List.Forall₂.flip h) ht

theorem Follows.exists_term (h : g.Follows dims terms) :
    ∀ f ∈ g.factors, ∃ t ∈ terms, f.Follows dims t.1 t.2 := fun _ hf => exists_right_of_mem h hf

theorem Follows.fits (h : g.Follows dims terms) : ∀ t ∈ terms, t.2.Fits dims := fun t ht =>
  let ⟨_, _, hfollows⟩ := h.exists_factor t ht
  hfollows.fits

theorem HasProperLosses.isProper (hg : g.HasProperLosses) (h : g.Follows dims terms) :
    terms.IsProper := fun t ht =>
  let ⟨f, hf, hfollows⟩ := h.exists_factor t ht
  hg f hf _ hfollows.noise_eq

theorem IsQuadratic.not_robust (hg : g.IsQuadratic) (h : g.Follows dims terms) :
    ∀ t ∈ terms, t.1.loss.isRobust = false := fun t ht =>
  let ⟨f, hf, hfollows⟩ := h.exists_factor t ht
  hg f hf _ hfollows.noise_eq

/-- A loss that is not robust has no parameter. -/
theorem IsQuadratic.hasProperLosses (hg : g.IsQuadratic) : g.HasProperLosses := by
  intro f hf noise hnoise
  have hloss := hg f hf noise hnoise
  revert hloss
  cases noise.loss <;> simp [Loss.isRobust, Loss.IsProper]

/-- **An affine graph with a cost follows terms.** -/
theorem IsAffine.follows (hg : g.IsAffine dims) (hv : v.dims = dims) {c : ℝ} (hcost : g.cost v = .ok c) :
    ∃ terms, g.Follows dims terms := by
  obtain ⟨⟨⟩, -, hcost⟩ := bind_eq_ok.mp hcost
  obtain ⟨costs, hcosts, -⟩ := bind_eq_ok.mp hcost
  have hall := mapM_eq_ok_iff.mp hcosts
  suffices hterms : ∃ terms : Terms, List.Forall₂ (fun f t => f.Follows dims t.1 t.2) g.factors terms from
    hterms
  rw [IsAffine] at hg
  clear hcosts hcost
  generalize g.factors = factors at hg hall ⊢
  induction hall with
  | nil => exact ⟨[], .nil⟩
  | @cons f _ factors _ hhead _ ih =>
    obtain ⟨blocks, rhs, haffine⟩ := hg f (by simp)
    obtain ⟨terms, hterms⟩ := ih fun f hf => hg f (List.mem_cons_of_mem _ hf)
    obtain ⟨noise, hnoise, hhead⟩ := bind_eq_ok.mp hhead
    obtain ⟨r, hr, -⟩ := map_eq_ok.mp hhead
    obtain ⟨noise', hnoise', hr⟩ := bind_eq_ok.mp hr
    rw [hnoise, Except.ok.injEq] at hnoise'
    subst hnoise'
    have hsome : f.noise = some noise := Factor.needNoise_eq_ok.mp hnoise
    simp only [Factor.residual, haffine.residual_eq v hv, bind, Except.bind] at hr
    obtain ⟨target, htarget⟩ := noise.commonLength_of_whiten hr
    rw [LinearFactor.length_missed haffine.fits] at htarget
    exact ⟨(noise, _) :: terms, .cons (Factor.follows haffine hsome htarget) hterms⟩

theorem Follows.checkKeys (h : g.Follows dims terms) (hv : v.dims = dims) :
    g.checkKeys v = .ok () := by
  refine checkKeys_of_covered fun f hf key hkey => ?_
  obtain ⟨t, -, hfollows⟩ := h.exists_term f hf
  obtain ⟨n, hn⟩ := hfollows.fits.get?_of_mem (hfollows.keys_eq ▸ hkey)
  have hmem := Table.mem_keys_of_get? hn
  rwa [← hv, Values.keys_dims] at hmem

/-- The cost of a graph that follows terms is theirs, at every estimate of the sizes. -/
theorem Follows.cost_eq (h : g.Follows dims terms) (hv : v.dims = dims) :
    g.cost v = .ok (terms.cost v.assignment) := by
  have hcosts : g.factors.mapM (fun f => f.cost v.entries) =
      .ok (terms.map fun t => t.1.loss.cost (Real.sqrt (t.2.misfit v.assignment))) := by
    rw [mapM_eq_ok_iff, List.forall₂_map_right_iff]
    refine h.imp fun f t hfollows => ?_
    have hneed := Factor.needNoise_eq_ok.mpr hfollows.noise_eq
    simp only [Factor.cost, hneed, hfollows.whitened_eq v hv, bind, Except.bind, Except.map, Noise.cost,
      Tensor.ofVector, Vec.norm, Vec.normSq_real, Scalar.sqrt_real, LinearFactor.misfit]
  simp only [Graph.cost, h.checkKeys hv, hcosts, bind, Except.bind, pure, Except.pure, Vec.sum_real,
    Terms.cost]

/-- **The cost of an estimate that is moved by a step.** -/
theorem Follows.cost_retract (h : g.Follows dims terms) (hv : v.dims = dims) {d : Delta ℝ}
    (hretract : v.retract d = .ok w) : g.cost w = .ok (terms.cost (v.assignment + d.assignment)) := by
  rw [h.cost_eq ((Values.dims_of_retract hretract).trans hv), Except.ok.injEq]
  refine Terms.cost_congr h.fits fun key n hn j _ => Values.assignment_retract hretract ?_ j
  have hmem := Table.mem_keys_of_get? hn
  rwa [← hv, Values.keys_dims] at hmem

/-- **The linear problem around an estimate** has a factor for each term, and misses at a step what the
    terms miss at the moved estimate, weighted at the estimate. -/
theorem Follows.linearize_eq (h : g.Follows dims terms) (hproper : terms.IsProper) (hv : v.dims = dims) :
    ∃ linear, g.linearize v = .ok linear ∧ linear.structureKey = g.factors.map (·.keys) ∧
      (∀ f ∈ linear.factors, f.Fits dims) ∧
      ∀ y, linear.misfit y = terms.weighted v.assignment (v.assignment + y) := by
  obtain ⟨linears, hlinears, hkeys, hfits, hmisfit⟩ : ∃ linears,
      g.factors.mapM (fun f => f.linearize v.entries) = .ok linears ∧
      linears.map LinearFactor.keys = g.factors.map (·.keys) ∧ (∀ f ∈ linears, f.Fits dims) ∧
      ∀ y, (linears.map (LinearFactor.misfit y)).sum =
        terms.weighted v.assignment (v.assignment + y) := by
    rw [Follows] at h
    generalize g.factors = factors at h
    induction h with
    | nil => exact ⟨[], rfl, rfl, by simp, fun y => rfl⟩
    | @cons f t factors terms hhead _ ih =>
      obtain ⟨linears, hlinears, hkeys, hfits, hmisfit⟩ :=
        ih fun t ht => hproper t (List.mem_cons_of_mem _ ht)
      obtain ⟨linear, hlinear, hfit, hkey, hmissed⟩ := hhead.linearize_eq v hv
      have hweight : Factor.weightOf t.1 (t.2.missed v.assignment) =
          t.1.loss.weight (Real.sqrt (t.2.misfit v.assignment)) := by
        rw [Factor.weightOf, Noise.weight, Tensor.ofVector, Vec.norm, Vec.normSq_real, Scalar.sqrt_real,
          LinearFactor.misfit]
      have hnonneg := Loss.weight_nonneg (hproper t (by simp))
        (Real.sqrt_nonneg (t.2.misfit v.assignment))
      refine ⟨linear :: linears, mapM_eq_ok_iff.mpr (.cons hlinear (mapM_eq_ok_iff.mp hlinears)),
        by rw [List.map_cons, List.map_cons, hkey, hkeys], List.forall_mem_cons.mpr ⟨hfit, hfits⟩,
        fun y => ?_⟩
      have hfirst : linear.misfit y = t.1.loss.weight (Real.sqrt (t.2.misfit v.assignment)) *
          t.2.misfit (v.assignment + y) := by
        rw [LinearFactor.misfit, hmissed, hweight, Vec.scale, squares_map_mul, Real.sq_sqrt hnonneg]
        rfl
      rw [List.map_cons, List.sum_cons, hmisfit, hfirst]
      rfl
  refine ⟨⟨linears⟩, ?_, hkeys, hfits, hmisfit⟩
  simp only [linearize, h.checkKeys hv, hlinears, bind, Except.bind, pure, Except.pure]

end Graph

/-- A problem whose factors fit sizes accords with every order of the variables that have them. -/
theorem LinearGraph.accords_of_fits {linear : LinearGraph ℝ} {keys : List Key} {dims : Table ℕ}
    (hnodup : keys.Nodup) (hperm : keys.Perm dims.keys) (hfits : ∀ f ∈ linear.factors, f.Fits dims) :
    linear.Accords keys dims := by
  refine ⟨hnodup, fun key hkey => Table.exists_get?_of_mem_keys (hperm.subset hkey), hfits,
    fun f hf key hkey => ?_⟩
  obtain ⟨n, hn⟩ := (hfits f hf).get?_of_mem hkey
  exact hperm.symm.subset (Table.mem_keys_of_get? hn)

end LeastSquares
