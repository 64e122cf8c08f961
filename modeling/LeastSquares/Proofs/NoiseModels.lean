/-
  LeastSquares/Proofs/NoiseModels.lean
  ====================================
  **What construction promises of a noise model.**

  A model is built from standard deviations and a loss, and may be given another loss any number of times.
  Its standard deviations are above zero all along.  The parameters of its loss are taken as they are; if
  they are admissible, no cost is negative and every weight has a root between zero and one, so that a
  factor can be linearized with it and the cost of a graph is a sum of terms that are not negative.  With a
  threshold below zero every cost and every weight of the model is below zero.
-/
import LeastSquares.Graph
import LeastSquares.Proofs.LossBounds
import LeastSquares.Proofs.Steps

namespace LeastSquares

/-! ### Construction -/

namespace Noise

/-- The models that can be built: by their standard deviations and a loss, by one standard deviation for
    all components, and from a built model by replacing its loss. -/
inductive Built : Noise ℝ → Prop
  | make {sigmas : Given ℝ} {loss : String} {parameters : List (String × Given ℝ)} {noise : Noise ℝ}
      (h : Noise.make sigmas loss parameters = .ok noise) : Built noise
  | isotropic {dim : Int} {sigma : ℝ} {noise : Noise ℝ} (h : Noise.isotropic dim sigma = .ok noise) :
      Built noise
  | filled {lengths sigma : Given ℝ} {noise : Noise ℝ} (h : Noise.filled lengths sigma = .ok noise) :
      Built noise
  | robust {noise wrapped : Noise ℝ} {loss : String} {parameters : List (String × Given ℝ)}
      (hnoise : Built noise) (h : noise.robust loss parameters = .ok wrapped) : Built wrapped

variable {noise : Noise ℝ}

/-- Residuals can be divided by the standard deviations. -/
def CanWhiten (noise : Noise ℝ) : Prop := noise.sigmas ≠ [] ∧ ∀ sigma ∈ noise.sigmas, 0 < sigma

theorem checkSigmas_eq_ok {t : Tensor ℝ} {sigmas : Vec ℝ} :
    checkSigmas t = .ok sigmas ↔
      t.vector? = some sigmas ∧ sigmas ≠ [] ∧ ∀ sigma ∈ sigmas, 0 < sigma := by
  unfold checkSigmas
  split
  · next x xs hvector =>
    simp only [hvector, Option.some.injEq]
    split
    · next hsign =>
      obtain ⟨sigma, hmem, hsigma⟩ := List.any_eq_true.mp hsign
      refine iff_of_false (by simp) ?_
      rintro ⟨rfl, -, hpos⟩
      exact (hpos sigma hmem).not_ge (of_decide_eq_true hsigma)
    · next hsign =>
      have hpos : ∀ sigma ∈ x :: xs, 0 < sigma := fun sigma hmem =>
        not_le.mp fun hle => hsign (List.any_eq_true.mpr ⟨sigma, hmem, decide_eq_true hle⟩)
      simp only [Except.ok.injEq]
      exact ⟨by rintro rfl; exact ⟨rfl, List.cons_ne_nil _ _, hpos⟩, fun h => h.1⟩
  · next hnone =>
    refine iff_of_false (by simp) ?_
    rintro ⟨hvector, hne, -⟩
    cases sigmas with
    | nil => exact hne rfl
    | cons x xs => exact hnone x xs hvector

theorem canWhiten_of_ofTensor {t : Tensor ℝ} {loss : String} {parameters : List (String × Given ℝ)}
    (h : ofTensor t loss parameters = .ok noise) : noise.CanWhiten := by
  obtain ⟨sigmas, hsigmas, h⟩ := bind_eq_ok.mp h
  obtain ⟨loss, -, h⟩ := bind_eq_ok.mp h
  cases h
  exact (checkSigmas_eq_ok.mp hsigmas).2

/-- Every way to build a model checks its standard deviations, also those of a model that is given. -/
theorem Built.canWhiten (h : noise.Built) : noise.CanWhiten := by
  cases h with
  | make h =>
    obtain ⟨_, -, h⟩ := bind_eq_ok.mp h
    obtain ⟨t, -, h⟩ := bind_eq_ok.mp h
    exact canWhiten_of_ofTensor h
  | isotropic h =>
    unfold Noise.isotropic at h
    split at h
    · cases h
    · exact canWhiten_of_ofTensor h
  | filled h =>
    obtain ⟨given, -, h⟩ := bind_eq_ok.mp h
    obtain ⟨lengths, -, h⟩ := bind_eq_ok.mp h
    obtain ⟨shape, -, h⟩ := bind_eq_ok.mp h
    obtain ⟨parts, -, h⟩ := bind_eq_ok.mp h
    obtain ⟨sigmas, -, h⟩ := bind_eq_ok.mp h
    exact canWhiten_of_ofTensor h
  | robust _ h =>
    obtain ⟨_, -, h⟩ := bind_eq_ok.mp h
    exact canWhiten_of_ofTensor h

theorem ofTensor_eq_ok {t : Tensor ℝ} {sigmas : Vec ℝ} {loss : String}
    {parameters : List (String × Given ℝ)} {value : Loss ℝ} (hsigmas : checkSigmas t = .ok sigmas)
    (hloss : Loss.named loss parameters = .ok value) : ofTensor t loss parameters = .ok ⟨sigmas, value⟩ := by
  simp only [ofTensor, hsigmas, hloss, bind, Except.bind]
  rfl

theorem built_of_plainOfGiven {number : ℝ → String} {g : Given ℝ}
    (h : plainOfGiven number g = .ok noise) : noise.Built := by
  unfold plainOfGiven at h
  split at h
  · split at h
    · exact .filled h
    · cases h
  · exact .filled h
  · exact .make h
  · obtain ⟨given, -, h⟩ := bind_eq_ok.mp h
    obtain ⟨⟨loss, parameters⟩, -, h⟩ := bind_eq_ok.mp h
    exact .make h

/-- **A model that a description gives is built**, whatever losses it is given in turn. -/
theorem built_of_ofGiven {number : ℝ → String} {g : Given ℝ} (h : ofGiven number g = .ok (some noise)) :
    noise.Built := by
  cases g with
  | null => cases h
  | _ =>
    obtain ⟨plain, hplain, h⟩ := bind_eq_ok.mp h
    obtain ⟨wrapped, hwrapped, h⟩ := bind_eq_ok.mp h
    cases h
    refine foldlM_keeps (fun model given _ model' hmodel hrobust => ?_) (built_of_plainOfGiven hplain)
      hwrapped
    split at hrobust
    · exact .robust hmodel hrobust
    · exact .robust hmodel hrobust
    · exact .robust hmodel hrobust
    · cases hrobust

/-! ### Costs and weights -/

theorem norm_nonneg (xs : Vec ℝ) : 0 ≤ Vec.norm xs := Real.sqrt_nonneg _

theorem cost_nonneg (h : noise.loss.IsAdmissible) (whitened : Tensor ℝ) : 0 ≤ noise.cost whitened :=
  Loss.cost_nonneg h (norm_nonneg _)

theorem weight_mem (h : noise.loss.IsAdmissible) (whitened : Tensor ℝ) :
    noise.weight whitened ∈ Set.Icc 0 1 :=
  Loss.weight_mem h (norm_nonneg _)

/-- With a threshold below zero every residual has a cost and a weight below zero. -/
theorem huber_neg {threshold : ℝ} (hloss : noise.loss = .huber threshold) (h : threshold < 0)
    (whitened : Tensor ℝ) : noise.cost whitened < 0 ∧ noise.weight whitened < 0 := by
  rw [cost, weight, hloss]
  exact Loss.huber_neg h (norm_nonneg _)

end Noise

/-! ### Factors and graphs -/

theorem Mat.scale_one (m : Mat ℝ) : m.scale 1 = m := by
  simp [Mat.scale, Mat.map]

/-- The linear factor of whitened blocks and a whitened residual, all of them scaled by a root. -/
noncomputable def LinearFactor.scaled (root : ℝ) (blocks : Table (Mat ℝ)) (r : Tensor ℝ) :
    Except Error (LinearFactor ℝ) :=
  make (blocks.mapEntries (·.scale root)) (r.map fun x => root * -x)

/-- **A factor is linearized with the root of the weight**: the whitened derivative and the residual are
    scaled by it, also where the weight is one. -/
theorem Factor.linearize_scaled {f : Factor ℝ} {point : Table (Vec ℝ)} {linear : LinearFactor ℝ}
    (h : f.linearize point = .ok linear) :
    ∃ noise r derivative blocks, f.noise = some noise ∧ f.whitened point = .ok r ∧
      f.measurement.derivative point = .ok derivative ∧
      f.keys.mapM (f.whitenedBlock noise point r.outerLength derivative) = .ok blocks ∧
      LinearFactor.scaled (Real.sqrt (noise.weight r)) blocks r = .ok linear := by
  obtain ⟨noise, hnoise, h⟩ := bind_eq_ok.mp h
  obtain ⟨r, hr, h⟩ := bind_eq_ok.mp h
  obtain ⟨derivative, hderivative, h⟩ := bind_eq_ok.mp h
  obtain ⟨blocks, hblocks, h⟩ := bind_eq_ok.mp h
  refine ⟨noise, r, derivative, blocks, needNoise_eq_ok.mp hnoise, hr, hderivative, hblocks, ?_⟩
  split at h
  · simpa [LinearFactor.scaled, Tensor.map, Function.comp_def, Scalar.sqrt_real] using h
  · next hquadratic =>
    have hweight : noise.weight r = 1 := by
      cases hloss : noise.loss with
      | none => norm_num [Noise.weight, hloss, Loss.weight]
      | huber threshold => simp [hloss, Loss.isRobust] at hquadratic
      | cauchy width => simp [hloss, Loss.isRobust] at hquadratic
    simpa [LinearFactor.scaled, hweight, Mat.scale_one, Table.mapEntries] using h

namespace Graph

variable {g : Graph ℝ}

/-- The noise models of a graph are built, and their losses have admissible parameters. -/
def HasBuiltNoise (g : Graph ℝ) : Prop :=
  ∀ f ∈ g.factors, ∀ noise, f.noise = some noise → noise.Built ∧ noise.loss.IsAdmissible

/-- The cost of a graph is made up of the costs of its factors. -/
theorem exists_costs {values : Values ℝ} {total : ℝ} (h : g.cost values = .ok total) :
    ∃ costs, g.factors.mapM (·.cost values.entries) = .ok costs ∧ total = costs.sum := by
  obtain ⟨_, -, h⟩ := bind_eq_ok.mp h
  obtain ⟨costs, hcosts, h⟩ := bind_eq_ok.mp h
  cases h
  exact ⟨costs, hcosts, Vec.sum_real costs⟩

/-- **Built noise models are usable** if the parameters of their losses are admissible: residuals can be
    whitened, no cost is negative and every weight is between zero and one; so a linear factor is scaled by
    a real root of the weight, and the cost of a graph is a sum of terms none of which is negative. -/
theorem built_usable (values : Values ℝ) (h : g.HasBuiltNoise) :
    (∀ f ∈ g.factors, ∀ noise, f.noise = some noise → noise.CanWhiten ∧
      ∀ whitened, 0 ≤ noise.cost whitened ∧ noise.weight whitened ∈ Set.Icc 0 1) ∧
    (∀ f ∈ g.factors, ∀ linear, f.linearize values.entries = .ok linear →
      ∃ noise r blocks, ∃ root : ℝ, f.noise = some noise ∧ f.whitened values.entries = .ok r ∧
        0 ≤ root ∧ root ^ 2 = noise.weight r ∧ LinearFactor.scaled root blocks r = .ok linear) ∧
    ∀ total, g.cost values = .ok total →
      ∃ costs, g.factors.mapM (·.cost values.entries) = .ok costs ∧ total = costs.sum ∧
        ∀ c ∈ costs, 0 ≤ c := by
  refine ⟨fun f hf noise hnoise => ?_, fun f hf linear hlinear => ?_, fun total htotal => ?_⟩
  · obtain ⟨hbuilt, hloss⟩ := h f hf noise hnoise
    exact ⟨hbuilt.canWhiten, fun w => ⟨Noise.cost_nonneg hloss w, Noise.weight_mem hloss w⟩⟩
  · obtain ⟨noise, r, _, blocks, hnoise, hr, -, -, hmake⟩ := Factor.linearize_scaled hlinear
    obtain ⟨-, hloss⟩ := h f hf noise hnoise
    exact ⟨noise, r, blocks, _, hnoise, hr, Real.sqrt_nonneg _,
      Real.sq_sqrt (Noise.weight_mem hloss r).1, hmake⟩
  · obtain ⟨costs, hcosts, hsum⟩ := exists_costs htotal
    refine ⟨costs, hcosts, hsum, fun c hc => ?_⟩
    obtain ⟨f, hf, hcost⟩ := exists_of_mem_mapM hcosts hc
    obtain ⟨noise, hneed, hcost⟩ := bind_eq_ok.mp hcost
    obtain ⟨whitened, -, rfl⟩ := map_eq_ok.mp hcost
    cases hnoise : f.noise with
    | none => simp [hnoise, Factor.needNoise] at hneed
    | some other =>
      obtain rfl : other = noise := by simpa [hnoise, Factor.needNoise] using hneed
      exact Noise.cost_nonneg (h f hf other hnoise).2 whitened

end Graph

/-! ### Thresholds -/

namespace OneResidual

/-- The noise of one residual in units of its standard deviation, with a threshold. -/
noncomputable def noise (threshold : ℝ) : Noise ℝ := ⟨[1], .huber threshold⟩

/-- One measurement of one number, which should be zero. -/
noncomputable def graph (threshold : ℝ) : Graph ℝ :=
  ⟨[⟨.prior (.number 0) (.ofVector [0]), some (noise threshold), some "anchor"⟩]⟩

theorem unit_eq : Noise.unit 1 = .ok (⟨[1], .none⟩ : Noise ℝ) :=
  Noise.ofTensor_eq_ok (Noise.checkSigmas_eq_ok.mpr (by simp [Tensor.vector?, Tensor.ofVector])) rfl

theorem robust_eq (threshold : ℝ) :
    (⟨[1], .none⟩ : Noise ℝ).robust "huber" [("delta", .real threshold)] = .ok (noise threshold) := by
  have hchecked : Noise.checkSigmas (Tensor.ofVector [1]) = .ok ([1] : Vec ℝ) :=
    Noise.checkSigmas_eq_ok.mpr (by simp [Tensor.vector?, Tensor.ofVector])
  exact Noise.ofTensor_eq_ok hchecked (Loss.named_parameters (.huber threshold))

/-- Whatever the threshold is, the model is built. -/
theorem built (threshold : ℝ) : (noise threshold).Built := .robust (.isotropic unit_eq) (robust_eq threshold)

theorem hasBuiltNoise {threshold : ℝ} (h : 0 ≤ threshold) : (graph threshold).HasBuiltNoise := by
  intro f hf n hn
  rw [graph, List.mem_singleton] at hf
  subst hf
  cases hn
  exact ⟨built threshold, h⟩

/-- A model with a threshold below zero is built, and no residual has a cost or a weight in range, not even
    where nothing is missed. -/
theorem negative_threshold :
    (noise (-1)).Built ∧
      (∀ whitened, (noise (-1)).cost whitened < 0 ∧ (noise (-1)).weight whitened < 0) ∧
      (noise (-1)).cost (.ofVector [0]) = -1 / 2 ∧ (noise (-1)).weight (.ofVector [0]) = -10 ^ 12 := by
  have hlength : Vec.norm [(0 : ℝ)] = 0 := by
    rw [Vec.norm, Vec.normSq_real]
    simp [Scalar.sqrt_real]
  have houtside : (-1 : ℝ) < 0 := by norm_num
  refine ⟨built (-1), Noise.huber_neg rfl houtside, ?_, ?_⟩
  · rw [Noise.cost, Tensor.ofVector, hlength, noise, Loss.cost_huber le_rfl, if_neg houtside.not_ge]
    norm_num
  · rw [Noise.weight, Tensor.ofVector, hlength, noise, Loss.weight_huber_beyond le_rfl houtside]
    norm_num

end OneResidual

/-- A threshold of zero, where every residual but zero has the weight zero. -/
theorem Graph.built_usable_zero :
    (OneResidual.graph 0).HasBuiltNoise ∧
      (OneResidual.noise 0).weight (.ofVector [4]) ∈ Set.Icc (0 : ℝ) 1 := by
  have hbuilt := OneResidual.hasBuiltNoise le_rfl
  have husable := (built_usable ⟨[(.number 0, [4])]⟩ hbuilt).1 _ (List.mem_singleton_self _) _ rfl
  exact ⟨hbuilt, (husable.2 _).2⟩

end LeastSquares
