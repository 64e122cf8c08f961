/-
  LeastSquares/Proofs/CostReports.lean
  ====================================
  **The costs, the residuals and the linear problem that a report is made of tell one story.**

  A report looks at a graph in four ways.  It enters the cost of each factor under its name, stacks the
  whitened residuals, linearizes, and ranks the costs.  Since names are distinct no cost is written over
  another, so the entries add up to the cost of the graph.  Without robust losses each cost is half the
  sum of the squares of some of the stacked residuals, which is what the linear factor costs at the step
  that moves nothing.
-/
import LeastSquares.Proofs.AffineGraphs
import LeastSquares.Proofs.FactorNames
import LeastSquares.Proofs.RankReports

namespace LeastSquares

/-! ### Sums of squares -/

namespace Vec

theorem squares_flatten (xss : List (List ℝ)) : squares xss.flatten = (xss.map squares).sum := by
  induction xss with
  | nil => rfl
  | cons xs xss ih => rw [List.flatten_cons, squares_append, ih, List.map_cons, List.sum_cons]

theorem squares_neg (xs : Vec ℝ) : squares (neg xs) = squares xs := by
  rw [squares, neg, List.map_map]
  exact congrArg List.sum (List.map_congr_left fun x _ => neg_sq x)

/-- The squares of the deviations from a number. -/
theorem squares_deviations (xs : List ℝ) (c : ℝ) :
    squares (xs.map (· - c)) = squares xs - 2 * c * xs.sum + xs.length * c ^ 2 := by
  induction xs with
  | nil => simp
  | cons x xs ih =>
    rw [List.map_cons, squares_cons, ih, squares_cons, List.sum_cons, List.length_cons]
    push_cast
    ring

theorem squares_le_of_abs_le {xs : List ℝ} {m : ℝ} (h : ∀ x ∈ xs, |x| ≤ m) :
    squares xs ≤ xs.length * m ^ 2 := by
  rw [squares, ← List.length_map (f := (· ^ 2)), ← nsmul_eq_mul]
  refine List.sum_le_card_nsmul _ _ (List.forall_mem_map.mpr fun x hx => ?_)
  exact sq_le_sq' (abs_le.mp (h x hx)).1 (abs_le.mp (h x hx)).2

end Vec

/-! ### Statistics -/

/-- What holds of the statistics of any numbers. -/
structure Statistics.IsConsistent (s : Statistics ℝ) : Prop where
  rms_sq : s.rms ^ 2 = s.mean ^ 2 + s.deviation ^ 2
  abs_mean_le : |s.mean| ≤ s.rms
  rms_le : s.rms ≤ s.greatest

namespace Diagnostics

/-- **The mean of the squares is the square of the mean and that of the deviation.** -/
theorem statisticsOf_spec {rs : List ℝ} {s : Statistics ℝ} (h : statisticsOf (.ofVector rs) = .ok s) :
    s.IsConsistent ∧ s.count = rs.length ∧ s.count * s.rms ^ 2 = Vec.squares rs := by
  have hcount : s.count = rs.length := count_of_statisticsOf h
  rw [statisticsOf] at h
  split_ifs at h with hempty
  · cases h
    obtain rfl := List.length_eq_zero_iff.mp hempty
    refine ⟨⟨?_, ?_, ?_⟩, rfl, ?_⟩ <;> simp
  split at h
  · cases h
  next greatest hgreatest =>
  obtain ⟨hnonneg, hbound, -⟩ := Vec.maxAbs?_real hgreatest
  have hpos : (0 : ℝ) < rs.length := Nat.cast_pos.mpr (Nat.pos_of_ne_zero hempty)
  set mean := rs.sum / rs.length with hmean
  have hdeviations : (rs.map fun r => Scalar.sq (r - mean)).sum = Vec.squares (rs.map (· - mean)) := by
    rw [Vec.squares, List.map_map]
    exact congrArg List.sum (List.map_congr_left fun r _ => (sq _).symm)
  simp only [Tensor.ofVector, Vec.normSq_real, Vec.sum_real, Scalar.ofNat_real, Scalar.sqrt_real, ← hmean,
    hdeviations] at h
  cases h
  have hrms : 0 ≤ Vec.squares rs / rs.length := div_nonneg (Vec.squares_nonneg rs) hpos.le
  have hspread : 0 ≤ Vec.squares (rs.map (· - mean)) / rs.length :=
    div_nonneg (Vec.squares_nonneg _) hpos.le
  have hsum : Vec.squares rs / rs.length = mean ^ 2 + Vec.squares (rs.map (· - mean)) / rs.length := by
    rw [Vec.squares_deviations, hmean]
    field_simp
    ring
  refine ⟨⟨?_, ?_, ?_⟩, hcount, ?_⟩
  · rw [Real.sq_sqrt hrms, Real.sq_sqrt hspread, hsum]
  · refine Real.abs_le_sqrt ?_
    rw [hsum]
    exact le_add_of_nonneg_right hspread
  · rw [Real.sqrt_le_left hnonneg, div_le_iff₀' hpos]
    exact Vec.squares_le_of_abs_le hbound
  · rw [hcount, Real.sq_sqrt hrms, mul_div_cancel₀ _ hpos.ne']

/-! ### Costs by name -/

section Entered

variable {α : Type}

theorem enterCost_of_notMem {costs : List (String × α)} {id : String} (h : id ∉ costs.map (·.1)) (cost : α) :
    enterCost costs id cost = costs ++ [(id, cost)] := by
  induction costs with
  | nil => rfl
  | cons entry costs ih =>
    obtain ⟨hne, hrest⟩ := not_or.mp (List.mem_cons.not.mp h)
    rw [enterCost, if_neg (Ne.symm hne), ih hrest, List.cons_append]

/-- **No cost is written over another** where the names are distinct. -/
theorem foldl_enterCost {before rows : List (String × α)} (h : ((before ++ rows).map (·.1)).Nodup) :
    rows.foldl (fun costs row => enterCost costs row.1 row.2) before = before ++ rows := by
  induction rows generalizing before with
  | nil => rw [List.foldl_nil, List.append_nil]
  | cons row rows ih =>
    have hfresh : row.1 ∉ before.map (·.1) := by
      rw [List.map_append, List.map_cons, List.nodup_append] at h
      exact fun hmem => h.2.2 _ hmem _ List.mem_cons_self rfl
    have hsplit : before ++ row :: rows = (before ++ [row]) ++ rows := by simp
    rw [List.foldl_cons, enterCost_of_notMem hfresh, hsplit]
    exact ih (hsplit ▸ h)

end Entered

/-! ### The greatest costs -/

/-- The first of the costs in descending order, so many of them, where equal ones stay in order. -/
structure ListsGreatest (costs greatest : List (String × ℝ)) (count : ℕ) : Prop where
  length_eq : greatest.length = min count costs.length
  descending : greatest.Pairwise fun a b => b.2 ≤ a.2
  /-- Of equal costs the first are listed, in their order. -/
  stable : ∀ cost, greatest.filter (·.2 = cost) <+: costs.filter (·.2 = cost)
  /-- What is left out is no greater than what is listed. -/
  omitted : ∃ rest, (greatest ++ rest).Perm costs ∧ ∀ a ∈ greatest, ∀ b ∈ rest, b.2 ≤ a.2

/-- Where the greatest of two equal costs is asked for, the first is listed. -/
theorem ListsGreatest.eq_first {a b : String} {cost : ℝ} {greatest : List (String × ℝ)}
    (h : ListsGreatest [(a, cost), (b, cost)] greatest 1) : greatest = [(a, cost)] := by
  obtain ⟨entry, hentry⟩ := List.length_eq_one_iff.mp h.length_eq
  obtain ⟨rest, hperm, -⟩ := h.omitted
  have hfirst := h.stable cost
  rw [hentry] at hperm hfirst ⊢
  have hequal : entry.2 = cost := by
    have hmem := hperm.subset (List.mem_append_left rest (List.mem_singleton_self entry))
    simp only [List.mem_cons, List.not_mem_nil, or_false] at hmem
    rcases hmem with rfl | rfl <;> rfl
  simpa [hequal] using hfirst

/-- **Sorting keeps the order of equal costs.** -/
theorem ranked_spec (costs : List (String × ℝ)) :
    (ranked costs).Perm costs ∧ (ranked costs).Pairwise (fun a b => b.2 ≤ a.2) ∧
      ∀ cost, (ranked costs).filter (·.2 = cost) = costs.filter (·.2 = cost) := by
  have htrans : ∀ a b c : String × ℝ, decide (b.2 ≤ a.2) = true → decide (c.2 ≤ b.2) = true →
      decide (c.2 ≤ a.2) = true := by
    simp only [decide_eq_true_eq]
    exact fun a b c hab hbc => hbc.trans hab
  have htotal : ∀ a b : String × ℝ, (decide (b.2 ≤ a.2) || decide (a.2 ≤ b.2)) = true := by
    simp [le_total]
  have hsorted : ranked costs = costs.mergeSort fun a b => decide (b.2 ≤ a.2) := by
    rw [ranked, if_pos]
    simp [Scalar.isNumber]
  rw [hsorted]
  have hperm := List.mergeSort_perm costs fun a b => decide (b.2 ≤ a.2)
  refine ⟨hperm, (List.pairwise_mergeSort htrans htotal costs).imp of_decide_eq_true, fun cost => ?_⟩
  -- equal costs are sorted as they stand, and so are found in the sorted list in their order
  have hequal : (costs.filter (·.2 = cost)).Pairwise fun a b => decide (b.2 ≤ a.2) = true := by
    refine List.pairwise_of_forall_mem_list fun a ha b hb => decide_eq_true ?_
    rw [of_decide_eq_true (List.mem_filter.mp ha).2, of_decide_eq_true (List.mem_filter.mp hb).2]
  have hfound := (List.sublist_mergeSort htrans htotal hequal List.filter_sublist).filter (·.2 = cost)
  simp only [List.filter_filter, Bool.and_self] at hfound
  exact (hfound.eq_of_length (hperm.filter _).length_eq.symm).symm

theorem listsGreatest_firstItems (costs : List (String × ℝ)) (count : ℕ) :
    ListsGreatest costs (firstItems (ranked costs) (some (count : ℤ))) count := by
  obtain ⟨hperm, hsorted, hstable⟩ := ranked_spec costs
  have hfirst : firstItems (ranked costs) (some (count : ℤ)) = (ranked costs).take count := by
    simp [firstItems]
  have hsplit := List.take_append_drop count (ranked costs)
  rw [hfirst]
  constructor
  case length_eq => rw [List.length_take, hperm.length_eq]
  case descending => exact hsorted.sublist (List.take_sublist ..)
  case stable =>
    intro cost
    rw [← hstable cost]
    exact (List.take_prefix ..).filter _
  case omitted =>
    rw [← hsplit, List.pairwise_append] at hsorted
    exact ⟨(ranked costs).drop count, hsplit.symm ▸ hperm, hsorted.2.2⟩

end Diagnostics

/-! ### The step that moves nothing -/

theorem Vec.dot_zeros (xs : Vec ℝ) (n : ℕ) : dot xs (zeros n) = 0 := by
  rw [dot, List.zipWith_comm_of_comm mul_comm]
  exact dot_replicate_zero n xs

theorem Mat.mulVec?_zeros (m : Mat ℝ) : m.mulVec? (Vec.zeros m.width) = .ok (Vec.zeros m.height) := by
  rw [mulVec?, if_pos (by simp [Vec.zeros]), mulVec]
  simp only [Vec.dot_zeros, List.map_const', height]
  rfl

/-- At the step that moves nothing, a factor misses its right-hand side. -/
theorem LinearFactor.denseResidual_zero {dims : Table ℕ} {blocks : Table (Mat ℝ)} {rhs : Vec ℝ}
    (hblocks : ∀ entry ∈ blocks, dims.get? entry.1 = some entry.2.width ∧ entry.2.height = rhs.length) :
    denseResidual blocks rhs (Delta.zero dims) = .ok (Vec.neg rhs) := by
  have hstep : ∀ entry ∈ blocks, (do
      let x ← (Delta.zero dims).get entry.1
      let product ← entry.2.mulVec? x
      return Vec.add (Vec.neg rhs) product : Except Error (Vec ℝ)) = .ok (Vec.neg rhs) := by
    intro entry hentry
    obtain ⟨hwidth, hheight⟩ := hblocks entry hentry
    have hget : (Delta.zero dims : Delta ℝ).get entry.1 = .ok (Vec.zeros entry.2.width) := by
      rw [Delta.get, Table.find_eq_ok, Delta.zero, Table.get?_mapEntries, hwidth]
      rfl
    have hadd : Vec.add (Vec.neg rhs) (Vec.zeros rhs.length) = Vec.neg rhs := by
      refine List.ext_getElem (by simp [Vec.add, Vec.neg, Vec.zeros]) fun i _ _ => ?_
      simp [Vec.add, Vec.zeros]
    refine bind_eq_ok.mpr ⟨_, hget, bind_eq_ok.mpr ⟨_, entry.2.mulVec?_zeros, ?_⟩⟩
    rw [hheight, hadd]
    rfl
  rw [denseResidual]
  induction blocks with
  | nil => rfl
  | cons entry blocks ih =>
    obtain ⟨hfirst, hrest⟩ := List.forall_mem_cons.mp hstep
    rw [foldlM_ok_cons hfirst]
    exact ih (fun entry hentry => hblocks entry (List.mem_cons_of_mem _ hentry)) hrest

/-! ### What one factor contributes -/

namespace Factor

/-- The residual has one axis, if there is one. -/
def HasVectorResidual {α : Type} [Scalar α] (f : Factor α) (point : Table (Vec α)) : Prop :=
  ∀ r, f.residual point = .ok r → ∃ xs, r = .ofVector xs

variable {f : Factor ℝ} {point : Table (Vec ℝ)} {noise : Noise ℝ} {ws : Vec ℝ}

theorem HasVectorResidual.whitened (hf : f.HasVectorResidual point) {w : Tensor ℝ}
    (h : f.whitened point = .ok w) : ∃ ws, w = .ofVector ws := by
  obtain ⟨noise, -, h⟩ := bind_eq_ok.mp h
  obtain ⟨r, hr, h⟩ := bind_eq_ok.mp h
  obtain ⟨xs, rfl⟩ := hf r hr
  rw [Noise.whiten_ofVector] at h
  obtain ⟨ws, -, rfl⟩ := map_eq_ok.mp h
  exact ⟨ws, rfl⟩

/-- Without a robust loss a factor costs half the sum of the squares of its whitened residual. -/
theorem cost_of_whitened (hnoise : f.noise = some noise) (hloss : noise.loss.isRobust = false)
    (h : f.whitened point = .ok (.ofVector ws)) : f.cost point = .ok (1 / 2 * Vec.squares ws) := by
  have hnone : noise.loss = .none := by
    cases hkind : noise.loss with
    | none => rfl
    | huber threshold => simp [hkind, Loss.isRobust] at hloss
    | cauchy width => simp [hkind, Loss.isRobust] at hloss
  rw [cost, hnoise, h]
  refine congrArg Except.ok ?_
  rw [Noise.cost, hnone, Loss.cost_none, Tensor.ofVector, Vec.norm, Vec.normSq_real, Scalar.sqrt_real,
    Real.sq_sqrt (Vec.squares_nonneg ws)]

/-- So does its linear factor at the step that moves nothing. -/
theorem linear_cost_of_whitened (hnoise : f.noise = some noise) (hloss : noise.loss.isRobust = false)
    {values : Values ℝ} (h : f.whitened values.entries = .ok (.ofVector ws)) {linear : LinearFactor ℝ}
    (hlinear : f.linearize values.entries = .ok linear) :
    linear.cost (Delta.zero values.dims) = .ok (1 / 2 * Vec.squares ws) := by
  obtain ⟨needed, hneeded, hlinear⟩ := bind_eq_ok.mp hlinear
  obtain rfl := Option.some.inj (hnoise.symm.trans (needNoise_eq_ok.mp hneeded))
  obtain ⟨w, hw, hlinear⟩ := bind_eq_ok.mp hlinear
  obtain rfl := Except.ok.inj (h.symm.trans hw)
  obtain ⟨derivative, -, hlinear⟩ := bind_eq_ok.mp hlinear
  obtain ⟨blocks, hblocks, hlinear⟩ := bind_eq_ok.mp hlinear
  rw [hloss, if_neg Bool.false_ne_true] at hlinear
  obtain ⟨⟨⟩, -, hlinear⟩ := bind_eq_ok.mp hlinear
  cases hlinear
  have hsizes : ∀ entry ∈ blocks, values.dims.get? entry.1 = some entry.2.width ∧
      entry.2.height = (Vec.neg ws).length := by
    intro entry hentry
    obtain ⟨key, -, hblock⟩ := exists_of_mem_mapM hblocks hentry
    obtain ⟨-, hwidth, hheight⟩ := whitenedBlock_sizes hblock
    exact ⟨hwidth, hheight.trans (List.length_map _).symm⟩
  have hresidual := LinearFactor.denseResidual_zero hsizes
  rw [LinearFactor.cost_dense]
  refine map_eq_ok.mpr ⟨_, hresidual, ?_⟩
  rw [Vec.normSq_real, Vec.squares_neg, Vec.squares_neg]
  norm_num

end Factor

/-! ### Every report -/

namespace Graph

variable {g : Graph ℝ} {values : Values ℝ} {wss : List (List ℝ)}

/-- Whitened residuals with one axis each are stacked one after another. -/
theorem residuals_of_vectors (hsingle : ∀ f ∈ g.factors, f.HasVectorResidual values.entries) {r : Tensor ℝ}
    (h : g.residuals values = .ok r) :
    ∃ wss, List.Forall₂ (fun f ws => f.whitened values.entries = .ok (.ofVector ws)) g.factors wss ∧
      r = .ofVector wss.flatten := by
  obtain ⟨⟨⟩, -, h⟩ := bind_eq_ok.mp h
  obtain ⟨whitened, hwhitened, h⟩ := bind_eq_ok.mp h
  obtain ⟨wss, hwss, hdata⟩ := exists_opposite
    (S := fun f ws => f.whitened values.entries = .ok (.ofVector ws)) (p := id) (q := Tensor.ofVector)
    (mapM_eq_ok_iff.mp hwhitened) fun f hf w hw => by
      obtain ⟨ws, rfl⟩ := (hsingle f hf).whitened hw
      exact ⟨ws, hw, rfl⟩
  rw [List.map_id] at hdata
  rw [← hdata, Tensor.concatenate_ofVector] at h
  exact ⟨wss, hwss, (Except.ok.inj h).symm⟩

/-- **Without robust losses half the squares of the stacked residuals are the cost of the graph**, and that of
    the linear problem at the step that moves nothing. -/
theorem cost_of_whitened (hplain : g.IsQuadratic) (hcheck : g.checkKeys values = .ok ())
    (hwss : List.Forall₂ (fun f ws => f.whitened values.entries = .ok (.ofVector ws)) g.factors wss)
    {linear : LinearGraph ℝ} (hlinear : g.linearize values = .ok linear) :
    g.cost values = .ok (1 / 2 * Vec.squares wss.flatten) ∧
      linear.cost (Delta.zero values.dims) = .ok (1 / 2 * Vec.squares wss.flatten) := by
  obtain ⟨⟨⟩, -, hlinear⟩ := bind_eq_ok.mp hlinear
  obtain ⟨factors, hfactors, hlinear⟩ := bind_eq_ok.mp hlinear
  cases hlinear
  have hsum : (wss.map fun ws => 1 / 2 * Vec.squares ws).sum = 1 / 2 * Vec.squares wss.flatten := by
    rw [Vec.squares_flatten, List.sum_map_mul_left]
  have hnoise : ∀ {f ws}, f ∈ g.factors → f.whitened values.entries = .ok (.ofVector ws) →
      ∃ noise, f.noise = some noise ∧ noise.loss.isRobust = false := by
    intro f ws hf h
    obtain ⟨noise, hneeded, -⟩ := bind_eq_ok.mp h
    have hsome := Factor.needNoise_eq_ok.mp hneeded
    exact ⟨noise, hsome, hplain f hf noise hsome⟩
  constructor
  · have hcosts : g.factors.mapM (fun f => f.cost values.entries) =
        .ok (wss.map fun ws => 1 / 2 * Vec.squares ws) := by
      rw [mapM_eq_ok_iff, List.forall₂_map_right_iff]
      refine ((List.forall₂_and_left _ _).mpr ⟨fun f hf => hf, hwss⟩).imp fun f ws h => ?_
      obtain ⟨noise, hsome, hloss⟩ := hnoise h.1 h.2
      exact Factor.cost_of_whitened hsome hloss h.2
    refine bind_eq_ok.mpr ⟨_, hcheck, bind_eq_ok.mpr ⟨_, hcosts, ?_⟩⟩
    rw [Vec.sum_real, hsum]
    rfl
  · have hcosts : factors.mapM (LinearFactor.cost · (Delta.zero values.dims)) =
        .ok (wss.map fun ws => 1 / 2 * Vec.squares ws) := by
      rw [mapM_eq_ok_iff, List.forall₂_map_right_iff]
      refine (forall₂_over (mapM_eq_ok_iff.mp hfactors) hwss).imp fun linear ws h => ?_
      obtain ⟨f, hf, hlinearize, hw⟩ := h
      obtain ⟨noise, hsome, hloss⟩ := hnoise hf hw
      exact Factor.linear_cost_of_whitened hsome hloss hw hlinearize
    refine map_eq_ok.mpr ⟨_, hcosts, ?_⟩
    rw [Vec.sum_real, hsum]

end Graph

namespace Diagnostics

variable {g : Graph ℝ} {values : Values ℝ} {count : Given ℝ} {d : Diagnostics ℝ}

/-- What a report on factors with distinct names is made of. -/
theorem compute_parts (hnames : g.ids.Nodup) (h : compute g values count = .ok d) :
    List.Forall₂ (fun f entry => entry.1 = f.label ∧ f.cost values.entries = .ok entry.2) g.factors d.costs ∧
      d.costs.map (·.1) = g.ids ∧ d.total = (d.costs.map (·.2)).sum ∧
      (∃ listed, countOf count = .ok listed ∧ d.greatest = firstItems (ranked d.costs) listed) ∧
      (∃ r, g.residuals values = .ok r ∧ statisticsOf r = .ok d.statistics) ∧
      ∃ linear, g.linearize values = .ok linear := by
  obtain ⟨rows, hrows, h⟩ := bind_eq_ok.mp h
  obtain ⟨r, hr, h⟩ := bind_eq_ok.mp h
  obtain ⟨linear, hlinear, h⟩ := bind_eq_ok.mp h
  obtain ⟨⟨A, b⟩, -, h⟩ := bind_eq_ok.mp h
  obtain ⟨listed, hlisted, h⟩ := bind_eq_ok.mp h
  obtain ⟨statistics, hstatistics, h⟩ := bind_eq_ok.mp h
  obtain ⟨rank, -, h⟩ := bind_eq_ok.mp h
  obtain ⟨summary, -, h⟩ := bind_eq_ok.mp h
  cases h
  have hentries : List.Forall₂ (fun f entry => entry.1 = f.label ∧ f.cost values.entries = .ok entry.2)
      g.factors rows := by
    refine (mapM_eq_ok_iff.mp hrows).imp fun f entry hentry => ?_
    obtain ⟨cost, hcost, hentry⟩ := bind_eq_ok.mp hentry
    cases hentry
    exact ⟨rfl, hcost⟩
  have hlabels : rows.map (·.1) = g.ids := map_eq_of_mapM hrows fun f _ entry hentry => by
    obtain ⟨cost, -, hentry⟩ := bind_eq_ok.mp hentry
    cases hentry
    rfl
  have hcosts : rows.foldl (fun costs row => enterCost costs row.1 row.2) [] = rows :=
    foldl_enterCost (hlabels ▸ hnames)
  rw [hcosts]
  exact ⟨hentries, hlabels, Vec.sum_real _, ⟨listed, hlisted, rfl⟩, ⟨r, hr, hstatistics⟩, linear, hlinear⟩

/-- **A report returns when its parts do**: the matrix can always be stacked, and its rank be told. -/
theorem compute_returns {rows : List (String × ℝ)} {r : Tensor ℝ} {linear : LinearGraph ℝ} {listed : Option ℤ}
    {statistics : Statistics ℝ} {summary : Summary}
    (hrows : (g.factors.mapM fun f => return (f.label, ← f.cost values.entries)) = .ok rows)
    (hr : g.residuals values = .ok r) (hlinear : g.linearize values = .ok linear)
    (haccords : linear.Accords values.keys values.dims) (hlisted : countOf count = .ok listed)
    (hstatistics : statisticsOf r = .ok statistics) (hsummary : g.summary = .ok summary) :
    ∃ d, compute g values count = .ok d := by
  obtain ⟨A, hA, -⟩ := LinearGraph.stackedMatrix_spec haccords
  obtain ⟨rank, hrank⟩ := OneDeviation.exists_rankOfMat A.toMat defaultTolerance
  have hstacked : linear.stacked values.keys values.dims = .ok (A, _) :=
    bind_eq_ok.mpr ⟨A, hA, bind_eq_ok.mpr ⟨_, LinearGraph.stackedRhs_of_fits haccords.fits, rfl⟩⟩
  exact ⟨_, bind_eq_ok.mpr ⟨rows, hrows, bind_eq_ok.mpr ⟨r, hr, bind_eq_ok.mpr ⟨linear, hlinear,
    bind_eq_ok.mpr ⟨_, hstacked, bind_eq_ok.mpr ⟨listed, hlisted, bind_eq_ok.mpr ⟨statistics, hstatistics,
    bind_eq_ok.mpr ⟨rank, hrank, bind_eq_ok.mpr ⟨summary, hsummary, rfl⟩⟩⟩⟩⟩⟩⟩⟩⟩

/-- **A report tells one story.**  For a graph that was built by adding factors, also such as were handed to
    other graphs before, and whose residuals have one axis each, there is one entry for each factor: its name,
    which no other has, and its cost.  These costs add up to the cost of the graph, which is the total.  So
    many of the greatest are listed as are asked for, or all, and of equal ones the first.  The mean of the
    squares is the square of the mean and that of the deviation, and the numbers are in order.  Without
    robust losses the total is half the sum of the squares of all residuals, and the linear problem around
    the estimate costs as much at the step that moves nothing. -/
theorem compute_agrees (factors : ℕ → Factor ℝ) (calls : List Handover) (i : ℕ)
    (hg : ((Workshop.stocked factors).run calls).graphs i = g)
    (hsingle : ∀ f ∈ g.factors, f.HasVectorResidual values.entries) {k : ℕ}
    (hcount : countOf count = .ok (some (k : ℤ))) (h : compute g values count = .ok d) :
    (d.costs.map (·.1)).Nodup ∧
    List.Forall₂ (fun f entry => entry.1 = f.label ∧ f.cost values.entries = .ok entry.2) g.factors d.costs ∧
    g.cost values = .ok d.total ∧
    ListsGreatest d.costs d.greatest k ∧
    d.statistics.IsConsistent ∧
    (∃ rs, g.residuals values = .ok (.ofVector rs) ∧ d.statistics.count = rs.length) ∧
    (g.IsQuadratic → d.total = 1 / 2 * d.statistics.count * d.statistics.rms ^ 2 ∧
      ∃ linear, g.linearize values = .ok linear ∧ linear.cost (Delta.zero values.dims) = .ok d.total) := by
  have hnames : g.ids.Nodup := hg ▸ ((Workshop.isShared_stocked factors).run calls).nodup i
  obtain ⟨hentries, hlabels, htotal, ⟨listed, hlisted, hgreatest⟩, ⟨r, hr, hstatistics⟩, linear, hlinear⟩ :=
    compute_parts hnames h
  obtain rfl := Except.ok.inj (hcount.symm.trans hlisted)
  obtain ⟨wss, hwss, rfl⟩ := Graph.residuals_of_vectors hsingle hr
  obtain ⟨hconsistent, hlength, hsquares⟩ := statisticsOf_spec hstatistics
  obtain ⟨⟨⟩, hcheck, -⟩ := bind_eq_ok.mp hr
  have hcost : g.cost values = .ok d.total := by
    have hcosts : g.factors.mapM (fun f => f.cost values.entries) = .ok (d.costs.map (·.2)) := by
      rw [mapM_eq_ok_iff, List.forall₂_map_right_iff]
      exact hentries.imp fun f entry h => h.2
    refine bind_eq_ok.mpr ⟨_, hcheck, bind_eq_ok.mpr ⟨_, hcosts, ?_⟩⟩
    rw [htotal, ← Vec.sum_real]
    rfl
  refine ⟨hlabels ▸ hnames, hentries, hcost, hgreatest ▸ listsGreatest_firstItems d.costs k, hconsistent,
    ⟨_, hr, hlength⟩, fun hplain => ?_⟩
  obtain ⟨hhalf, hstill⟩ := Graph.cost_of_whitened hplain hcheck hwss hlinear
  have htotal : d.total = 1 / 2 * Vec.squares wss.flatten := Except.ok.inj (hcost.symm.trans hhalf)
  refine ⟨?_, linear, hlinear, ?_⟩
  · rw [htotal, mul_assoc, hsquares]
  · rw [htotal, hstill]

end Diagnostics

/-! Two measurements of a number that lies midway between them. -/

namespace Midway

noncomputable def measured (x : ℝ) (name : String) : Factor ℝ :=
  ⟨.prior (.number 0) (.ofVector [x]), some ⟨[1], .none⟩, some name⟩

noncomputable def low : Factor ℝ := measured (-1) "low"

noncomputable def high : Factor ℝ := measured 1 "high"

noncomputable def graph : Graph ℝ := ⟨[low, high]⟩

def estimate : Values ℝ := ⟨[(.number 0, [0])]⟩

noncomputable def stock (i : ℕ) : Factor ℝ := if i = 0 then low else high

/-- The lower measurement is handed to a graph, then twice to another, which is handed the higher one too. -/
def calls : List Handover := [⟨0, 0⟩, ⟨1, 0⟩, ⟨1, 0⟩, ⟨1, 1⟩]

theorem graphs_run : ((Workshop.stocked stock).run calls).graphs 1 = graph := rfl

theorem measured_cost (x : ℝ) (name : String) :
    (measured x name).cost estimate.entries = .ok (1 / 2 * x ^ 2) := by
  have hwhitened : (measured x name).whitened estimate.entries = .ok (.ofVector [(0 - x) / 1]) := rfl
  rw [Factor.cost_of_whitened rfl rfl hwhitened, Vec.squares_cons, Vec.squares_nil, add_zero, div_one,
    zero_sub, neg_sq]

theorem isRegular_graph : graph.IsRegular :=
  List.forall_mem_cons.mpr ⟨Measurement.isRegular_prior _ _,
    List.forall_mem_singleton.mpr (Measurement.isRegular_prior _ _)⟩

theorem exists_compute : ∃ d, Diagnostics.compute graph estimate (.integer 1) = .ok d := by
  obtain ⟨rows, rhs, rows', rhs', hlinear⟩ : ∃ rows rhs rows' rhs',
      graph.linearize estimate = .ok ⟨[.dense rows rhs, .dense rows' rhs']⟩ := ⟨_, _, _, _, rfl⟩
  have hformed := Graph.linearize_formed isRegular_graph (by decide) (List.Perm.refl _) hlinear
  obtain ⟨hlow, hrest⟩ := List.forall_mem_cons.mp hformed.formed
  have hhigh := List.forall_mem_singleton.mp hrest
  have hfits : ∀ f ∈ [LinearFactor.dense rows rhs, .dense rows' rhs'], f.Fits estimate.dims :=
    List.forall_mem_cons.mpr ⟨hlow, List.forall_mem_singleton.mpr hhigh⟩
  exact Diagnostics.compute_returns rfl rfl hlinear
    ⟨hformed.nodup, hformed.sized, hfits, hformed.listed⟩ rfl rfl rfl

/-- **Of two equal costs the first is listed**, when one is asked for. -/
theorem compute_agrees_midway :
    ((Workshop.stocked stock).run calls).graphs 1 = graph ∧
    (∀ f ∈ graph.factors, f.HasVectorResidual estimate.entries) ∧ graph.IsQuadratic ∧
    ∃ d, Diagnostics.compute graph estimate (.integer 1) = .ok d ∧
      d.costs = [("low", 1 / 2), ("high", 1 / 2)] ∧ d.greatest = [("low", 1 / 2)] ∧
      graph.cost estimate = .ok d.total ∧ d.total = 1 / 2 * d.statistics.count * d.statistics.rms ^ 2 ∧
      d.statistics.count = 2 := by
  have hfactors : ∀ f ∈ graph.factors, f = low ∨ f = high := by simp [graph]
  have hsingle : ∀ f ∈ graph.factors, f.HasVectorResidual estimate.entries := by
    intro f hf r hr
    rcases hfactors f hf with rfl | rfl
    · exact ⟨_, (Except.ok.inj hr).symm⟩
    · exact ⟨_, (Except.ok.inj hr).symm⟩
  have hplain : graph.IsQuadratic := by
    intro f hf noise hnoise
    rcases hfactors f hf with rfl | rfl
    · cases hnoise
      rfl
    · cases hnoise
      rfl
  obtain ⟨d, hd⟩ := exists_compute
  obtain ⟨-, hentries, hcost, hgreatest, -, ⟨rs, hrs, hcount⟩, hquadratic⟩ :=
    Diagnostics.compute_agrees stock calls 1 graphs_run hsingle rfl hd
  have hcosts : d.costs = [("low", 1 / 2), ("high", 1 / 2)] := by
    have hlow : low.cost estimate.entries = .ok (1 / 2) := by norm_num [low, measured_cost]
    have hhigh : high.cost estimate.entries = .ok (1 / 2) := by norm_num [high, measured_cost]
    apply List.right_unique_forall₂' _ hentries (.cons ⟨rfl, hlow⟩ (.cons ⟨rfl, hhigh⟩ .nil))
    intro f entry entry' h h'
    exact Prod.ext (h.1.trans h'.1.symm) (Except.ok.inj (h.2.symm.trans h'.2))
  have hlisted : d.greatest = [("low", 1 / 2)] := by
    rw [hcosts] at hgreatest
    exact hgreatest.eq_first
  have hlength : rs.length = 2 := by
    obtain ⟨r, r', hstacked⟩ : ∃ r r', graph.residuals estimate = .ok (.ofVector [r, r']) := ⟨_, _, rfl⟩
    have hdata : rs = [r, r'] := congrArg Tensor.data (Except.ok.inj (hrs.symm.trans hstacked))
    rw [hdata]
    rfl
  exact ⟨graphs_run, hsingle, hplain, d, hd, hcosts, hlisted, hcost, (hquadratic hplain).1,
    hcount.trans hlength⟩

end Midway

end LeastSquares
