/-
  LeastSquares/Proofs/RangeNetworks.lean
  ======================================
  **Where points coincide, one of them is taken for its own neighbour.**

  The neighbours of a point are the first of all points in the order of their distances, without the very
  first, which is taken for the point itself.  That it is, as long as no two points coincide.  Points that do
  coincide are at the same distances from all points, so one order serves them all, and the second of it is
  one of them: it is to be connected with itself, which no factor allows.  Otherwise nothing can fail, and
  the network is connected as it should be.
-/
import LeastSquares.Proofs.SyntheticProblems
import LeastSquares.Synthetic.RangeNetwork

namespace LeastSquares

namespace RangeNetwork

/-! ### The order of distances -/

/-- The indices of all points, in the order of their distances. -/
noncomputable def ranking (distances : List ℝ) : List ℕ :=
  (distances.zipIdx.mergeSort fun a b => notAfter a.1 b.1).map (·.2)

variable {distances : List ℝ} {points : List (Vec ℝ)}

theorem notAfter_real (x y : ℝ) : notAfter x y = decide (x ≤ y) := by
  simp [notAfter, Scalar.isNumber]

theorem ranking_perm (distances : List ℝ) : (ranking distances).Perm (List.range distances.length) := by
  have hperm := (List.mergeSort_perm distances.zipIdx fun a b => notAfter a.1 b.1).map (·.2)
  rwa [List.zipIdx_map_snd, ← List.range_eq_range'] at hperm

/-- No point is farther than one behind it. -/
theorem ranking_sorted (distances : List ℝ) :
    (ranking distances).Pairwise fun i j => distances.getD i 0 ≤ distances.getD j 0 := by
  have hsorted : (distances.zipIdx.mergeSort fun a b => notAfter a.1 b.1).Pairwise
      fun a b => notAfter a.1 b.1 = true := by
    refine List.pairwise_mergeSort ?_ ?_ _
    · simp only [notAfter_real, decide_eq_true_eq]
      exact fun a b c hab hbc => hab.trans hbc
    · simp [notAfter_real, le_total]
  refine List.Pairwise.map _ (fun a b h => h) (hsorted.imp_of_mem fun {a b} ha hb h => ?_)
  have hentry : ∀ c ∈ distances.zipIdx.mergeSort fun a b => notAfter a.1 b.1,
      distances.getD c.2 0 = c.1 := by
    intro c hc
    rw [List.mem_mergeSort, List.mem_zipIdx_iff_getElem?] at hc
    rw [List.getD_eq_getElem?_getD, hc, Option.getD_some]
  rw [hentry a ha, hentry b hb]
  rwa [notAfter_real, decide_eq_true_eq] at h

theorem nearest_eq (distances : List ℝ) (count : ℕ) :
    nearest distances count = ((ranking distances).take (count + 1)).drop 1 := by
  have hstop : ¬ (count : ℤ) + 1 < 0 := by omega
  rw [nearest, if_neg hstop]
  rfl

theorem nodup_ranking (distances : List ℝ) : (ranking distances).Nodup :=
  (ranking_perm distances).nodup_iff.mpr List.nodup_range

theorem lt_of_mem_nearest {count : ℤ} {i : ℕ} (h : i ∈ nearest distances count) : i < distances.length := by
  have hmem : i ∈ ranking distances := List.mem_of_mem_take (List.mem_of_mem_drop h)
  exact List.mem_range.mp ((ranking_perm distances).subset hmem)

theorem distance_real (p q : Vec ℝ) : distance p q = Real.sqrt (Vec.squares (Vec.sub p q)) := by
  rw [distance, Vec.norm, Vec.normSq_real, Scalar.sqrt_real]

theorem distance_nonneg (p q : Vec ℝ) : 0 ≤ distance p q := Real.sqrt_nonneg _

theorem distance_comm (p q : Vec ℝ) : distance p q = distance q p := by
  have hsquares : ∀ p q : Vec ℝ,
      Vec.squares (Vec.sub p q) = (List.zipWith (fun a b => (a - b) ^ 2) p q).sum :=
    fun p q => by rw [Vec.squares, Vec.sub, List.map_zipWith]
  rw [distance_real, distance_real, hsquares, hsquares, List.zipWith_comm_of_comm sub_sq_comm]

/-- Points are at no distance just where they coincide. -/
theorem distance_eq_zero_iff {p q : Vec ℝ} (hlength : p.length = q.length) : distance p q = 0 ↔ p = q := by
  rw [distance_real, Real.sqrt_eq_zero (Vec.squares_nonneg _), Vec.squares_eq_zero_iff]
  constructor
  · intro h
    refine List.ext_getElem hlength fun i hp hq => ?_
    have hmem : p[i] - q[i] ∈ Vec.sub p q :=
      List.mem_iff_getElem.mpr ⟨i, by simp [Vec.sub, hp, hq], by simp [Vec.sub]⟩
    exact sub_eq_zero.mp (h _ hmem)
  · rintro rfl x hx
    rw [Vec.sub, List.zipWith_self] at hx
    obtain ⟨a, -, rfl⟩ := List.mem_map.mp hx
    exact sub_self a

/-- The distances of all points from one. -/
noncomputable def distancesFrom (points : List (Vec ℝ)) (point : Vec ℝ) : List ℝ :=
  points.map fun other => distance other point

theorem getD_distancesFrom {i : ℕ} (hi : i < points.length) (point : Vec ℝ) :
    (distancesFrom points point).getD i 0 = distance points[i] point := by
  rw [List.getD_eq_getElem?_getD, distancesFrom, List.getElem?_map, List.getElem?_eq_getElem hi]
  rfl

theorem nearest_of_ranking {first : ℕ} {rest : List ℕ} (h : ranking distances = first :: rest) (count : ℕ) :
    nearest distances count = rest.take count := by
  rw [nearest_eq, h, List.take_succ_cons, List.drop_one, List.tail_cons]

theorem mem_ranking {i : ℕ} : i ∈ ranking distances ↔ i < distances.length :=
  (ranking_perm distances).mem_iff.trans List.mem_range

/-- **Where no points coincide, the first in the order of distances is the point itself.** -/
theorem notMem_nearest_self (hlength : ∀ p ∈ points, p.length = 2) (hnodup : points.Nodup) {j : ℕ}
    (hj : j < points.length) (count : ℕ) : j ∉ nearest (distancesFrom points points[j]) count := by
  intro hmem
  have hranked := nodup_ranking (distancesFrom points points[j])
  have hsorted := ranking_sorted (distancesFrom points points[j])
  cases hranking : ranking (distancesFrom points points[j]) with
  | nil =>
    rw [nearest_eq, hranking] at hmem
    cases hmem
  | cons first rest =>
    rw [nearest_of_ranking hranking] at hmem
    rw [hranking] at hranked hsorted
    have hrest := List.mem_of_mem_take hmem
    have hfirst : first < points.length := by
      have hlisted : first ∈ ranking (distancesFrom points points[j]) := hranking ▸ List.mem_cons_self
      rwa [mem_ranking, distancesFrom, List.length_map] at hlisted
    -- the first point is no farther than the point itself, so it is the point itself
    have hle := (List.pairwise_cons.mp hsorted).1 j hrest
    rw [getD_distancesFrom hfirst, getD_distancesFrom hj, (distance_eq_zero_iff rfl).mpr rfl] at hle
    have hsame := (distance_eq_zero_iff ((hlength _ (List.getElem_mem hfirst)).trans
      (hlength _ (List.getElem_mem hj)).symm)).mp (le_antisymm hle (distance_nonneg _ _))
    have hindex : first = j := (hnodup.getElem_inj_iff).mp hsame
    exact (List.nodup_cons.mp hranked).1 (hindex ▸ hrest)

end RangeNetwork

/-! ### Measured distances -/

/-- The two variables of a factor that measures a distance. -/
def Factor.ends? {α : Type} (f : Factor α) : Option (Key × Key) :=
  match f.measurement with
  | .range first second _ => some (first, second)
  | _ => none

/-- The pairs of variables between which distances are measured, one for each factor that measures one. -/
def Graph.ranges {α : Type} (g : Graph α) : List (Key × Key) := g.factors.filterMap (·.ends?)

theorem Graph.ranges_concat {α : Type} (g : Graph α) (f : Factor α) :
    (⟨g.factors ++ [g.named f]⟩ : Graph α).ranges = g.ranges ++ f.ends?.toList := by
  have hends : (g.named f).ends? = f.ends? := by rw [Factor.ends?, named_measurement, Factor.ends?]
  rw [ranges, List.filterMap_append, ranges, List.filterMap_cons, hends]
  cases f.ends? <;> rfl

namespace RangeNetwork

variable {noise : Noise ℝ} {sigma : Given ℝ} {x : ℝ} {g g' : Graph ℝ} {d e : Draws ℝ} {a b : Key} {length : ℝ}

/-- A factor that measures a distance between two variables. -/
def rangeFactor (noise : Noise ℝ) (a b : Key) (measured : ℝ) : Factor ℝ :=
  ⟨.range a b measured, some noise, none⟩

/-- A distance that is measured takes one number, and its factor refers to two different variables. -/
theorem measureRange_parts (hsigma : sigma.IsNumber x)
    (h : (measureRange noise sigma g a b length).run d = .ok (g', e)) :
    a ≠ b ∧ ∃ z, d.Takes [z] e ∧
      g' = ⟨g.factors ++ [g.named (rangeFactor noise a b (length + x * z))]⟩ := by
  obtain ⟨t, d', ht, h⟩ := Draws.run_bind_eq_ok.mp h
  obtain ⟨z, rfl, htakes⟩ := Draws.normalLike_takes hsigma ht
  obtain ⟨f, hf, rfl, rfl⟩ := Problem.addFactor_eq_ok h
  obtain ⟨hne, -, rfl⟩ := Factor.range_eq_ok.mp hf
  exact ⟨hne, z, htakes, rfl⟩

/-- Nothing can fail where the variables are different and the source does not. -/
theorem measureRange_returns (hsigma : sigma.IsNumber x) (hgrow : Problem.CanGrow g d) (hdim : noise.dim = 1)
    (hne : a ≠ b) :
    ∃ g' e, (measureRange noise sigma g a b length).run d = .ok (g', e) ∧ Problem.CanGrow g' e := by
  obtain ⟨t, e, ht⟩ := Draws.normalLike_returns hsigma hgrow.endless
  obtain ⟨z, rfl, htakes⟩ := Draws.normalLike_takes hsigma ht
  have hf : Factor.range a b (.real (length + x * z)) (some noise) none = .ok (rangeFactor noise a b _) :=
    Factor.range_eq_ok.mpr ⟨hne, hdim, rfl⟩
  obtain ⟨g', hadd, hgrow'⟩ := (hgrow.of_takes htakes).addFactor_returns hf rfl
  exact ⟨g', e, Draws.run_bind_eq_ok.mpr ⟨_, e, ht, hadd⟩, hgrow'⟩

/-! ### The parts of a network -/

/-- The positions of the anchors as priors. -/
noncomputable def anchored (tight : Noise ℝ) (anchors : List (Key × Vec ℝ)) : Drawing ℝ (Graph ℝ) :=
  anchors.foldlM (fun g anchor =>
    Problem.addFactor g (Factor.prior anchor.1 (.ofVector anchor.2) (some tight) none)) Graph.empty

/-- The distances of one point from all anchors. -/
noncomputable def measurePoint (noise : Noise ℝ) (sigma : Given ℝ) (anchors : List (Key × Vec ℝ))
    (g : Graph ℝ) (point : Key × Vec ℝ) : Drawing ℝ (Graph ℝ) :=
  anchors.foldlM (fun g anchor => measureRange noise sigma g anchor.1 point.1 (distance point.2 anchor.2)) g

/-- One of the nearest points of a point, unless the two are connected. -/
noncomputable def connectPair (noise : Noise ℝ) (sigma : Given ℝ) (points : List (Vec ℝ)) (point : Vec ℝ × ℕ)
    (state : Graph ℝ × List (ℕ × ℕ)) (other : ℕ) : Drawing ℝ (Graph ℝ × List (ℕ × ℕ)) :=
  let pair := (min point.2 other, max point.2 other)
  if state.2.elem pair then return state
  else do
    let g ← measureRange noise sigma state.1 (Problem.member "p" pair.1) (Problem.member "p" pair.2)
      ((distancesFrom points point.1).getD other 0)
    return (g, state.2 ++ [pair])

variable {network : RangeNetwork ℝ} {p : Problem ℝ}

/-- **What a network that is returned is made of**, in the order of the draws. -/
theorem problem_parts (h : network.problem.run d = .ok (p, e)) :
    ∃ anchors points noise tight gAnchored gRanged connected, ∃ d₁ d₂ d₃ d₄ d₅ : Draws ℝ,
      (Draws.uniformPoints network.extent network.anchors).run d = .ok (anchors, d₁) ∧
      (Draws.uniformPoints network.extent network.points).run d₁ = .ok (points, d₂) ∧
      Noise.filled (.integer 1) network.rangeSigma = .ok noise ∧
      Noise.isotropic 2 Problem.anchorSigma = .ok tight ∧
      (anchored tight (Problem.named "a" anchors)).run d₂ = .ok (gAnchored, d₃) ∧
      ((Problem.named "p" points).foldlM
        (measurePoint noise network.rangeSigma (Problem.named "a" anchors)) gAnchored).run d₃ =
          .ok (gRanged, d₄) ∧
      (points.zipIdx.foldlM (connectNearest network noise points) (gRanged, [])).run d₄ =
          .ok (connected, d₅) ∧
      p.graph = connected.1 ∧ p.truth = ⟨Problem.named "a" anchors ++ Problem.named "p" points⟩ := by
  obtain ⟨⟨⟩, -, h⟩ := Draws.run_lift_bind_eq_ok.mp h
  obtain ⟨anchors, d₁, hanchors, h⟩ := Draws.run_bind_eq_ok.mp h
  obtain ⟨points, d₂, hpoints, h⟩ := Draws.run_bind_eq_ok.mp h
  obtain ⟨noise, hnoise, h⟩ := Draws.run_lift_bind_eq_ok.mp h
  obtain ⟨tight, htight, h⟩ := Draws.run_lift_bind_eq_ok.mp h
  obtain ⟨gAnchored, d₃, hanchored, h⟩ := Draws.run_bind_eq_ok.mp h
  obtain ⟨gRanged, d₄, hranged, h⟩ := Draws.run_bind_eq_ok.mp h
  obtain ⟨connected, d₅, hconnected, h⟩ := Draws.run_bind_eq_ok.mp h
  obtain ⟨initial, d₆, -, h⟩ := Draws.run_bind_eq_ok.mp h
  obtain ⟨rfl, -⟩ := Draws.run_pure_eq_ok.mp h
  exact ⟨anchors, points, noise, tight, gAnchored, gRanged, connected, d₁, d₂, d₃, d₄, d₅, hanchors, hpoints,
    hnoise, htight, hanchored, hranged, hconnected, rfl, rfl⟩

theorem connectNearest_eq {count : ℤ} (hcount : network.neighbours.toInt = .ok count) (noise : Noise ℝ)
    (points : List (Vec ℝ)) (state : Graph ℝ × List (ℕ × ℕ)) (point : Vec ℝ × ℕ) :
    connectNearest network noise points state point =
      (nearest (distancesFrom points point.1) count).foldlM
        (connectPair noise network.rangeSigma points point) state := by
  rw [connectNearest, hcount]
  rfl

/-! ### What is connected when a network is returned -/

variable {anchors members : List (Key × Vec ℝ)} {tight : Noise ℝ} {points : List (Vec ℝ)}

/-- Points are connected in pairs beside what else is connected, the lesser first, and no pair twice. -/
structure ConnectsPairs (base : List (Key × Key)) (state : Graph ℝ × List (ℕ × ℕ)) : Prop where
  ranges_eq : state.1.ranges =
    base ++ state.2.map fun pair => (Problem.member "p" pair.1, Problem.member "p" pair.2)
  nodup : state.2.Nodup
  lt : ∀ pair ∈ state.2, pair.1 < pair.2

variable {base : List (Key × Key)} {state state' : Graph ℝ × List (ℕ × ℕ)} {point : Vec ℝ × ℕ} {count : ℕ}

/-- A point is connected with another, which is not itself. -/
theorem ConnectsPairs.pair (hstate : ConnectsPairs base state) (hsigma : sigma.IsNumber x) {other : ℕ}
    (h : (connectPair noise sigma points point state other).run d = .ok (state', e)) :
    ConnectsPairs base state' ∧ state.2 ⊆ state'.2 ∧ other ≠ point.2 ∧
      (min point.2 other, max point.2 other) ∈ state'.2 := by
  rw [connectPair] at h
  split_ifs at h with hknown
  · obtain ⟨rfl, rfl⟩ := Draws.run_pure_eq_ok.mp h
    have hmem := List.elem_iff.mp hknown
    have hlt := hstate.lt _ hmem
    exact ⟨hstate, List.Subset.refl _, by omega, hmem⟩
  · obtain ⟨g', d', hmeasure, h⟩ := Draws.run_bind_eq_ok.mp h
    obtain ⟨rfl, rfl⟩ := Draws.run_pure_eq_ok.mp h
    obtain ⟨hne, z, -, rfl⟩ := measureRange_parts hsigma hmeasure
    have hother : other ≠ point.2 := by
      rintro rfl
      rw [min_self, max_self] at hne
      exact hne rfl
    refine ⟨⟨?_, ?_, ?_⟩, List.subset_append_left .., hother, by simp⟩
    · rw [Graph.ranges_concat, hstate.ranges_eq, List.map_append, List.append_assoc]
      rfl
    · have hfresh := hstate.nodup.concat fun hmem => hknown (List.elem_iff.mpr hmem)
      rwa [List.concat_eq_append] at hfresh
    · refine List.forall_mem_append.mpr ⟨hstate.lt, List.forall_mem_singleton.mpr ?_⟩
      simp only
      omega

theorem ConnectsPairs.nearest (hstate : ConnectsPairs base state) (hsigma : network.rangeSigma.IsNumber x)
    (hcount : network.neighbours.toInt = .ok (count : ℤ))
    (h : (connectNearest network noise points state point).run d = .ok (state', e)) :
    ConnectsPairs base state' ∧ state.2 ⊆ state'.2 ∧
      ∀ other ∈ nearest (distancesFrom points point.1) count, other ≠ point.2 ∧
        (min point.2 other, max point.2 other) ∈ state'.2 := by
  rw [connectNearest_eq hcount] at h
  refine Draws.foldlM_keeps (P := fun before state' _ => ConnectsPairs base state' ∧ state.2 ⊆ state'.2 ∧
    ∀ other ∈ before, other ≠ point.2 ∧ (min point.2 other, max point.2 other) ∈ state'.2) ?_
    ⟨hstate, List.Subset.refl _, by simp⟩ h
  rintro before other _ _ state₁ d₁ state₂ d₂ ⟨hpairs, hsubset, hbefore⟩ hpair
  obtain ⟨hpairs', hgrows, hother, hmem⟩ := hpairs.pair hsigma hpair
  refine ⟨hpairs', List.Subset.trans hsubset hgrows, List.forall_mem_append.mpr
    ⟨fun i hi => ⟨(hbefore i hi).1, hgrows (hbefore i hi).2⟩, List.forall_mem_singleton.mpr ⟨hother, hmem⟩⟩⟩

/-- **Every point is connected with its nearest points**, and is none of them. -/
theorem ConnectsPairs.all (hstate : ConnectsPairs base state) (hsigma : network.rangeSigma.IsNumber x)
    (hcount : network.neighbours.toInt = .ok (count : ℤ))
    (h : (points.zipIdx.foldlM (connectNearest network noise points) state).run d = .ok (state', e)) :
    ConnectsPairs base state' ∧ ∀ j (hj : j < points.length),
      ∀ other ∈ RangeNetwork.nearest (distancesFrom points points[j]) count, other ≠ j ∧
        (min j other, max j other) ∈ state'.2 := by
  have hfinal := Draws.foldlM_keeps (P := fun before state' _ => ConnectsPairs base state' ∧
    ∀ point ∈ before, ∀ other ∈ RangeNetwork.nearest (distancesFrom points point.1) count,
      other ≠ point.2 ∧ (min point.2 other, max point.2 other) ∈ state'.2) ?_ ⟨hstate, by simp⟩ h
  · refine ⟨hfinal.1, fun j hj => hfinal.2 (points[j], j) ?_⟩
    rw [List.mem_zipIdx_iff_getElem?, List.getElem?_eq_getElem hj]
  · rintro before point _ _ state₁ d₁ state₂ d₂ ⟨hpairs, hbefore⟩ hpoint
    obtain ⟨hpairs', hgrows, hnearest⟩ := hpairs.nearest hsigma hcount hpoint
    refine ⟨hpairs', List.forall_mem_append.mpr ⟨fun q hq other hother => ?_,
      List.forall_mem_singleton.mpr hnearest⟩⟩
    obtain ⟨hne, hmem⟩ := hbefore q hq other hother
    exact ⟨hne, hgrows hmem⟩

/-- Points of a square whose coordinates are the fractions of consecutive numbers. -/
noncomputable def drawnPoints (bound : ℝ) (stream : ℕ → ℝ) (start n : ℕ) : List (Vec ℝ) :=
  (List.range n).map fun j =>
    [bound * Int.fract (stream (start + j * 2)), bound * Int.fract (stream (start + (j * 2 + 1)))]

theorem cut_pairs (f : ℕ → ℝ) (n : ℕ) :
    Tensor.cut 2 ((List.range (n * 2)).map f) n = (List.range n).map fun j => [f (j * 2), f (j * 2 + 1)] := by
  induction n generalizing f with
  | zero => rfl
  | succ n ih =>
    have hnumbers : (List.range ((n + 1) * 2)).map f =
        f 0 :: f 1 :: (List.range (n * 2)).map fun i => f (i + 2) := by
      rw [Nat.succ_mul, List.range_succ_eq_map, List.range_succ_eq_map]
      simp [Function.comp_def]
    rw [hnumbers, Tensor.cut, List.range_succ_eq_map]
    simp [ih fun i => f (i + 2), Function.comp_def, Nat.succ_mul]

variable {stream : ℕ → ℝ} {bound : ℝ} {m n : ℕ}

theorem length_of_mem_drawnPoints {start : ℕ} : ∀ p ∈ drawnPoints bound stream start n, p.length = 2 := by
  intro p hp
  obtain ⟨j, -, rfl⟩ := List.mem_map.mp hp
  rfl

theorem uniformPoints_eq (hbound : network.extent.toNumber = .ok bound)
    (hd : ∀ place, d.source place = .ok (stream place))
    (h : (Draws.uniformPoints network.extent (.integer n)).run d = .ok (points, e)) :
    n * 2 ≤ Draws.mostAtOnce ∧ points = drawnPoints bound stream d.taken n ∧ points.length = n ∧
      (∀ place, e.source place = .ok (stream place)) ∧ e.taken = d.taken + n * 2 := by
  obtain ⟨hlength, hfew⟩ := Draws.length_uniformPoints h
  obtain ⟨zs, b, htakes, -, hzs, hb, hpoints⟩ := Draws.uniformPoints_takes h
  obtain rfl := Except.ok.inj (hbound.symm.trans hb)
  rw [hlength] at hpoints hzs
  have hstream := htakes.given.eq_map hd
  rw [hzs] at hstream
  refine ⟨hfew, ?_, hlength, fun place => ?_, hzs ▸ htakes.taken_eq⟩
  · rw [hpoints, hstream, cut_pairs, List.map_map]
    rfl
  · rw [htakes.source_eq]
    exact hd place

/-! ### When a network is returned -/

/-- A network of so many anchors and points: its sizes are integers and its standard deviation is a number. -/
structure IsSized (network : RangeNetwork ℝ) (m n count : ℕ) (bound x : ℝ) : Prop where
  anchors_eq : network.anchors = .integer m
  points_eq : network.points = .integer n
  neighbours_eq : network.neighbours = .integer count
  bound_eq : network.extent.toNumber = .ok bound
  sigma_eq : network.rangeSigma.IsNumber x

theorem anchored_returns {tight : Noise ℝ} (htight : tight.dim = 2) (hanchors : ∀ a ∈ anchors, a.2.length = 2)
    (hd : d.Endless) : ∃ g e, (anchored tight anchors).run d = .ok (g, e) ∧ Problem.CanGrow g e := by
  refine Draws.foldlM_returns ?_ (Problem.canGrow_empty hd)
  intro anchor hanchor g d hgrow
  have hsize : anchor.2.length = tight.dim := (hanchors anchor hanchor).trans htight.symm
  obtain ⟨g', hadd, hgrow'⟩ := hgrow.addFactor_returns (Factor.prior_eq_ok.mpr ⟨hsize, rfl⟩) rfl
  exact ⟨g', d, hadd, hgrow'⟩

theorem measured_returns (hsigma : sigma.IsNumber x) (hdim : noise.dim = 1)
    (hne : ∀ a ∈ anchors, ∀ q ∈ members, a.1 ≠ q.1) (hgrow : Problem.CanGrow g d) :
    ∃ g' e, (members.foldlM (measurePoint noise sigma anchors) g).run d = .ok (g', e) ∧
      Problem.CanGrow g' e := by
  refine Draws.foldlM_returns ?_ hgrow
  intro point hpoint g d hgrow
  refine Draws.foldlM_returns ?_ hgrow
  intro anchor hanchor g d hgrow
  exact measureRange_returns hsigma hgrow hdim (hne anchor hanchor point hpoint)

/-- A point can be connected with another. -/
theorem connectPair_returns (hsigma : sigma.IsNumber x) (hdim : noise.dim = 1) {other : ℕ}
    (hother : other ≠ point.2) (hgrow : Problem.CanGrow state.1 d) :
    ∃ state' e, (connectPair noise sigma points point state other).run d = .ok (state', e) ∧
      Problem.CanGrow state'.1 e := by
  rw [connectPair]
  split_ifs
  · exact ⟨state, d, rfl, hgrow⟩
  · have hne : Problem.member "p" (min point.2 other) ≠ Problem.member "p" (max point.2 other) :=
      fun hsame => by
        have := Problem.member_inj hsame
        omega
    obtain ⟨g', e, hmeasure, hgrow'⟩ := measureRange_returns hsigma hgrow hdim hne
    exact ⟨_, e, Draws.run_bind_eq_ok.mpr ⟨g', e, hmeasure, rfl⟩, hgrow'⟩

/-- Points can be connected where none is among its own neighbours. -/
theorem connected_returns (hsigma : network.rangeSigma.IsNumber x) (hdim : noise.dim = 1)
    (hcount : network.neighbours.toInt = .ok (count : ℤ))
    (hapart : ∀ j (hj : j < points.length), j ∉ nearest (distancesFrom points points[j]) count)
    (hgrow : Problem.CanGrow state.1 d) :
    ∃ state' e, (points.zipIdx.foldlM (connectNearest network noise points) state).run d = .ok (state', e) ∧
      Problem.CanGrow state'.1 e := by
  refine Draws.foldlM_returns (P := fun (state : Graph ℝ × List (ℕ × ℕ)) d => Problem.CanGrow state.1 d)
    ?_ hgrow
  intro point hpoint state d hgrow
  obtain ⟨hj, hat⟩ := List.getElem?_eq_some_iff.mp (List.mem_zipIdx_iff_getElem?.mp hpoint)
  rw [connectNearest_eq hcount]
  refine Draws.foldlM_returns (P := fun (state : Graph ℝ × List (ℕ × ℕ)) d => Problem.CanGrow state.1 d)
    ?_ hgrow
  intro other hother state d hgrow
  refine connectPair_returns hsigma hdim ?_ hgrow
  rintro rfl
  exact hapart _ hj (hat ▸ hother)

/-- Nothing fails where no points coincide, or none are to be connected. -/
theorem problem_returns {s : ℝ} (hnetwork : network.IsSized m n count bound x)
    (hinitial : network.initialNoise.IsNumber s) (hm : 3 ≤ m) (hx : 0 < x)
    (hd : ∀ place, d.source place = .ok (stream place))
    (hfew : m * 2 ≤ Draws.mostAtOnce ∧ n * 2 ≤ Draws.mostAtOnce)
    (hapart : count = 0 ∨ (drawnPoints bound stream (d.taken + m * 2) n).Nodup) :
    ∃ p e, network.problem.run d = .ok (p, e) := by
  obtain ⟨anchors, d₁, hanchors⟩ :=
    Draws.uniformPoints_returns hnetwork.bound_eq (fun place => ⟨_, hd place⟩) hfew.1
  obtain ⟨-, hanchorsDrawn, -, hd₁, htaken⟩ := uniformPoints_eq hnetwork.bound_eq hd hanchors
  obtain ⟨points, d₂, hpoints⟩ :=
    Draws.uniformPoints_returns hnetwork.bound_eq (fun place => ⟨_, hd₁ place⟩) hfew.2
  obtain ⟨-, hpointsDrawn, -, hd₂, -⟩ := uniformPoints_eq hnetwork.bound_eq hd₁ hpoints
  obtain ⟨noise, hnoise, hdim⟩ : ∃ noise, Noise.filled (.integer 1) network.rangeSigma = .ok noise ∧
      noise.dim = 1 := by
    refine ⟨⟨[x], .none⟩, (hnetwork.sigma_eq.filled_eq rfl).trans ?_, rfl⟩
    exact Noise.ofTensor_quadratic_eq_ok.mpr ⟨rfl, by simp, by simpa using hx⟩
  have htight := Problem.isotropic_anchorSigma (two_ne_zero : (2 : ℕ) ≠ 0)
  have hplanar : Noise.dim (⟨List.replicate 2 Problem.anchorSigma, .none⟩ : Noise ℝ) = 2 := rfl
  have hanchorsPlane : ∀ a ∈ anchors, a.length = 2 := hanchorsDrawn ▸ length_of_mem_drawnPoints
  have hplane : ∀ a ∈ Problem.named "a" anchors, a.2.length = 2 := by
    rintro a ha
    obtain ⟨i, hi, rfl⟩ := Problem.mem_named.mp ha
    exact hanchorsPlane _ (List.getElem_mem hi)
  have hletters : ∀ a ∈ Problem.named "a" anchors, ∀ q ∈ Problem.named "p" points, a.1 ≠ q.1 := by
    rintro a ha q hq
    obtain ⟨i, -, rfl⟩ := Problem.mem_named.mp ha
    obtain ⟨j, -, rfl⟩ := Problem.mem_named.mp hq
    exact Problem.member_ne (by decide : 'a' ≠ 'p') i j
  have hothers : ∀ j (hj : j < points.length), j ∉ nearest (distancesFrom points points[j]) count := by
    intro j hj
    obtain rfl | hnodup := hapart
    · rw [nearest_eq, List.drop_eq_nil_of_le (List.length_take_le ..)]
      exact List.not_mem_nil
    · rw [← htaken, ← hpointsDrawn] at hnodup
      exact notMem_nearest_self (hpointsDrawn ▸ length_of_mem_drawnPoints) hnodup hj count
  have hcount : network.neighbours.toInt = .ok (count : ℤ) := by
    rw [hnetwork.neighbours_eq]
    rfl
  obtain ⟨gAnchored, d₃, hanchored, hgrow₃⟩ := anchored_returns hplanar hplane fun place => ⟨_, hd₂ place⟩
  obtain ⟨gRanged, d₄, hranged, hgrow₄⟩ := measured_returns hnetwork.sigma_eq hdim hletters hgrow₃
  have hstate : Problem.CanGrow ((gRanged, []) : Graph ℝ × List (ℕ × ℕ)).1 d₄ := hgrow₄
  obtain ⟨connected, d₅, hconnected, hgrow₅⟩ :=
    connected_returns hnetwork.sigma_eq hdim hcount hothers hstate
  obtain ⟨initial, e, hperturb⟩ := Draws.perturb_returns hinitial
    ⟨Problem.named "a" anchors ++ Problem.named "p" points⟩ hgrow₅.endless
  refine ⟨⟨connected.1, ⟨Problem.named "a" anchors ++ Problem.named "p" points⟩, initial⟩, e, ?_⟩
  refine Draws.run_lift_bind_eq_ok.mpr ⟨(), hnetwork.anchors_eq ▸ Problem.checkLeast_eq_ok hm _, ?_⟩
  refine Draws.run_bind_eq_ok.mpr ⟨anchors, d₁, hnetwork.anchors_eq ▸ hanchors, ?_⟩
  refine Draws.run_bind_eq_ok.mpr ⟨points, d₂, hnetwork.points_eq ▸ hpoints, ?_⟩
  refine Draws.run_lift_bind_eq_ok.mpr ⟨_, hnoise, Draws.run_lift_bind_eq_ok.mpr ⟨_, htight, ?_⟩⟩
  refine Draws.run_bind_eq_ok.mpr ⟨gAnchored, d₃, hanchored, ?_⟩
  refine Draws.run_bind_eq_ok.mpr ⟨gRanged, d₄, hranged, ?_⟩
  refine Draws.run_bind_eq_ok.mpr ⟨connected, d₅, hconnected, ?_⟩
  exact Draws.run_bind_eq_ok.mpr ⟨initial, e, hperturb, rfl⟩

theorem isSized_ofPoints (n : ℕ) : (ofPoints (.integer n) : RangeNetwork ℝ).IsSized 3 n 3 10 0.01 := by
  refine ⟨rfl, rfl, rfl, ?_, ?_, rfl⟩
  · exact congrArg Except.ok (by norm_num)
  · rfl

/-- Draws that rise by a tenth each, and from a place on are a half. -/
noncomputable def halfFrom (place : ℕ) : Draws ℝ := ⟨fun i => .ok (if i < place then 0.1 * i else 0.5), 0⟩

theorem nodup_halfFrom : (drawnPoints 10 (fun i => if i < 7 then 0.1 * i else 0.5) (0 + 3 * 2) 2).Nodup := by
  have hsixth : Int.fract (3 / 5 : ℝ) = 3 / 5 := Int.fract_eq_self.mpr (by norm_num)
  have hhalf : Int.fract (1 / 2 : ℝ) = 1 / 2 := Int.fract_eq_self.mpr (by norm_num)
  simp only [drawnPoints, List.range_succ, List.range_zero, List.nil_append, List.map_append, List.map_cons]
  norm_num [hsixth, hhalf]

end RangeNetwork

end LeastSquares
