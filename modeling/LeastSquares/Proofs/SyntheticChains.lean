/-
  LeastSquares/Proofs/SyntheticChains.lean
  ========================================
  **A chain is returned when its sizes fit and the source does not end.**

  Each link of a chain is measured between one variable and the next, so its two variables have different
  names, and its factor can be made and added.  Nothing else in a chain can fail: the sizes of what is drawn
  and of its noise are one and the same.
-/
import LeastSquares.Proofs.SyntheticProblems
import LeastSquares.Synthetic.LinearChain
import LeastSquares.Synthetic.PoseChain

namespace LeastSquares

/-! ### Links -/

section Links

variable {β : Type} {chain : List (Key × β)}

/-- The two ends of a link have different names. -/
theorem fst_ne_of_mem_zip_tail (hnodup : (chain.map (·.1)).Nodup) {link : (Key × β) × (Key × β)}
    (h : link ∈ chain.zip chain.tail) : link.1.1 ≠ link.2.1 := by
  induction chain with
  | nil => cases h
  | cons first rest ih =>
    obtain ⟨hfirst, hrest⟩ := List.nodup_cons.mp hnodup
    cases rest with
    | nil => cases h
    | cons second rest =>
      rw [List.tail_cons, List.zip_cons_cons] at h
      rcases List.mem_cons.mp h with rfl | h
      · exact fun hsame => hfirst (List.mem_map.mpr ⟨second, List.mem_cons_self, hsame.symm⟩)
      · exact ih hrest h

/-- The last and the first of several have different names. -/
theorem getLast?_ne_head? (hnodup : (chain.map (·.1)).Nodup) (hlength : 2 < chain.length)
    {last first : Key × β} (hlast : chain.getLast? = some last) (hfirst : chain.head? = some first) :
    last.1 ≠ first.1 := by
  cases chain with
  | nil => cases hfirst
  | cons head rest =>
    cases hfirst
    obtain ⟨hhead, -⟩ := List.nodup_cons.mp hnodup
    have hrest : rest ≠ [] := by
      rintro rfl
      simp at hlength
    have hmem : last ∈ rest := by
      rw [List.getLast?_cons_of_ne_nil hrest] at hlast
      exact List.mem_of_getLast? hlast
    exact fun hsame => hhead (List.mem_map.mpr ⟨last, hmem, hsame⟩)

end Links

/-! ### Chains of poses -/

namespace PoseChain

variable {chain : PoseChain ℝ} {noise : Noise ℝ} {g : Graph ℝ} {d e : Draws ℝ} {p : Problem ℝ}

/-- The first pose of a chain that has one is where the chain starts. -/
theorem head?_of_posesFrom {step : Tensor ℝ} {pose : Pose2 ℝ} {count : ℕ} {poses : List (Pose2 ℝ)}
    (hcount : count ≠ 0) (h : posesFrom step pose count = .ok poses) : poses.head? = some pose := by
  obtain ⟨count, rfl⟩ := Nat.exists_eq_succ_of_ne_zero hcount
  obtain ⟨motion, -, h⟩ := bind_eq_ok.mp h
  obtain ⟨rest, -, h⟩ := bind_eq_ok.mp h
  cases h
  rfl

/-- **What a chain that is returned is made of**, in the order of the draws. -/
theorem problem_parts (h : chain.problem.run d = .ok (p, e)) :
    ∃ poses noise anchor anchored chained, ∃ d₁ d₂ d₃ : Draws ℝ,
      poses.head? = some Pose2.origin ∧
      Noise.diagonal chain.sigmas = .ok noise ∧
      Noise.isotropic 3 Problem.anchorSigma = .ok anchor ∧
      (Problem.addFactor Graph.empty (Factor.posePrior (Problem.member "x" 0) (.ofVector Pose2.origin.toVec)
        (some anchor) none)).run d = .ok (anchored, d₁) ∧
      (((Problem.named "x" poses).zip (Problem.named "x" poses).tail).foldlM
        (fun g pair => measureMotion noise g pair.1 pair.2) anchored).run d₁ = .ok (chained, d₂) ∧
      (chained = p.graph ∨ ∃ last ∈ Problem.named "x" poses, ∃ first ∈ Problem.named "x" poses,
        (measureMotion noise chained last first).run d₂ = .ok (p.graph, d₃)) ∧
      p.truth = ⟨(Problem.named "x" poses).map fun entry => (entry.1, entry.2.toVec)⟩ := by
  obtain ⟨⟨⟩, hleast, h⟩ := Draws.run_lift_bind_eq_ok.mp h
  obtain ⟨step, -, h⟩ := Draws.run_lift_bind_eq_ok.mp h
  obtain ⟨noise, hnoise, h⟩ := Draws.run_lift_bind_eq_ok.mp h
  obtain ⟨count, hcount, h⟩ := Draws.run_lift_bind_eq_ok.mp h
  obtain ⟨poses, hposes, h⟩ := Draws.run_lift_bind_eq_ok.mp h
  obtain ⟨anchor, hanchor, h⟩ := Draws.run_lift_bind_eq_ok.mp h
  obtain ⟨anchored, d₁, hanchored, h⟩ := Draws.run_bind_eq_ok.mp h
  obtain ⟨chained, d₂, hchained, h⟩ := Draws.run_bind_eq_ok.mp h
  obtain ⟨closed, d₃, hclosed, h⟩ := Draws.run_bind_eq_ok.mp h
  obtain ⟨initial, d₄, -, h⟩ := Draws.run_bind_eq_ok.mp h
  obtain ⟨rfl, -⟩ := Draws.run_pure_eq_ok.mp h
  have hsome : count.toNat ≠ 0 := by
    have hle := Problem.le_of_checkLeast hleast hcount
    omega
  refine ⟨poses, noise, anchor, anchored, chained, d₁, d₂, d₃, head?_of_posesFrom hsome hposes, hnoise,
    hanchor, hanchored, hchained, ?_, rfl⟩
  split at hclosed
  · next last first hlast hfirst =>
    split_ifs at hclosed
    · exact .inr ⟨last, List.mem_of_getLast? hlast, first, List.mem_of_head? hfirst, hclosed⟩
    · exact .inl (Draws.run_pure_eq_ok.mp hclosed).1
  · exact .inl (Draws.run_pure_eq_ok.mp hclosed).1

theorem posesFrom_returns (motion pose : Pose2 ℝ) (count : ℕ) :
    ∃ poses, posesFrom (.ofVector motion.toVec) pose count = .ok poses := by
  induction count generalizing pose with
  | zero => exact ⟨[], rfl⟩
  | succ count ih =>
    obtain ⟨rest, hrest⟩ := ih (Pose2.compose pose motion)
    exact ⟨pose :: rest, bind_eq_ok.mpr ⟨motion, rfl, bind_eq_ok.mpr ⟨rest, hrest, rfl⟩⟩⟩

theorem measureMotion_returns {a b : Key × Pose2 ℝ} (hdim : noise.dim = 3) (hne : a.1 ≠ b.1)
    (hgrow : Problem.CanGrow g d) :
    ∃ g' e, (measureMotion noise g a b).run d = .ok (g', e) ∧ Problem.CanGrow g' e := by
  obtain ⟨errors, e, herrors⟩ := Draws.normalVec_returns noise.sigmas hgrow.endless
  obtain ⟨zs, hzs, rfl, htakes⟩ := Draws.normalVec_takes herrors
  have hsize : (Pose2.between a.2 b.2).toVec.length = (List.zipWith (· * ·) noise.sigmas zs).length := by
    rw [List.length_zipWith, hzs, min_self]
    exact hdim.symm
  obtain ⟨g', hadd, hgrow'⟩ :=
    (hgrow.of_takes htakes).addFactor_returns (Factor.poseBetween_eq_ok.mpr ⟨hne, hdim, rfl⟩) rfl
  exact ⟨g', e, Draws.run_bind_eq_ok.mpr ⟨_, e, herrors, Draws.run_lift_bind_eq_ok.mpr
    ⟨_, combine_of_length_eq _ _ _ hsize, hadd⟩⟩, hgrow'⟩

/-- **A chain of two poses or more is returned** when its noise is that of poses. -/
theorem problem_returns {n : ℕ} {motion : Pose2 ℝ} {s : ℝ} (hcount : chain.count = .integer n) (hn : 2 ≤ n)
    (hstep : Tensor.ofGiven chain.step = .ok (.ofVector motion.toVec))
    (hnoise : Noise.diagonal chain.sigmas = .ok noise) (hdim : noise.dim = 3)
    (hinitial : chain.initialNoise.IsNumber s) (hd : d.Endless) :
    ∃ p e, chain.problem.run d = .ok (p, e) := by
  obtain ⟨poses, hposes⟩ := posesFrom_returns motion Pose2.origin n
  have hnodup := Problem.nodup_named "x" poses
  have hread : chain.count.toInt = .ok (n : ℤ) := by
    rw [hcount]
    rfl
  have hprior : Factor.posePrior (Problem.member "x" 0) (.ofVector Pose2.origin.toVec)
      (some (⟨List.replicate 3 Problem.anchorSigma, .none⟩ : Noise ℝ)) none = .ok _ :=
    Factor.posePrior_eq_ok.mpr ⟨rfl, rfl⟩
  suffices hreturns : ∃ r, chain.problem.run d = .ok r by
    obtain ⟨⟨p, e⟩, h⟩ := hreturns
    exact ⟨p, e, h⟩
  refine Draws.lift_bind_returns (hcount ▸ Problem.checkLeast_eq_ok hn _) ?_
  refine Draws.lift_bind_returns hstep (Draws.lift_bind_returns hnoise ?_)
  refine Draws.lift_bind_returns hread (Draws.lift_bind_returns hposes ?_)
  refine Draws.lift_bind_returns (Problem.isotropic_anchorSigma (three_ne_zero : (3 : ℕ) ≠ 0)) ?_
  -- from here on every step leaves a graph to which the next one can be added
  refine Draws.bind_returns (P := Problem.CanGrow) ?_ ?_
  · obtain ⟨anchored, hanchored, hgrow⟩ := (Problem.canGrow_empty hd).addFactor_returns hprior rfl
    exact ⟨anchored, d, hanchored, hgrow⟩
  intro anchored d hanchored
  refine Draws.bind_returns (P := Problem.CanGrow) ?_ ?_
  · refine Draws.foldlM_returns ?_ hanchored
    intro link hlink g d hgrow
    exact measureMotion_returns hdim (fst_ne_of_mem_zip_tail hnodup hlink) hgrow
  intro chained d hchained
  refine Draws.bind_returns (P := Problem.CanGrow) ?_ ?_
  · split
    · next last first hlast hfirst =>
      split_ifs with hclosed
      · exact measureMotion_returns hdim (getLast?_ne_head? hnodup hclosed.2 hlast hfirst) hchained
      · exact ⟨chained, d, rfl, hchained⟩
    · exact ⟨chained, d, rfl, hchained⟩
  intro closed d hclosed
  obtain ⟨initial, e, hperturb⟩ := Draws.perturb_returns hinitial _ hclosed.endless
  exact ⟨_, Draws.run_bind_eq_ok.mpr ⟨initial, e, hperturb, rfl⟩⟩

/-- The noise of a chain for which nothing but its length is said. -/
theorem diagonal_ofCount (count : Given ℝ) :
    Noise.diagonal (ofCount count).sigmas = .ok ⟨[0.05, 0.05, 0.02], .none⟩ := by
  refine bind_eq_ok.mpr ⟨(), rfl, bind_eq_ok.mpr ⟨_, Tensor.ofGiven_ofVector _, ?_⟩⟩
  refine Noise.ofTensor_quadratic_eq_ok.mpr ⟨rfl, List.cons_ne_nil _ _, ?_⟩
  simp only [List.forall_mem_cons]
  norm_num

end PoseChain

/-! ### Chains of vectors -/

namespace LinearChain

variable {chain : LinearChain ℝ} {sigma : Given ℝ} {x : ℝ} {n : ℤ} {k : ℕ} {g : Graph ℝ} {d e : Draws ℝ}

theorem noiseOf_takes (hsigma : sigma.IsNumber x) {t : Tensor ℝ}
    (h : (noiseOf (.integer n) sigma).run d = .ok (t, e)) :
    ∃ zs, n = zs.length ∧ t = .ofVector (zs.map (x * ·)) ∧ d.Takes zs e :=
  Draws.normal_takes hsigma h

/-- The vectors of a chain are all of one size, have different names, and are what is drawn. -/
theorem drawVectors_takes {index count : ℕ} {entries : List (Key × Vec ℝ)}
    (h : (drawVectors (.integer n) index count).run d = .ok (entries, e)) :
    entries.map (·.1) = (List.range' index count).map (fun i : ℕ => Key.number i) ∧
      (∀ entry ∈ entries, entry.2.length = n) ∧
      ∃ zs, zs.length = Values.totalDim ⟨entries⟩ ∧ d.Takes zs e := by
  induction count generalizing index d entries with
  | zero =>
    cases h
    exact ⟨rfl, List.forall_mem_nil _, [], rfl, .nil _⟩
  | succ count ih =>
    obtain ⟨entry, d₁, hentry, h⟩ := Draws.run_bind_eq_ok.mp h
    obtain ⟨rest, d₂, hrest, h⟩ := Draws.run_bind_eq_ok.mp h
    obtain ⟨rfl, rfl⟩ := Draws.run_pure_eq_ok.mp h
    obtain ⟨t, d₃, ht, hentry⟩ := Draws.run_bind_eq_ok.mp hentry
    obtain ⟨zs, hlength, rfl, htakes⟩ := noiseOf_takes ⟨rfl, rfl⟩ ht
    obtain ⟨xs, hxs, hentry⟩ := Draws.run_lift_bind_eq_ok.mp hentry
    obtain ⟨rfl, rfl⟩ := Draws.run_pure_eq_ok.mp hentry
    cases hxs
    obtain ⟨hkeys, hsizes, zs', hzs', htakes'⟩ := ih hrest
    refine ⟨?_, List.forall_mem_cons.mpr ⟨?_, hsizes⟩, zs ++ zs', ?_, htakes.append htakes'⟩
    · rw [List.map_cons, hkeys, List.range'_succ, List.map_cons]
    · rw [hlength]
      exact congrArg Nat.cast (List.length_map _)
    · rw [List.length_append, hzs']
      exact congrArg (· + _) (List.length_map _).symm

theorem nodup_of_drawVectors {index count : ℕ} {entries : List (Key × Vec ℝ)}
    (h : (drawVectors (.integer n) index count).run d = .ok (entries, e)) : (entries.map (·.1)).Nodup := by
  rw [(drawVectors_takes h).1]
  exact List.Nodup.map (fun i j hij => by simpa using hij) List.nodup_range'

theorem drawVectors_returns (hk : k ≤ Draws.mostAtOnce) (index count : ℕ) (hd : d.Endless) :
    ∃ entries e, (drawVectors (.integer k) index count).run d = .ok (entries, e) ∧ e.Endless := by
  induction count generalizing index d with
  | zero => exact ⟨[], d, rfl, hd⟩
  | succ count ih =>
    have hone : Given.IsNumber (.real 1 : Given ℝ) 1 := ⟨rfl, rfl⟩
    obtain ⟨t, d', ht⟩ := Draws.normal_returns hone hk hd
    obtain ⟨zs, -, rfl, htakes⟩ := Draws.normal_takes hone ht
    obtain ⟨rest, e, hrest, he⟩ := ih (index + 1) (htakes.endless hd)
    have hentry : (drawVector (.integer k) index).run d = .ok ((.number index, zs.map (1 * ·)), d') :=
      Draws.run_bind_eq_ok.mpr ⟨_, d', ht, rfl⟩
    exact ⟨_, e, Draws.run_bind_eq_ok.mpr ⟨_, d', hentry, Draws.run_bind_eq_ok.mpr ⟨rest, e, hrest, rfl⟩⟩, he⟩

theorem measureStep_returns {a b : Key × Vec ℝ} (hdim : chain.dim = .integer k) (hk : k ≤ Draws.mostAtOnce)
    (hsigma : chain.sigma.IsNumber x) (ha : a.2.length = k) (hb : b.2.length = k) (hne : a.1 ≠ b.1)
    (hnoise : Noise.filled chain.dim chain.sigma = .ok ⟨List.replicate k x, .none⟩)
    (hgrow : Problem.CanGrow g d) :
    ∃ g' e, (measureStep chain g a b).run d = .ok (g', e) ∧ Problem.CanGrow g' e := by
  obtain ⟨t, e, ht⟩ := Draws.normal_returns hsigma hk hgrow.endless
  obtain ⟨zs, hlength, rfl, htakes⟩ := Draws.normal_takes hsigma ht
  obtain rfl : k = zs.length := by exact_mod_cast hlength
  have hdrawn : (noiseOf chain.dim chain.sigma).run d = .ok (.ofVector (zs.map (x * ·)), e) := by
    rw [hdim]
    exact ht
  have hsize : (Vec.sub b.2 a.2).length = (zs.map (x * ·)).length := by
    rw [Vec.sub, List.length_zipWith, ha, hb, min_self, List.length_map]
  have hmeasured : Tensor.combine (· + ·) (.ofVector (Vec.sub b.2 a.2)) (.ofVector (zs.map (x * ·))) =
      .ok (.ofVector (Vec.add (Vec.sub b.2 a.2) (zs.map (x * ·)))) := by
    rw [Tensor.combine_ofVector, combine_of_length_eq _ _ _ hsize]
    rfl
  have hsum : (Vec.add (Vec.sub b.2 a.2) (zs.map (x * ·))).length =
      Noise.dim (⟨List.replicate zs.length x, .none⟩ : Noise ℝ) := by
    rw [Vec.add, List.length_zipWith, hsize, min_self, List.length_map, Noise.dim, List.length_replicate]
  obtain ⟨g', hadd, hgrow'⟩ :=
    (hgrow.of_takes htakes).addFactor_returns (Factor.between_eq_ok.mpr ⟨hne, hsum, rfl⟩) rfl
  exact ⟨g', e, Draws.run_bind_eq_ok.mpr ⟨_, e, hdrawn, Draws.run_lift_bind_eq_ok.mpr
    ⟨_, hmeasured, Draws.run_lift_bind_eq_ok.mpr ⟨_, hnoise, hadd⟩⟩⟩, hgrow'⟩

/-- What can be drawn at once can be stored. -/
theorem checkShape_single (hk : k ≤ Draws.mostAtOnce) : Tensor.checkShape [(k : ℤ)] = .ok [k] := by
  have hmost : Draws.mostAtOnce = 10000000 := rfl
  have hstored : Tensor.mostPlaces = 8589934592 := rfl
  have haddressable : Tensor.addressable = 1152921504606846976 := rfl
  have hplaces : Tensor.places [k] = k := by simp [Tensor.places]
  have hfilter : Tensor.places ([k].filter (· ≠ 0)) ≤ max k 1 := by
    by_cases hzero : k = 0
    · subst hzero
      decide
    · rw [List.filter_cons_of_pos (by simpa using hzero), List.filter_nil, hplaces]
      exact le_max_left ..
  rw [hmost] at hk
  have hsign : ¬ ([(k : ℤ)].any (· < 0)) = true := by simp
  have hfew : ¬ Tensor.addressable ≤ Tensor.places ([k].filter (· ≠ 0)) := by omega
  have hsmall : ¬ Tensor.mostPlaces < Tensor.places [k] := by omega
  rw [Tensor.checkShape, if_neg hsign]
  exact (if_neg hfew).trans (if_neg hsmall)

/-- **A chain of one vector or more is returned** when its vectors have some numbers, but not too many. -/
theorem problem_returns {m : ℕ} (hcount : chain.count = .integer m) (hm : m ≠ 0)
    (hdim : chain.dim = .integer k) (hk : k ≠ 0) (hfew : k ≤ Draws.mostAtOnce)
    (hsigma : chain.sigma.IsNumber x) (hx : 0 < x) (hd : d.Endless) :
    ∃ p e, chain.problem.run d = .ok (p, e) := by
  have hread : chain.count.toInt = .ok (m : ℤ) := by
    rw [hcount]
    rfl
  have hnoise : Noise.filled chain.dim chain.sigma = .ok ⟨List.replicate k x, .none⟩ := by
    rw [hdim, hsigma.filled_eq (checkShape_single hfew), Noise.ofTensor_quadratic_eq_ok]
    refine ⟨rfl, by simpa using hk, fun sigma hmem => ?_⟩
    rwa [List.eq_of_mem_replicate hmem]
  obtain ⟨entries, d₁, hentries, hd₁⟩ := drawVectors_returns hfew 0 m hd
  obtain ⟨hkeys, hsizes, -⟩ := drawVectors_takes hentries
  have hnodup := nodup_of_drawVectors hentries
  have hlength : ∀ entry ∈ entries, entry.2.length = k := fun entry h => by exact_mod_cast hsizes entry h
  obtain ⟨first, hfirst⟩ : ∃ first, Table.get? entries (.number 0) = some first := by
    refine Table.exists_get?_of_mem_keys ?_
    rw [Table.keys, hkeys]
    exact List.mem_map.mpr ⟨0, List.mem_range'_1.mpr ⟨le_rfl, by omega⟩, rfl⟩
  have hsize : first.length = Noise.dim (⟨List.replicate k x, .none⟩ : Noise ℝ) := by
    rw [hlength _ (mem_of_lookup hfirst), Noise.dim, List.length_replicate]
  have hprior : Factor.prior (.number 0) (.ofVector first) (some ⟨List.replicate k x, .none⟩) none = .ok _ :=
    Factor.prior_eq_ok.mpr ⟨hsize, rfl⟩
  obtain ⟨anchored, hanchored, hgrow⟩ := (Problem.canGrow_empty hd₁).addFactor_returns hprior rfl
  have hlinks : ∃ chained e, ((entries.zip entries.tail).foldlM
      (fun g pair => measureStep chain g pair.1 pair.2) anchored).run d₁ = .ok (chained, e) ∧
        Problem.CanGrow chained e := by
    refine Draws.foldlM_returns ?_ hgrow
    intro link hlink g d hgrow
    obtain ⟨ha, hb⟩ := List.of_mem_zip hlink
    exact measureStep_returns hdim hfew hsigma (hlength _ ha) (hlength _ (List.mem_of_mem_tail hb))
      (fst_ne_of_mem_zip_tail hnodup hlink) hnoise hgrow
  obtain ⟨chained, e, hchained, -⟩ := hlinks
  refine ⟨⟨chained, ⟨entries⟩, ⟨entries.map fun entry => (entry.1, Vec.zeros entry.2.length)⟩⟩, e, ?_⟩
  refine Draws.run_lift_bind_eq_ok.mpr ⟨m, hread, Draws.run_bind_eq_ok.mpr ⟨entries, d₁, hdim ▸ hentries, ?_⟩⟩
  refine Draws.run_lift_bind_eq_ok.mpr ⟨first, Table.find_eq_ok.mpr hfirst, ?_⟩
  refine Draws.run_lift_bind_eq_ok.mpr ⟨_, hnoise, Draws.run_bind_eq_ok.mpr ⟨anchored, d₁, hanchored, ?_⟩⟩
  exact Draws.run_bind_eq_ok.mpr ⟨chained, e, hchained, rfl⟩

end LinearChain

end LeastSquares
