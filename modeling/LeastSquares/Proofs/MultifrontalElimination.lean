/-
  LeastSquares/Proofs/MultifrontalElimination.lean
  ================================================
  **Elimination along the fronts solves the least-squares problem.**

  Every elimination of a run splits what its factors miss.  Since every factor is taken once, what is
  left cancels in the sum over all eliminations, and the conditionals together miss what the problem
  misses, up to a constant.  They are solved from the roots down, which is a schedule.
-/
import LeastSquares.Proofs.FrontElimination
import LeastSquares.Proofs.SequentialElimination

namespace LeastSquares

open FrontForest BayesTree

variable {order : EliminationOrder} {dims position frontOf : Table ℕ} {g : LinearGraph ℝ}

/-- What factors on their way miss together. -/
noncomputable def parcelsMisfit (parcels : List (Parcel ℝ)) (x : Assignment) : ℝ :=
  (parcels.map fun p => p.factor.misfit x).sum

theorem parcelsMisfit_append (parcels others : List (Parcel ℝ)) (x : Assignment) :
    parcelsMisfit (parcels ++ others) x = parcelsMisfit parcels x + parcelsMisfit others x := by
  rw [parcelsMisfit, List.map_append, List.sum_append, parcelsMisfit, parcelsMisfit]

theorem parcelsMisfit_factors (parcels : List (Parcel ℝ)) (x : Assignment) :
    ((parcels.map (·.factor)).map (LinearFactor.misfit x)).sum = parcelsMisfit parcels x := by
  rw [parcelsMisfit, List.map_map]
  rfl

/-! ### What a run keeps -/

/-- **A run keeps the sizes**: every factor on its way has blocks of the sizes of its variables. -/
theorem BayesTree.Run.fits {count index : ℕ} {fronts : List Front} {pending : List (Parcel ℝ)}
    {calls : List (Call ℝ)} (hrun : Run dims position frontOf count index fronts pending calls)
    (hnodup : ∀ front ∈ fronts, front.frontals.Nodup)
    (hpending : ∀ p ∈ pending, p.factor.Fits dims) :
    ∀ p ∈ pending ++ calls.flatMap (·.sent), p.factor.Fits dims := by
  induction hrun with
  | nil => simpa using hpending
  | @cons index front fronts pending call update calls _ hconsumed heliminate hroute _ _ ih =>
    have hmine : ∀ f ∈ call.consumed.map (·.factor), f.Fits dims := by
      intro f hf
      obtain ⟨p, hp, rfl⟩ := List.mem_map.mp hf
      exact hpending p (List.mem_filter.mp (hconsumed ▸ hp)).1
    obtain ⟨-, hleft, -⟩ := Elimination.eliminate_split heliminate (hnodup front (by simp)) hmine
    have hsent : ∀ p ∈ call.sent, p.factor.Fits dims := by
      intro p hp
      have hmem : p.factor ∈ (call.sent.map Parcel.waiting).map (·.2) :=
        List.mem_map_of_mem (List.mem_map_of_mem hp)
      rw [routeUpdate_factors hroute, Option.mem_toList] at hmem
      exact hleft _ hmem
    rw [List.flatMap_cons, ← List.append_assoc]
    exact ih (fun f hf => hnodup f (List.mem_cons_of_mem _ hf))
      fun p hp => (List.mem_append.mp hp).elim (hpending p) (hsent p)

/-- **One elimination** splits what its factors miss into what its conditional misses, what is left,
    and a constant. -/
theorem Call.Sound.split {fronts : List Front} {call : Call ℝ} {front : Front}
    (h : call.Sound fronts dims position front) (hnodup : front.frontals.Nodup)
    (hfits : ∀ p ∈ call.consumed, p.factor.Fits dims) :
    call.conditional.IsProper dims ∧ ∃ rest : ℝ, ∀ x, parcelsMisfit call.consumed x =
      call.conditional.misfit x + parcelsMisfit call.sent x + rest := by
  obtain ⟨update, heliminate, hsent⟩ := h.eliminated
  obtain ⟨-, hdims, -⟩ := Elimination.eliminate_keys heliminate
  obtain ⟨hsolvable, -, rest, -, -, hsplit⟩ := Elimination.eliminate_split heliminate hnodup
    fun f hf => by
      obtain ⟨p, hp, rfl⟩ := List.mem_map.mp hf
      exact hfits p hp
  refine ⟨⟨hsolvable, hdims, hdims ▸ Elimination.eliminate_sized heliminate⟩, rest, fun x => ?_⟩
  have hleft : parcelsMisfit call.sent x = Elimination.leftMisfit update x := by
    rw [← parcelsMisfit_factors, hsent]
    cases update <;> simp [Elimination.leftMisfit]
  rw [hleft, ← hsplit, parcelsMisfit_factors]

theorem parcelsMisfit_calls {calls : List (Call ℝ)}
    (h : ∀ call ∈ calls, ∃ rest : ℝ, ∀ x, parcelsMisfit call.consumed x =
      call.conditional.misfit x + parcelsMisfit call.sent x + rest) :
    ∃ rest : ℝ, ∀ x, parcelsMisfit (calls.flatMap (·.consumed)) x =
      ((calls.map (·.conditional)).map (Conditional.misfit · x)).sum +
        parcelsMisfit (calls.flatMap (·.sent)) x + rest := by
  induction calls with
  | nil => exact ⟨0, fun x => by simp [parcelsMisfit]⟩
  | cons call calls ih =>
    obtain ⟨rest, hrest⟩ := h call (by simp)
    obtain ⟨rest', hrest'⟩ := ih fun c hc => h c (List.mem_cons_of_mem _ hc)
    refine ⟨rest + rest', fun x => ?_⟩
    rw [List.flatMap_cons, List.flatMap_cons, parcelsMisfit_append, parcelsMisfit_append, hrest,
      hrest', List.map_cons, List.map_cons, List.sum_cons]
    ring

/-- **What is left cancels**: the conditionals of a run over all fronts miss together what the factors
    miss that were given, up to a constant. -/
theorem BayesTree.Run.split {table : Table (List Key)} {forest : FrontForest}
    (h : IsSupernodal order g table forest) {pending : List (Parcel ℝ)} {calls : List (Call ℝ)}
    (hrun : Run dims order.positions forest.frontOf forest.fronts.length 0 forest.fronts pending calls)
    (hbelongs : ∀ p ∈ pending, Belongs forest p.front p.factor)
    (hfits : ∀ p ∈ pending, p.factor.Fits dims) :
    (∀ c ∈ calls.map (·.conditional), c.IsProper dims) ∧ ∃ rest : ℝ, ∀ x, parcelsMisfit pending x =
      ((calls.map (·.conditional)).map (Conditional.misfit · x)).sum + rest := by
  have hnodup : ∀ front ∈ forest.fronts, front.frontals.Nodup := fun front hfront =>
    h.nodup_frontals hfront
  obtain ⟨-, hsound⟩ := hrun.sound h (List.prefix_refl _) hbelongs
  have hperm := hrun.consumed_perm_all h hbelongs
  have hall := hrun.fits hnodup hfits
  have hsplits : ∀ call ∈ calls, call.conditional.IsProper dims ∧ ∃ rest : ℝ, ∀ x,
      parcelsMisfit call.consumed x =
        call.conditional.misfit x + parcelsMisfit call.sent x + rest := by
    intro call hcall
    obtain ⟨front, hfront⟩ := hsound call hcall
    refine hfront.split (hnodup front (List.mem_of_getElem? hfront.front_eq)) fun p hp => hall p ?_
    exact hperm.subset (List.mem_flatMap.mpr ⟨call, hcall, hp⟩)
  refine ⟨List.forall_mem_map.mpr fun call hcall => (hsplits call hcall).1, ?_⟩
  obtain ⟨rest, hrest⟩ := parcelsMisfit_calls fun call hcall => (hsplits call hcall).2
  refine ⟨rest, fun x => ?_⟩
  have hsum := (hperm.map fun p => p.factor.misfit x).sum_eq
  change parcelsMisfit _ x = parcelsMisfit _ x at hsum
  rw [hrest, parcelsMisfit_append] at hsum
  linarith

/-- A run stops only at an elimination that fails: what one leaves has a front to go to. -/
theorem FrontForest.IsSupernodal.error_of_stops {table : Table (List Key)} {forest : FrontForest}
    (h : IsSupernodal order g table forest) {index : ℕ} {front : Front}
    (hfront : forest.fronts[index]? = some front) {factors : List (LinearFactor ℝ)}
    (hbelongs : ∀ f ∈ factors, ∀ key ∈ f.keys, key ∈ front.frontals ++ front.separator) {e : Error}
    (hstops : Stops dims order.positions forest.frontOf forest.fronts.length factors front e) :
    Elimination.eliminate factors front.frontals dims order.positions = .error e := by
  rcases hstops with herror | ⟨c, u, hok, hroute⟩
  · exact herror
  · obtain ⟨-, -, hnone, hsome⟩ := h.eliminate_front hfront hbelongs hok
    cases u with
    | none =>
      rw [hnone rfl] at hroute
      cases hroute
    | some f =>
      obtain ⟨next, hnext, -⟩ := hsome f rfl
      rw [hnext] at hroute
      cases hroute

/-- **A run over fitting factors stops only where a variable is not determined.** -/
theorem BayesTree.Run.fails {table : Table (List Key)} {forest : FrontForest}
    (h : IsSupernodal order g table forest)
    (hsized : ∀ key ∈ order.keys, ∃ n, dims.get? key = some n ∧ 0 < n) {done left : List Front}
    {front : Front} (hfronts : done ++ front :: left = forest.fronts) {pending : List (Parcel ℝ)}
    {calls : List (Call ℝ)}
    (hrun : Run dims order.positions forest.frontOf forest.fronts.length 0 done pending calls)
    (hbelongs : ∀ p ∈ pending, Belongs forest p.front p.factor)
    (hfits : ∀ p ∈ pending, p.factor.Fits dims) {e : Error}
    (hstops : Stops dims order.positions forest.frontOf forest.fronts.length
      (((pending ++ calls.flatMap (·.sent)).filter fun p => p.front = calls.length).map (·.factor))
      front e) :
    (∃ (t : Elimination.Course ℝ) (column : ℕ), t.Stacks
      (((pending ++ calls.flatMap (·.sent)).filter fun p => p.front = calls.length).map (·.factor))
      front.frontals dims ∧ t.FailsAt column) ∧ ∃ key ∈ order.keys, e = .indeterminate key := by
  have hdone : done <+: forest.fronts.drop 0 := ⟨front :: left, hfronts⟩
  obtain ⟨hall, -⟩ := hrun.sound h hdone hbelongs
  have hsizes := hrun.fits (fun f hf => h.nodup_frontals (hdone.subset hf)) hfits
  have hfront : forest.fronts[calls.length]? = some front := by
    rw [← hfronts, hrun.length_calls]
    simp
  have hmine := keys_of_belongs hfront hall
  have hminefits : ∀ f ∈ ((pending ++ calls.flatMap (·.sent)).filter fun p =>
      p.front = calls.length).map (·.factor), f.Fits dims :=
    List.forall_mem_map.mpr fun p hp => hsizes p (List.mem_filter.mp hp).1
  have hmem := List.mem_of_getElem? hfront
  have hlisted : ∀ key ∈ front.frontals, key ∈ order.keys := fun key hkey =>
    h.listed hfront (List.mem_append_left _ hkey)
  have herror := h.error_of_stops hfront hmine hstops
  obtain ⟨t, column, key, hformed, hfails, hkey, -, rfl⟩ := Elimination.fails_of_listed herror hsized
    (h.ascending front hmem).1 (h.nodup_frontals hmem) hlisted
    (fun f hf key hkey => h.listed hfront (hmine f hf key hkey)) hminefits
  exact ⟨⟨t, column, hformed.stacks (h.nodup_frontals hmem) hminefits, hfails⟩, key, hlisted key hkey, rfl⟩

namespace MultifrontalSolver

theorem fits_of_tagged (hg : g.Accords order.keys dims) {pending : List (Parcel ℝ)}
    (htagged : pending.map Parcel.tagged = g.given) :
    pending.map (·.factor) = (g.factors.filter fun f => !f.keys.isEmpty) ∧
      ∀ p ∈ pending, p.factor.Fits dims := by
  have hfactors : pending.map (·.factor) = g.factors.filter fun f => !f.keys.isEmpty := by
    rw [← g.map_given, ← htagged, List.map_map]
    rfl
  refine ⟨hfactors, fun p hp => ?_⟩
  have hmem : p.factor ∈ g.factors.filter fun f => !f.keys.isEmpty :=
    hfactors ▸ List.mem_map_of_mem hp
  exact hg.fits _ (List.mem_filter.mp hmem).1

/-- **Where elimination returns, the solver returns the solution**, also where a variable has the size
    zero, and the columns of the stacked matrix are independent. -/
theorem solution_of_eliminate {s : MultifrontalSolver ℝ} (hs : s.Coherent)
    (hg : g.Accords s.order.keys s.dims) {t : BayesTree ℝ} (ht : (s.eliminate g).result = .ok t) :
    ∃ d, (s.solve g).result = .ok d ∧ g.FullColumnRank s.order.keys s.dims ∧
      g.IsSolvedBy s.order.keys s.dims d := by
  obtain ⟨table, forest, pending, hspec, -, -, htagged, hbelongs, ⟨calls, hrun, hresult⟩ |
    ⟨_, _, _, _, e, -, -, hresult, -⟩⟩ := eliminate_cases hs hg.nodup hg.listed
  · obtain ⟨hfactors, hfits⟩ := fits_of_tagged hg htagged
    obtain ⟨hproper, rest, hsplit⟩ := hrun.split hspec hbelongs hfits
    obtain ⟨rest', -, hsplit'⟩ := LinearGraph.misfit_eq_filter hg
    have hlength : (calls.map (·.conditional)).length = forest.fronts.length := by
      rw [List.length_map, hrun.length_calls]
    have hconform := hrun.conform hspec hbelongs
    rw [ht, Except.ok.injEq] at hresult
    obtain ⟨hoptimize, -, hperm, hscheduled⟩ := BayesTree.optimize_spec (t := t) hspec hconform hlength
      (hresult ▸ rfl) (hresult ▸ rfl)
    have hcover : ∀ key, key ∈ t.schedule.flatMap (·.frontals) ↔ key ∈ s.order.keys := fun key => by
      rw [(hperm.flatMap_right _).mem_iff, hconform.mem_flatMap_iff hspec hlength]
    have hmisfit : ∀ x, g.misfit x =
        (t.schedule.map (Conditional.misfit · x)).sum + (rest + rest') := fun x => by
      rw [hsplit', ← hfactors, parcelsMisfit_factors, hsplit, (hperm.map _).sum_eq, add_assoc]
    obtain ⟨d, hd, hsolved⟩ := LinearGraph.exists_isSolvedBy_of_schedule hg hscheduled
      (fun c hc => hproper c (hperm.subset hc)) hcover hmisfit
    refine ⟨d, ?_, hsolved⟩
    obtain ⟨horder, -⟩ := eliminate_memory hs g
    simp only [solve, ht, hoptimize]
    exact hd
  · rw [ht] at hresult
    cases hresult

theorem solve_of_eliminate {s : MultifrontalSolver ℝ} (hs : s.Coherent)
    (hg : g.Fits s.order.keys s.dims) {t : BayesTree ℝ} (ht : (s.eliminate g).result = .ok t) :
    ∃ d, (s.solve g).result = .ok d ∧ g.FullColumnRank s.order.keys s.dims ∧
      g.IsSolvedBy s.order.keys s.dims d :=
  solution_of_eliminate hs hg.accords ht

theorem isSolvedBy_of_solve {s : MultifrontalSolver ℝ} (hs : s.Coherent)
    (hg : g.Accords s.order.keys s.dims) {d : Delta ℝ} (h : (s.solve g).result = .ok d) :
    g.IsSolvedBy s.order.keys s.dims d := by
  cases ht : (s.eliminate g).result with
  | error e =>
    simp only [solve, ht] at h
    cases h
  | ok t =>
    obtain ⟨d', hd', -, hsolved⟩ := solution_of_eliminate hs hg ht
    rw [h, Except.ok.injEq] at hd'
    exact hd' ▸ hsolved

/-- **Where elimination fails, a variable is not determined.** -/
theorem indeterminate_of_eliminate {s : MultifrontalSolver ℝ} (hs : s.Coherent)
    (hg : g.Fits s.order.keys s.dims) {e : Error} (he : (s.eliminate g).result = .error e) :
    ∃ key ∈ s.order.keys, e = .indeterminate key := by
  obtain ⟨table, forest, pending, hspec, -, -, htagged, hbelongs, ⟨_, _, hresult⟩ |
    ⟨done, front, left, calls, e', hfronts, hrun, hresult, hstops⟩⟩ :=
      eliminate_cases hs hg.nodup hg.listed
  · rw [he] at hresult
    cases hresult
  · rw [he, Except.error.injEq] at hresult
    subst hresult
    exact (hrun.fails hspec hg.sized hfronts hbelongs (fits_of_tagged hg.accords htagged).2 hstops).2

/-- **The solver returns the least-squares solution or names a variable that is not determined**, in
    every state that it can be in.  It returns only when the stacked matrix has full column rank, and
    then the step, in the order of elimination, is the only one of least cost and the only solution of
    the normal equations; when the matrix lacks full column rank, a variable is named.  Whenever the
    elimination of one variable after another returns as well, it returns the same step. -/
theorem solve_isLeastSquares {s : MultifrontalSolver ℝ} (hs : Reachable order dims s)
    (hg : g.Fits order.keys dims) :
    (∀ d, (s.solve g).result = .ok d →
      g.FullColumnRank order.keys dims ∧ g.IsSolvedBy order.keys dims d) ∧
    (∀ e, (s.solve g).result = .error e → ∃ key ∈ order.keys, e = .indeterminate key) ∧
    (¬ g.FullColumnRank order.keys dims →
      ∃ key ∈ order.keys, (s.solve g).result = .error (.indeterminate key)) ∧
    ∀ net d d', (s.solve g).result = .ok d →
      (SequentialSolver.solve ⟨order, dims, net⟩ g).result = .ok d' → d = d' := by
  obtain ⟨rfl, rfl, hcoherent⟩ := hs.coherent
  cases heliminated : (s.eliminate g).result with
  | error e =>
    obtain ⟨key, hkey, rfl⟩ := indeterminate_of_eliminate hcoherent hg heliminated
    have hresult : (s.solve g).result = .error (.indeterminate key) := by
      simp only [solve, heliminated]
    rw [hresult]
    refine ⟨fun d hd => (by cases hd), fun e he => ?_, fun _ => ⟨key, hkey, rfl⟩,
      fun net d d' hd => (by cases hd)⟩
    cases he
    exact ⟨key, hkey, rfl⟩
  | ok t =>
    obtain ⟨d, hresult, hrank, hsolved⟩ := solve_of_eliminate hcoherent hg heliminated
    rw [hresult]
    refine ⟨fun d' hd' => ?_, fun e he => (by cases he), fun hnot => (hnot hrank).elim,
      fun net found d' hfound hd' => ?_⟩
    · cases hd'
      exact ⟨hrank, hsolved⟩
    · cases hfound
      rcases SequentialSolver.solve_cases ⟨s.order, s.dims, net⟩ hg with
        ⟨key, -, herror⟩ | ⟨other, hother, -, hotherSolved⟩
      · rw [herror] at hd'
        cases hd'
      · rw [hd', Except.ok.injEq] at hother
        exact hsolved.unique (hother ▸ hotherSolved)

/-- The three numbers are found, from the third to the first two. -/
theorem solve_meeting : Meeting.problem.Fits Meeting.inTurn.keys Meeting.sizes ∧
    ∃ d, (Meeting.solver.solve Meeting.problem).result = .ok d ∧
      Meeting.problem.FullColumnRank Meeting.inTurn.keys Meeting.sizes ∧
      Meeting.problem.IsSolvedBy Meeting.inTurn.keys Meeting.sizes d := by
  obtain ⟨t, ht, -⟩ := Meeting.solver_eliminate
  obtain ⟨d, hd, -⟩ := solve_of_eliminate Reachable.fresh.coherent.2.2 Meeting.fits ht
  obtain ⟨hrank, hsolved⟩ := (solve_isLeastSquares .fresh Meeting.fits).1 d hd
  exact ⟨Meeting.fits, d, hd, hrank, hsolved⟩

end MultifrontalSolver

end LeastSquares
