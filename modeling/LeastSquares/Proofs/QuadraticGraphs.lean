/-
  LeastSquares/Proofs/QuadraticGraphs.lean
  ========================================
  **An affine graph without robust losses is solved by one undamped step.**

  The linear problem of such a graph costs at a step what the graph costs at the moved estimate.  So the
  step that solves it leads to the only estimate of least cost, from which no later step moves away, since
  none makes the cost greater; and a loop finds after one more round at most that the cost has settled.
-/
import LeastSquares.Proofs.Reweighting

namespace LeastSquares

/-! ### The cost and its linear problem -/

namespace Graph

variable {g : Graph ℝ} {dims : Table ℕ} {terms : Terms} {v w : Values ℝ}

/-- **Without robust losses the linear problem costs at a step what the graph costs at the moved
    estimate**; it has a cost at the steps that list the variables of the graph. -/
theorem Follows.linear_cost_eq (h : g.Follows dims terms) (hquadratic : g.IsQuadratic)
    (hv : v.dims = dims) : ∃ linear, g.linearize v = .ok linear ∧ ∀ d w, v.retract d = .ok w →
      ((∃ c, linear.cost d = .ok c) ↔ ∀ key ∈ g.keys, key ∈ d.keys) ∧
      ∀ c, linear.cost d = .ok c → g.cost w = .ok c := by
  have hproper := hquadratic.hasProperLosses.isProper h
  obtain ⟨linear, hlinear, hstructure, hfits, hmisfit⟩ := h.linearize_eq hproper hv
  have hkeys : ∀ key, key ∈ g.keys ↔ ∃ f ∈ linear.factors, key ∈ f.keys := by
    intro key
    have hflat : g.factors.flatMap (·.keys) = linear.factors.flatMap (·.keys) := by
      rw [List.flatMap_def, ← hstructure, List.flatMap_def]
      rfl
    rw [keys, mem_distinct, hflat, List.mem_flatMap]
  refine ⟨linear, hlinear, fun d w hretract => ?_⟩
  have hcost : (∀ key ∈ g.keys, key ∈ d.keys) → linear.cost d = .ok (1 / 2 * linear.misfit d.assignment) := by
    refine fun hlists => LinearGraph.cost_of_blocks hfits fun f hf key hkey => ?_
    obtain ⟨block, hblock⟩ :=
      Table.exists_get?_of_mem_keys (hlists key ((hkeys key).mpr ⟨f, hf, hkey⟩))
    obtain ⟨n, hn⟩ := (hfits f hf).get?_of_mem hkey
    refine ⟨block, hblock, ?_⟩
    rw [Table.dimOf_eq hn]
    exact Values.length_of_retract hretract (hv ▸ hn) hblock
  have hlisted : ∀ c, linear.cost d = .ok c → ∀ key ∈ g.keys, key ∈ d.keys := fun c hc key hkey =>
    let ⟨f, hf, hmem⟩ := (hkeys key).mp hkey
    LinearGraph.mem_keys_of_cost hfits hc f hf key hmem
  refine ⟨⟨fun ⟨c, hc⟩ => hlisted c hc, fun hlists => ⟨_, hcost hlists⟩⟩, fun c hc => ?_⟩
  have hsame := hcost (hlisted c hc)
  rw [hc, Except.ok.injEq] at hsame
  rw [h.cost_retract hv hretract, hsame, hmisfit, Terms.weighted_eq (hquadratic.not_robust h)]

/-- **An estimate of the sizes is the only one of least cost.** -/
structure IsMinimizedBy (g : Graph ℝ) (dims : Table ℕ) (best : Values ℝ) : Prop where
  sized : best.dims = dims
  least : ∃ c, g.cost best = .ok c ∧
    ∀ other : Values ℝ, other.dims = dims → other ≠ best → ∃ c', g.cost other = .ok c' ∧ c < c'

/-- No other estimate costs as little. -/
theorem IsMinimizedBy.eq_of_cost_le {best : Values ℝ} (h : g.IsMinimizedBy dims best) {c c' : ℝ}
    (hc : g.cost best = .ok c) (hw : w.dims = dims) (hc' : g.cost w = .ok c') (hle : c' ≤ c) :
    w = best := by
  by_contra hne
  obtain ⟨_, hbest, hleast⟩ := h.least
  obtain ⟨_, hother, hlt⟩ := hleast w hw hne
  rw [hc, Except.ok.injEq] at hbest
  rw [hc', Except.ok.injEq] at hother
  subst hbest hother
  exact hlt.not_ge hle

/-- The step that solves the linear problem leads to the only estimate of least cost. -/
theorem Follows.isMinimizedBy (h : g.Follows dims terms) (hquadratic : g.IsQuadratic)
    (hv : v.dims = dims) {keys : List Key} (hnodup : keys.Nodup) (hperm : keys.Perm dims.keys)
    {linear : LinearGraph ℝ} (hlinear : g.linearize v = .ok linear) {d : Delta ℝ}
    (hsolved : linear.IsSolvedBy keys dims d) (hretract : v.retract d = .ok w) :
    g.IsMinimizedBy dims w := by
  obtain ⟨_, hsame, -, hfits, hmisfit⟩ :=
    h.linearize_eq (hquadratic.hasProperLosses.isProper h) hv
  rw [hlinear, Except.ok.injEq] at hsame
  subst hsame
  have haccords := LinearGraph.accords_of_fits hnodup hperm hfits
  have hw : w.dims = dims := (Values.dims_of_retract hretract).trans hv
  have hcost : ∀ y, 1 / 2 * linear.misfit y = terms.cost (v.assignment + y) := fun y => by
    rw [hmisfit, Terms.weighted_eq (hquadratic.not_robust h)]
  refine ⟨hw, _, h.cost_retract hv hretract, fun other hother hne => ⟨_, h.cost_eq hother, ?_⟩⟩
  -- the other estimate is reached by another step
  obtain ⟨d', hd', hassign⟩ := Delta.exists_lists dims hnodup (other.assignment - v.assignment)
  have hreached : ∀ key n, dims.get? key = some n → ∀ j < n,
      (v.assignment + d'.assignment) key j = other.assignment key j := by
    intro key n hn j hj
    have hstep := hassign key (hperm.symm.subset (Table.mem_keys_of_get? hn)) j
      (Table.dimOf_eq hn ▸ hj)
    show v.assignment key j + d'.assignment key j = _
    rw [hstep]
    show v.assignment key j + (other.assignment key j - v.assignment key j) = _
    ring
  have hdiffers : d' ≠ d := by
    rintro rfl
    have hkeys : w.keys.Nodup := by
      rw [← Values.keys_dims, hw]
      exact hperm.nodup_iff.mp hnodup
    refine hne (Values.ext_assignment hkeys (hother.trans hw.symm) fun key n hn j hj => ?_)
    rw [hw] at hn
    have hmem : key ∈ v.keys := by
      rw [← Values.keys_dims, hv]
      exact Table.mem_keys_of_get? hn
    rw [← hreached key n hn j hj, Values.assignment_retract hretract hmem]
    rfl
  have hlt := hsolved.misfit_lt haccords hd' hdiffers
  rw [← hcost, ← Terms.cost_congr h.fits hreached, ← hcost]
  linarith

end Graph

namespace Optimizer

open Convergence

/-! ### Rest at the minimum -/

section Rest

variable {o : Optimizer (Backend ℝ) ℝ} {order : EliminationOrder} {terms : Terms}
  {s t : OptimizerState (Backend ℝ) ℝ} {steps : List (Values ℝ × ℝ)} {linear : LinearGraph ℝ}
  {d : Delta ℝ}

theorem Descending.cost_le (hs : o.Descending order terms s) (ht : o.Descending order terms t)
    (h : Advances s t steps) : t.cost ≤ s.cost := by
  obtain ⟨before, hbefore⟩ := List.getLast?_eq_some_iff.mp hs.last
  have hchain := ht.chain
  rw [h.history, hbefore, List.append_assoc] at hchain
  rw [h.cost_eq]
  exact (getLastD_le_of_isChain (fun _ _ _ => le_trans) hchain.right_of_append).elim Eq.le id

theorem Descending.stays (ho : o.Exact order terms) (hs : o.Descending order terms s)
    (hbest : o.graph.IsMinimizedBy o.dims s.values) (ht : o.Descending order terms t)
    (hle : t.cost ≤ s.cost) : t.values = s.values := by
  refine hbest.eq_of_cost_le (ho.follows.cost_eq hs.sized) ht.sized (ho.follows.cost_eq ht.sized) ?_
  rwa [← hs.cost_eq, ← ht.cost_eq]

/-- **No call moves an estimate away from the minimum.** -/
theorem Descending.after_stays (ho : o.Exact order terms) (hs : o.Descending order terms s)
    (hbest : o.graph.IsMinimizedBy o.dims s.values) {calls : List (Call ℝ)}
    (hcalls : ∀ call ∈ calls, call.IsOwn) : (o.after s calls).values = s.values := by
  have ht := ho.after_descends hcalls hs
  have hstands : o.Stands o.dims (s.values, s.cost) :=
    ⟨hs.sized, by rw [ho.follows.cost_eq hs.sized, hs.cost_eq]⟩
  exact hs.stays ho hbest ht (hs.cost_le ht (after_advances calls s hstands).1)

/-- The first step that is answered leads to the minimum. -/
theorem Exact.isMinimizedBy (ho : o.Exact order terms) (hquadratic : o.graph.IsQuadratic)
    (hs : o.Descending order terms s) (hlinear : o.graph.linearize s.values = .ok linear)
    (hanswer : (s.memory.solve linear).result = .ok d) {w : Values ℝ}
    (hretract : s.values.retract d = .ok w) : o.graph.IsMinimizedBy o.dims w := by
  obtain ⟨_, hsame, -, hfits, -⟩ := ho.follows.linearize_eq ho.proper hs.sized
  rw [hlinear, Except.ok.injEq] at hsame
  subst hsame
  exact ho.follows.isMinimizedBy hquadratic hs.sized ho.nodup ho.perm hlinear
    (hs.exact.isSolvedBy (LinearGraph.accords_of_fits ho.nodup ho.perm hfits) hanswer) hretract

end Rest

/-! ### Loops -/

/-- A loop whose round has accepted a step ends or goes on by the change of the cost. -/
theorem loop_round {σ α : Type} [Scalar α] {o : Optimizer σ α} {method : Method}
    {s t : OptimizerState σ α} {ends : Bool} (hround : (o.round method).run s = (.ok true, t))
    (hdecision : o.decision s.cost t.cost = .ok ends) (left : ℕ) :
    ∃ u, Tells t u ∧ (o.loop method (left + 1)).run s =
      if ends then (.ok (outcome u true .converged), u) else (o.loop method left).run u := by
  obtain ⟨u, hsettled, htells⟩ := o.settled_tells s.cost t
  refine ⟨u, htells, ?_⟩
  simp only [loop_succ, run_bind, run_get, hround, if_true, hsettled, hdecision]
  cases ends <;> rfl

section Loops

variable {o : Optimizer (Backend ℝ) ℝ} {order : EliminationOrder} {terms : Terms}
  {s : OptimizerState (Backend ℝ) ℝ} {linear linear' : LinearGraph ℝ} {d d' : Delta ℝ}
  {best : Values ℝ}

/-- A round whose problem the backend has a step for accepts it. -/
theorem Exact.round_accepts (ho : o.Exact order terms) (method : Method)
    (hs : o.Descending order terms s) (hlinear : o.graph.linearize s.values = .ok linear)
    (hanswer : (s.memory.solve (method.problem o s linear)).result = .ok d) :
    ∃ w t, s.values.retract d = .ok w ∧ (o.round method).run s = (.ok true, t) ∧
      o.Descending order terms t ∧ t.values = w ∧
      t.memory = (s.memory.solve (method.problem o s linear)).memory ∧
      t.iterations = s.iterations + 1 ∧ t.cost ≤ s.cost := by
  obtain ⟨_, hsame, -, hanswered⟩ := ho.round_cases hs method
  rw [hlinear, Except.ok.injEq] at hsame
  subst hsame
  obtain ⟨step, t, hleads, hdescent, hrun, htells, ht⟩ := hanswered d hanswer
  have hcost : t.cost = step.2 := htells.quiet.cost_eq
  refine ⟨step.1, t, hleads.moved, hrun, ht, htells.quiet.values_eq, ?_, htells.quiet.iterations_eq,
    hcost ▸ hdescent.le⟩
  rw [htells.memory_eq]
  show (o.solver.solve s.memory _).memory = _
  rw [ho.solver_eq]
  rfl

/-- From the minimum, one more round settles an undamped loop. -/
theorem Exact.loop_rests (ho : o.Exact order terms) (hs : o.Descending order terms s)
    (hbest : o.graph.IsMinimizedBy o.dims s.values) (hlinear : o.graph.linearize s.values = .ok linear)
    (hanswer : (s.memory.solve linear).result = .ok d) (hpos : 0 < s.cost)
    (hthreshold : 0 < o.parameters.absoluteDecrease ∨ 0 < o.parameters.relativeDecrease) (left : ℕ) :
    ∃ t, (o.loop .gaussNewton (left + 1)).run s = (.ok (outcome t true .converged), t) ∧
      t.values = s.values ∧ t.iterations = s.iterations + 1 := by
  obtain ⟨_, t, -, hround, ht, -, -, hcount, hle⟩ :=
    ho.round_accepts .gaussNewton hs hlinear hanswer
  have hvalues := hs.stays ho hbest ht hle
  have hcost : t.cost = s.cost := by rw [ht.cost_eq, hvalues, hs.cost_eq]
  obtain ⟨ends, hends, hprogress⟩ := check_of_pos (.ofParameters o.parameters) hpos t.cost
    o.parameters.verbosity.level
  -- no progress has been made, so no threshold above zero has been passed
  have htrue : ends = true := by
    by_contra hfalse
    obtain ⟨-, -, habsolute, hrelative⟩ := hprogress (Bool.eq_false_iff.mpr hfalse)
    rw [hcost, sub_self] at habsolute hrelative
    rcases hthreshold with h | h
    · exact absurd habsolute (not_le.mpr h)
    · exact absurd hrelative (not_le.mpr (mul_pos h hpos))
  subst htrue
  obtain ⟨u, htells, hloop⟩ := loop_round hround hends left
  exact ⟨u, hloop, htells.quiet.values_eq.trans hvalues, htells.quiet.iterations_eq.trans hcount⟩

/-- **An undamped loop returns the minimum** after at most two rounds, if the backend has steps for both
    of their problems. -/
theorem Exact.run_settles (ho : o.Exact order terms) (hquadratic : o.graph.IsQuadratic)
    (hs : o.Descending order terms s) (hlinear : o.graph.linearize s.values = .ok linear)
    (hanswer : (s.memory.solve linear).result = .ok d) (hretract : s.values.retract d = .ok best)
    (hlinear' : o.graph.linearize best = .ok linear')
    (hanswer' : ((s.memory.solve linear).memory.solve linear').result = .ok d')
    (hsum : 0 ≤ o.parameters.sumError) (hnot : o.parameters.sumError < s.cost)
    (hmax : 2 ≤ o.parameters.maxIterations)
    (hthreshold : 0 < o.parameters.absoluteDecrease ∨ 0 < o.parameters.relativeDecrease) :
    ∃ result, (o.gaussNewton.run s).1 = .ok result ∧ result.values = best ∧
      result.termination = .converged ∧ result.iterations ≤ s.iterations + 2 := by
  obtain ⟨left, hleft⟩ := Nat.exists_eq_add_of_le' hmax
  have hopened := o.opened_tells .gaussNewton s
  have hquiet := hopened.quiet
  have hs₀ := hs.tells hopened
  rw [← hopened.memory_eq] at hanswer hanswer'
  rw [← hquiet.values_eq] at hlinear hretract
  rw [← hquiet.cost_eq] at hnot
  -- the first round reaches the minimum
  obtain ⟨w, t, hmoved, hround, ht, hvalues, hmemory, hcount, -⟩ :=
    ho.round_accepts .gaussNewton hs₀ hlinear hanswer
  rw [hretract, Except.ok.injEq] at hmoved
  subst hmoved
  obtain ⟨ends, hends, hprogress⟩ := check_of_pos (.ofParameters o.parameters) (hsum.trans_lt hnot)
    t.cost o.parameters.verbosity.level
  obtain ⟨u, htells, hloop⟩ := loop_round hround hends (left + 1)
  have hrun : o.gaussNewton.run s = _ := (o.run_method .gaussNewton s).trans
    (by rw [if_neg (not_le.mpr (hquiet.cost_eq ▸ hnot)), hleft, hloop])
  cases ends with
  | true =>
    refine ⟨_, by rw [hrun]; rfl, htells.quiet.values_eq.trans hvalues, rfl, ?_⟩
    show u.iterations ≤ _
    rw [htells.quiet.iterations_eq, hcount, hquiet.iterations_eq]
    omega
  | false =>
    have hbest := ho.isMinimizedBy hquadratic hs₀ hlinear hanswer hretract
    have hvalues' : u.values = best := htells.quiet.values_eq.trans hvalues
    have hmemory' : u.memory = _ := htells.memory_eq.trans hmemory
    have hpos : 0 < u.cost := by
      rw [htells.quiet.cost_eq]
      exact hsum.trans_lt (hprogress rfl).unsolved
    obtain ⟨t', hloop', hrest, hcount'⟩ := ho.loop_rests (ht.tells htells) (hvalues' ▸ hbest)
      (hvalues' ▸ hlinear') (hmemory' ▸ hanswer') hpos hthreshold left
    refine ⟨_, by rw [hrun]; exact congrArg Prod.fst hloop', hrest.trans hvalues', rfl, ?_⟩
    show t'.iterations ≤ _
    rw [hcount', htells.quiet.iterations_eq, hcount, hquiet.iterations_eq]

end Loops

/-! ### From the beginning -/

variable {graph : Graph ℝ} {values : Values ℝ} {order : EliminationOrder} {kind : SolverKind}
  {backend : Backend ℝ} {parameters : Parameters ℝ} {o : Optimizer (Backend ℝ) ℝ}
  {s : OptimizerState (Backend ℝ) ℝ}

/-- **One undamped step solves an affine graph without robust losses.**  Around every estimate of the
    sizes the linear problem costs at each step that can be added, and that lists the variables of the
    graph, what the graph costs at the moved estimate.  If the backend
    has a step for the first problem, then the first iteration leads to the only estimate of least cost,
    and no later call moves away from it; if it has one for the next problem as well, and the first cost is
    above the bound, then the undamped loop returns this estimate, converged after two rounds at most. -/
theorem affine_minimizes (hkeys : values.keys.Nodup) (horder : order.keys.Nodup)
    (hbackend : Backend.ofElimination kind values order = .ok backend)
    (haffine : graph.IsAffine values.dims) (hquadratic : graph.IsQuadratic)
    (hstart : start graph values order Backend.solver backend parameters = .ok (o, s)) :
    (∀ v : Values ℝ, v.dims = values.dims → ∃ linear, graph.linearize v = .ok linear ∧
      ∀ d w, v.retract d = .ok w →
        ((∃ c, linear.cost d = .ok c) ↔ ∀ key ∈ graph.keys, key ∈ d.keys) ∧
        ∀ c, linear.cost d = .ok c → graph.cost w = .ok c) ∧
    ∃ linear, graph.linearize values = .ok linear ∧ ∀ d, (backend.solve linear).result = .ok d →
      ∃ t, o.iterate.run s = (.ok d, t) ∧ graph.IsMinimizedBy values.dims t.values ∧
        (∀ calls : List (Call ℝ), (∀ call ∈ calls, call.IsOwn) →
          (o.after t calls).values = t.values) ∧
        ∃ linear', graph.linearize t.values = .ok linear' ∧
          ∀ d', (t.memory.solve linear').result = .ok d' → 0 ≤ parameters.sumError →
            parameters.sumError < s.cost → 2 ≤ parameters.maxIterations →
            0 < parameters.absoluteDecrease ∨ 0 < parameters.relativeDecrease →
            ∃ result, (o.gaussNewton.run s).1 = .ok result ∧ result.values = t.values ∧
              result.termination = .converged ∧ result.iterations ≤ 2 := by
  obtain ⟨terms, ho, hs⟩ := start_exact hkeys horder hbackend haffine hquadratic.hasProperLosses hstart
  obtain ⟨rfl, -, hinitial⟩ := start_eq_ok hstart
  refine ⟨fun v hv => ho.follows.linear_cost_eq hquadratic hv, ?_⟩
  have hvalues : s.values = values := congrArg OptimizerState.values hinitial
  have hmemory : s.memory = backend := congrArg OptimizerState.memory hinitial
  have hcount : s.iterations = 0 := congrArg OptimizerState.iterations hinitial
  obtain ⟨linear, hlinear, -⟩ := ho.follows.linearize_eq ho.proper hs.sized
  refine ⟨linear, hvalues ▸ hlinear, fun d hd => ?_⟩
  rw [← hmemory] at hd
  obtain ⟨step, hleads, hdescent⟩ := ho.descent .gaussNewton hs hlinear hd
  obtain ⟨t, hrun, htells⟩ := iterate_answered hlinear (hs.exact.accepting _) hd hleads
  have ht : Descending _ order terms t :=
    (hs.stepped .gaussNewton ho.solver_eq hdescent).tells htells
  have hreached : t.values = step.1 := htells.quiet.values_eq
  have hbest := ho.isMinimizedBy hquadratic hs hlinear hd hleads.moved
  obtain ⟨linear', hlinear', -⟩ := ho.follows.linearize_eq ho.proper ht.sized
  refine ⟨t, hrun, hreached ▸ hbest, fun calls hcalls => ht.after_stays ho (hreached ▸ hbest) hcalls,
    linear', hlinear', fun d' hd' hsum hnot hmax hthreshold => ?_⟩
  rw [htells.memory_eq] at hd'
  obtain ⟨result, hresult, hvalues, htermination, hiterations⟩ := ho.run_settles hquadratic hs hlinear
    hd hleads.moved (hreached ▸ hlinear') hd' hsum hnot hmax hthreshold
  rw [hcount, zero_add] at hiterations
  exact ⟨result, hresult, hvalues.trans hreached.symm, htermination, hiterations⟩

end Optimizer

namespace Anchor

theorem isAffine_graph : graph.IsAffine (estimate 1).dims :=
  List.forall_mem_singleton.mpr ⟨_, _, Measurement.affineAs_prior rfl⟩

theorem isQuadratic_graph : graph.IsQuadratic :=
  List.forall_mem_singleton.mpr fun noise hnoise => by cases hnoise; rfl

end Anchor

namespace Optimizer

/-- The held number is brought to zero, and a loop returns it. -/
theorem affine_minimizes_anchor :
    let s := Anchor.begun (.sequential Anchor.sequential) []
    Anchor.graph.IsAffine (Anchor.estimate 1).dims ∧ Anchor.graph.IsQuadratic ∧
    start Anchor.graph (Anchor.estimate 1) Anchor.order Backend.solver (.sequential Anchor.sequential)
      Parameters.standard = .ok (Anchor.eliminating, s) ∧
    Anchor.graph.IsMinimizedBy (Anchor.estimate 1).dims (Anchor.estimate 0) ∧
    ∃ result, (Anchor.eliminating.gaussNewton.run s).1 = .ok result ∧
      result.values = Anchor.estimate 0 ∧ result.termination = .converged ∧ result.iterations ≤ 2 := by
  intro s
  have haffine := Anchor.isAffine_graph
  have hquadratic := Anchor.isQuadratic_graph
  have hkeys : (Anchor.estimate 1).keys.Nodup := List.nodup_singleton _
  have horder : Anchor.order.keys.Nodup := List.nodup_singleton _
  have hstart := Anchor.start_begun (.sequential Anchor.sequential)
  have hbackend : Backend.ofElimination .sequential (Anchor.estimate 1) Anchor.order =
      .ok (.sequential Anchor.sequential) := rfl
  obtain ⟨-, linear, hlinear, hanswered⟩ :=
    affine_minimizes hkeys horder hbackend haffine hquadratic hstart
  rw [Anchor.linearize_eq, Except.ok.injEq] at hlinear
  subst hlinear
  obtain ⟨t, hrun, hbest, -, linear', hlinear', hloop⟩ := hanswered _ Anchor.sequential_solve
  have hsolve : (Backend.solve (.sequential Anchor.sequential) Anchor.linear).result =
      .ok Anchor.step := Anchor.sequential_solve
  obtain ⟨later, hiterate⟩ := Anchor.iterate_eq hsolve []
  obtain rfl : t = _ := congrArg Prod.snd (hrun.symm.trans hiterate)
  rw [Anchor.linearize_estimate, Except.ok.injEq] at hlinear'
  subst hlinear'
  obtain ⟨⟨net, hnet⟩, -⟩ := Anchor.sequential.solve_kept Anchor.linear
  have hanswer : (Backend.solve (.sequential (Anchor.sequential.solve Anchor.linear).memory)
      ⟨[Elimination.equation (.number 0) 1 (-0)]⟩).result = .ok ⟨[(.number 0, [-0 / 1])]⟩ := by
    rw [hnet]
    exact Anchor.sequential_answers net (by norm_num)
  refine ⟨haffine, hquadratic, hstart, hbest, hloop _ hanswer ?_ ?_ ?_ ?_⟩
  all_goals norm_num [Parameters.standard, s, Anchor.begun]

end Optimizer

end LeastSquares
