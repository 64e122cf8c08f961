/-
  LeastSquares/Proofs/FrontElimination.lean
  =========================================
  **No factor is lost, used twice or looked up in vain.**

  An elimination of a solver that has been used before is a run over the fronts of the problem.  It
  takes every factor once, at a front that comes later than the one that left it, and its tree is
  solved from the roots down with every variable known when it is needed.
-/
import LeastSquares.Proofs.DenseElimination
import LeastSquares.Proofs.FactorFlow

namespace LeastSquares

open FrontForest BayesTree

variable {α : Type} [Scalar α] {order : EliminationOrder} {dims : Table ℕ} {g : LinearGraph α}

/-! ### What a run uses, and in which order its tree is solved -/

/-- Every factor of the problem that has variables, and every factor that an elimination leaves, is
    taken by exactly one elimination, which is that of a later front than the one that left it. -/
structure FlowsOnce (g : LinearGraph α) (fronts : List Front) (dims position : Table ℕ)
    (calls : List (Call α)) : Prop where
  fronts_eq : calls.map (·.front) = List.range fronts.length
  sound : ∀ call ∈ calls, ∃ front, call.Sound fronts dims position front
  once : ((calls.flatMap (·.consumed)).map Parcel.tagged).Perm
    (g.given ++ (calls.flatMap (·.sent)).map Parcel.tagged)
  distinct : ((calls.flatMap (·.consumed)).map (·.origin)).Nodup
  later : ∀ call ∈ calls, ∀ p ∈ call.sent, ∃ next ∈ calls, call.front < next.front ∧
    p ∈ next.consumed

theorem BayesTree.Run.flowsOnce {table : Table (List Key)} {forest : FrontForest}
    (h : IsSupernodal order g table forest) {pending : List (Parcel α)} {calls : List (Call α)}
    (hrun : Run dims order.positions forest.frontOf forest.fronts.length 0 forest.fronts pending calls)
    (hbelongs : ∀ p ∈ pending, Belongs forest p.front p.factor)
    (htagged : pending.map Parcel.tagged = g.given) :
    FlowsOnce g forest.fronts dims order.positions calls := by
  obtain ⟨-, hsound⟩ := hrun.sound h (List.prefix_refl _) hbelongs
  have hperm := hrun.consumed_perm_all h hbelongs
  have hgiven : pending.map (·.origin) = g.given.map (·.1) := by
    rw [← htagged, List.map_map]
    rfl
  refine ⟨by rw [hrun.map_front, List.range_eq_range'], hsound, ?_, ?_, ?_⟩
  · rw [← htagged, ← List.map_append]
    exact hperm.map _
  · rw [(hperm.map _).nodup_iff, List.map_append, hgiven, List.nodup_append]
    have hinjective : Function.Injective Origin.left := fun a b h => by cases h; rfl
    have hleft := hrun.sublist_origins
    refine ⟨g.nodup_given, hleft.nodup ((List.nodup_range' ..).map hinjective), ?_⟩
    intro a ha b hb
    obtain ⟨place, -, rfl⟩ := List.mem_map.mp (hleft.subset hb)
    obtain ⟨e, he, rfl⟩ := List.mem_map.mp ha
    obtain ⟨entry, -, rfl⟩ := List.mem_map.mp he
    exact Origin.noConfusion
  · intro call hcall p hp
    have hmem : p ∈ calls.flatMap (·.consumed) := hperm.mem_iff.mpr
      (List.mem_append_right _ (List.mem_flatMap.mpr ⟨call, hcall, hp⟩))
    obtain ⟨next, hnext, hconsumed⟩ := List.mem_flatMap.mp hmem
    obtain ⟨front, hfront⟩ := hsound call hcall
    obtain ⟨nextFront, hnextFront⟩ := hsound next hnext
    refine ⟨next, hnext, ?_, hconsumed⟩
    rw [← hnextFront.consumed_here p hconsumed]
    exact (hfront.sent_later p hp).2

/-- Solving a tree visits every front once, finds every variable that a conditional needs already
    solved, and writes every ordered variable once.  It fails only where an entry is not finite or
    shapes do not fit. -/
structure SolvesOnce (order : EliminationOrder) (t : BayesTree α) : Prop where
  optimize_eq : t.optimize =
    t.schedule.foldlM (fun (d : Delta α) (c : Conditional α) => c.solve d) Delta.empty
  visited : t.solved.Perm (List.range t.fronts.length)
  stored : (t.schedule.map some).Perm t.conditionals
  known : ∀ before c after d, t.schedule = before ++ c :: after →
    before.foldlM (fun (d : Delta α) (c : Conditional α) => c.solve d) Delta.empty = .ok d →
      (∀ key ∈ c.separator, key ∈ d.keys) ∧ ∀ key ∈ c.frontals, key ∉ d.keys
  written : (t.schedule.flatMap (·.frontals)).Perm order.keys
  keys_eq : ∀ d, t.optimize = .ok d → d.keys = t.schedule.flatMap (·.frontals)
  error_eq : ∀ e, t.optimize = .error e → e = .notFinite ∨ e = .shapeMismatch

theorem FrontForest.IsSupernodal.solvesOnce {table : Table (List Key)} {forest : FrontForest}
    (h : IsSupernodal order g table forest) (hnodup : order.keys.Nodup) {cs : List (Conditional α)}
    (hcs : Conform forest.fronts cs) (hlength : cs.length = forest.fronts.length)
    (hsized : ∀ c ∈ cs, ∀ key ∈ c.frontals, ∃ n, c.dims.get? key = some n) {t : BayesTree α}
    (hfronts : t.fronts = forest.fronts) (hconditionals : t.conditionals = cs.map some) :
    SolvesOnce order t := by
  obtain ⟨hoptimize, hsolved, hperm, hscheduled⟩ := optimize_spec h hcs hlength hfronts hconditionals
  have hkeys : (t.schedule.flatMap (·.frontals)).Nodup := by
    simpa using hscheduled.nodup List.nodup_nil
  have hsizedSchedule : ∀ c ∈ t.schedule, ∀ key ∈ c.frontals, ∃ n, c.dims.get? key = some n :=
    fun c hc => hsized c (hperm.subset hc)
  have hnone : (Delta.empty : Delta α).keys = [] := rfl
  obtain ⟨hok, herror⟩ := hscheduled.solve_outcome hsizedSchedule hnone
  rw [← hoptimize, List.nil_append] at hok
  rw [← hoptimize] at herror
  refine ⟨hoptimize, hsolved, hconditionals ▸ hperm.map some, ?_, ?_, hok, herror⟩
  · intro before c after d hsplit hd
    rw [hsplit] at hscheduled hsizedSchedule
    obtain ⟨hbefore, hafter⟩ := hscheduled.of_append
    obtain ⟨hokBefore, -⟩ := hbefore.solve_outcome
      (fun c hc => hsizedSchedule c (List.mem_append_left _ hc)) hnone
    rw [hokBefore d hd]
    cases hafter with
    | cons _ hnew hseparator _ => exact ⟨hseparator, hnew⟩
  · refine (List.perm_ext_iff_of_nodup hkeys hnodup).mpr fun key => ?_
    rw [(hperm.flatMap_right _).mem_iff]
    exact hcs.mem_flatMap_iff h hlength key

namespace MultifrontalSolver

variable {s : MultifrontalSolver α}

theorem eliminate_eq (hs : s.Coherent) {forest : FrontForest}
    (hforest : ofGraph s.order g = .ok forest) {pending : List (ℕ × LinearFactor α)}
    (hassign : assign s.order.positions forest.frontOf forest.fronts.length g = .ok pending)
    {found : List (Conditional α)} {failure : Option Error}
    (hfound : eliminateFronts s.dims s.order.positions forest.frontOf forest.fronts.length 0
      forest.fronts pending = (found, failure)) :
    (s.eliminate g).memory.frontOf = forest.frontOf ∧
      (∀ e, failure = some e → (s.eliminate g).result = .error e) ∧
      (failure = none → found.length = forest.fronts.length →
        (s.eliminate g).result = .ok ⟨forest.fronts, found.map some⟩) := by
  obtain ⟨horder, hdims, ⟨-, hfilled⟩, hprepared⟩ := prepare_spec hs g
  obtain ⟨hresult, rfl⟩ := hprepared _ hforest
  rw [← horder] at hassign
  rw [← horder, ← hdims] at hfound
  simp only [eliminate, hresult, hassign, hfound]
  cases failure with
  | some e => exact ⟨rfl, fun e' he => (by cases he; rfl), fun h => (by cases h)⟩
  | none =>
    refine ⟨rfl, fun e he => (by cases he), fun _ hlength => ?_⟩
    rw [hlength, ← hfilled, List.drop_length, List.append_nil]

/-- **An elimination is a run over the fronts of the problem**, or stops at one of them. -/
theorem eliminate_cases (hs : s.Coherent) (hnodup : s.order.keys.Nodup)
    (hlisted : ∀ f ∈ g.factors, ∀ key ∈ f.keys, key ∈ s.order.keys) :
    ∃ table forest pending, IsSupernodal s.order g table forest ∧
      (s.eliminate g).memory.frontOf = forest.frontOf ∧
      assign s.order.positions forest.frontOf forest.fronts.length g =
        .ok (pending.map Parcel.waiting) ∧
      pending.map Parcel.tagged = g.given ∧ (∀ p ∈ pending, Belongs forest p.front p.factor) ∧
      ((∃ calls, Run s.dims s.order.positions forest.frontOf forest.fronts.length 0 forest.fronts
          pending calls ∧
          (s.eliminate g).result = .ok ⟨forest.fronts, (calls.map (·.conditional)).map some⟩) ∨
        ∃ done front left calls e, done ++ front :: left = forest.fronts ∧
          Run s.dims s.order.positions forest.frontOf forest.fronts.length 0 done pending calls ∧
          (s.eliminate g).result = .error e ∧
          Stops s.dims s.order.positions forest.frontOf forest.fronts.length
            (((pending ++ calls.flatMap (·.sent)).filter fun p => p.front = calls.length).map
              (·.factor)) front e) := by
  obtain ⟨table, -, hforest, hspec⟩ := ofGraph_isSupernodal hnodup hlisted
  obtain ⟨forest, hsame⟩ : ∃ forest, forest = ofSeparators s.order table := ⟨_, rfl⟩
  rw [← hsame] at hforest hspec
  obtain ⟨pending, hassign, htagged, hbelongs⟩ := BayesTree.assign_eq_ok hspec hlisted
  obtain ⟨done, left, calls, hfronts, hrun, ⟨hleft, hfound⟩ | ⟨front, rest, found, e, hleft, hfound,
    hstops⟩⟩ := eliminateFronts_cases s.dims s.order.positions forest.frontOf forest.fronts.length 0
    forest.fronts pending
  · obtain ⟨hfrontOf, -, hok⟩ := eliminate_eq hs hforest hassign hfound
    rw [hleft, List.append_nil] at hfronts
    subst hfronts
    refine ⟨table, forest, pending, hspec, hfrontOf, hassign, htagged, hbelongs, .inl ⟨calls, hrun,
      hok rfl ?_⟩⟩
    rw [List.length_map, hrun.length_calls]
  · obtain ⟨hfrontOf, herror, -⟩ := eliminate_eq hs hforest hassign hfound
    rw [Nat.zero_add] at hstops
    exact ⟨table, forest, pending, hspec, hfrontOf, hassign, htagged, hbelongs, .inr ⟨done, front, rest,
      calls, e, hleft ▸ hfronts, hrun, herror e rfl, hstops⟩⟩

end MultifrontalSolver

/-! ### Three numbers -/

namespace Meeting

open Elimination

/-- The first two numbers meet in the third. -/
def forest : FrontForest :=
  ⟨[⟨[.number 0], [.number 2], some 2, []⟩, ⟨[.number 1], [.number 2], some 2, []⟩,
    ⟨[.number 2], [], none, [0, 1]⟩], [(.number 0, 0), (.number 1, 1), (.number 2, 2)]⟩

/-- The solver of the three numbers before its first problem. -/
def solver : MultifrontalSolver ℝ := ⟨inTurn, sizes, none, ⟨[], []⟩, [], none⟩

theorem solver_eliminate : ∃ t, (solver.eliminate problem).result = .ok t ∧
    t.fronts = forest.fronts := by
  have hforest : ofGraph solver.order problem = .ok forest := rfl
  have hassign : assign solver.order.positions forest.frontOf forest.fronts.length problem =
      .ok [(0, first), (1, second)] := rfl
  have hdim : sizes.get? (.number 2) = some 1 := rfl
  have hpivot : (1e-9 : ℝ) * max 1 (max |2| |4|) < |2| := by norm_num
  have hthird := eliminate_equation hdim inTurn.positions hpivot
  have hroute : routeUpdate [(.number 0, 0), (.number 1, 1), (.number 2, 2)] 3
      (some (equation (.number 2) 2 4)) = .ok [(2, equation (.number 2) 2 4)] := rfl
  have hnone : routeUpdate (α := ℝ) [(.number 0, 0), (.number 1, 1), (.number 2, 2)] 3 none =
      .ok [] := rfl
  obtain ⟨found, hfound, hlength⟩ : ∃ found, eliminateFronts solver.dims solver.order.positions
      forest.frontOf forest.fronts.length 0 forest.fronts [(0, first), (1, second)] =
        (found, none) ∧ found.length = forest.fronts.length := by
    simp [solver, forest, eliminateFronts, eliminate_first, eliminate_second, hroute, hnone,
      hthird]
  have hcoherent : solver.Coherent := MultifrontalSolver.Reachable.fresh.coherent.2.2
  obtain ⟨-, -, hresult⟩ := MultifrontalSolver.eliminate_eq hcoherent hforest hassign hfound
  exact ⟨_, hresult rfl hlength, rfl⟩

end Meeting

namespace MultifrontalSolver

variable {s : MultifrontalSolver α}

/-- **No factor is lost, used twice or looked up in vain.**  An elimination that returns is a run
    over the fronts in which every factor that has variables, given or left, is taken once, by a
    later front than the one that left it; and solving its tree visits every front once, with every
    variable known when it is needed, and writes every ordered variable once. -/
theorem eliminate_uses_once (hs : Reachable order dims s) (hnodup : order.keys.Nodup)
    (hlisted : ∀ f ∈ g.factors, ∀ key ∈ f.keys, key ∈ order.keys) {t : BayesTree α}
    (ht : (s.eliminate g).result = .ok t) :
    (∃ pending calls, assign order.positions (s.eliminate g).memory.frontOf t.fronts.length g =
        .ok (pending.map Parcel.waiting) ∧
      Run dims order.positions (s.eliminate g).memory.frontOf t.fronts.length 0 t.fronts pending calls ∧
      t.conditionals = (calls.map (·.conditional)).map some ∧
      FlowsOnce g t.fronts dims order.positions calls) ∧
    SolvesOnce order t := by
  obtain ⟨rfl, rfl, hcoherent⟩ := hs.coherent
  obtain ⟨table, forest, pending, hspec, hfrontOf, hassign, htagged, hbelongs, ⟨calls, hrun, hresult⟩ |
    ⟨_, _, _, _, e, -, -, hresult, -⟩⟩ := eliminate_cases hcoherent hnodup hlisted
  · rw [ht, Except.ok.injEq] at hresult
    subst hresult
    rw [hfrontOf]
    have hflows := hrun.flowsOnce hspec hbelongs htagged
    refine ⟨⟨pending, calls, hassign, hrun, rfl, hflows⟩, ?_⟩
    have hlength : (calls.map (·.conditional)).length = forest.fronts.length := by
      rw [List.length_map, hrun.length_calls]
    refine hspec.solvesOnce hnodup (hrun.conform hspec hbelongs) hlength ?_ rfl rfl
    intro c hc
    obtain ⟨call, hcall, rfl⟩ := List.mem_map.mp hc
    obtain ⟨front, hsound⟩ := hflows.sound call hcall
    obtain ⟨update, heliminate, -⟩ := hsound.eliminated
    exact Elimination.eliminate_sized heliminate
  · rw [ht] at hresult
    cases hresult

/-- Of three numbers, the first sends what is left of its equations to the third, and nothing is left
    of the equation of the second. -/
theorem meeting_uses_once : ∃ t calls, (Meeting.solver.eliminate Meeting.problem).result = .ok t ∧
    t.fronts = Meeting.forest.fronts ∧ t.conditionals = (calls.map (·.conditional)).map some ∧
    FlowsOnce Meeting.problem t.fronts Meeting.sizes Meeting.inTurn.positions calls ∧
    SolvesOnce Meeting.inTurn t := by
  obtain ⟨t, ht, hfronts⟩ := Meeting.solver_eliminate
  have hlisted : ∀ f ∈ Meeting.problem.factors, ∀ key ∈ f.keys, key ∈ Meeting.inTurn.keys := by
    decide
  obtain ⟨⟨pending, calls, -, -, hconditionals, hflows⟩, hsolves⟩ :=
    eliminate_uses_once .fresh (by decide) hlisted ht
  exact ⟨t, calls, ht, hfronts, hconditionals, hflows, hsolves⟩

end MultifrontalSolver

end LeastSquares
