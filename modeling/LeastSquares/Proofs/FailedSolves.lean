/-
  LeastSquares/Proofs/FailedSolves.lean
  =====================================
  **What a failed solve leaves of the last factorization.**

  A solve fails only at an elimination, so a solver that eliminates one variable after another still has
  the conditionals of the last solve that succeeded.  A solver that eliminates fronts has them too when
  it looks for new fronts, or when no front is eliminated.  But when the problem has the structure of the
  last one, the fronts of the last tree are the ones that are worked on: the conditionals of the fronts
  before the one that fails are replaced, and those from there on stay.
-/
import LeastSquares.Proofs.FittedFactors
import LeastSquares.Proofs.StructureQueries

namespace LeastSquares

variable {α : Type}

/-! ### Where an elimination stops -/

namespace BayesTree

section Stop

variable [Scalar α] {dims position frontOf : Table ℕ} {count index : ℕ}

/-- A run that stops at a front that cannot be eliminated has found the conditionals of the fronts before
    it. -/
theorem Run.eliminateFronts_eq {done : List Front} {pending : List (Parcel α)} {calls : List (Call α)}
    (hrun : Run dims position frontOf count index done pending calls) (front : Front)
    (left : List Front) {e : Error}
    (h : Elimination.eliminate (((pending ++ calls.flatMap (·.sent)).filter fun p =>
      p.front = index + calls.length).map (·.factor)) front.frontals dims position = .error e) :
    eliminateFronts dims position frontOf count index (done ++ front :: left)
      (pending.map Parcel.waiting) = (calls.map (·.conditional), some e) := by
  induction hrun with
  | nil index pending =>
    have hhere : Elimination.eliminate (((pending.map Parcel.waiting).filter fun entry =>
        entry.1 = index).map (·.2)) front.frontals dims position = .error e := by
      simpa [mine_eq] using h
    simp [eliminateFronts, hhere]
  | @cons index first done pending call update calls hfront hconsumed heliminate hroute horigin hrest ih =>
    rw [hconsumed, ← mine_eq] at heliminate
    have hindex : index + (call :: calls).length = index + 1 + calls.length := by
      rw [List.length_cons, Nat.add_right_comm, Nat.add_assoc]
    rw [List.flatMap_cons, ← List.append_assoc, hindex] at h
    have hnext := ih h
    rw [List.map_append] at hnext
    rw [List.cons_append, eliminateFronts]
    simp only [heliminate, hroute, hnext, List.map_cons]

end Stop

variable {order : EliminationOrder} {dims : Table ℕ} {g : LinearGraph ℝ}

open FrontForest in
/-- **An elimination fails at one front**, and has found the conditionals of those before it. -/
theorem found_of_error (hnodup : order.keys.Nodup) {forest : FrontForest}
    (hforest : FrontForest.ofGraph order g = .ok forest) {e : Error}
    (h : ofGraph order dims g = .error e) :
    ∃ (front : Front) (factors : List (LinearFactor ℝ)),
      forest.fronts[(found order dims g).length]? = some front ∧
      Elimination.eliminate factors front.frontals dims order.positions = .error e := by
  have hlisted := listed_of_ofGraph hforest
  obtain ⟨table, -, hspecified, hspec⟩ := ofGraph_isSupernodal hnodup hlisted
  rw [hforest, Except.ok.injEq] at hspecified
  rw [← hspecified] at hspec
  obtain ⟨pending, hassign, -, hbelongs⟩ := assign_eq_ok hspec hlisted
  rw [ofGraph, hforest] at h
  simp only [bind, Except.bind, hassign] at h
  obtain ⟨done, left, calls, hfronts, hrun, ⟨hleft, hfound⟩ | ⟨front, rest, cs, e', rfl, hfound,
    hstops⟩⟩ := eliminateFronts_cases dims order.positions forest.frontOf forest.fronts.length 0
    forest.fronts pending
  · rw [hfound] at h
    cases h
  · rw [hfound] at h
    cases h
    have hfront : forest.fronts[calls.length]? = some front := by
      rw [← hfronts, hrun.length_calls]
      simp
    obtain ⟨hall, -⟩ := hrun.sound hspec ⟨front :: rest, hfronts⟩ hbelongs
    have hmine := keys_of_belongs hfront hall
    rw [Nat.zero_add] at hstops
    have herror := hspec.error_of_stops hfront hmine hstops
    have hrest := hrun.eliminateFronts_eq front rest (by rwa [Nat.zero_add])
    rw [hfronts] at hrest
    refine ⟨front, _, ?_, herror⟩
    rw [found_eq hforest hassign, hrest, List.length_map]
    exact hfront

end BayesTree

/-! ### The tree that is left -/

namespace MultifrontalSolver

section Memory

variable {s : MultifrontalSolver α} {g : LinearGraph α}

/-- The problem is eliminated along the fronts of the last tree. -/
def Reworks (s : MultifrontalSolver α) (g : LinearGraph α) : Prop :=
  s.last = some .working ∧ s.structureKey = some g.structureKey

/-- What is worked on is seen in the last tree only when it is the last tree. -/
theorem lastTree_of_ne (h : s.last ≠ some .working) (tree : BayesTree α) :
    lastTree? { s with tree := tree } = s.lastTree? := by
  unfold lastTree?
  cases hlast : s.last with
  | none => rfl
  | some last =>
    cases last with
    | working => exact (h hlast).elim
    | kept kept => rfl

/-- A last tree that is kept beside the one that is worked on is the last tree whatever happens to
    that one. -/
theorem lastTree_of_kept {t : MultifrontalSolver α} (h : s.last = t.lastTree?.map .kept)
    (tree : BayesTree α) : lastTree? { s with tree := tree } = t.lastTree? := by
  have hkept : s.last ≠ some .working := by
    rw [h]
    cases t.lastTree? <;> simp
  rw [lastTree_of_ne hkept, lastTree?, h, Option.map_map]
  cases t.lastTree? <;> rfl

variable [Scalar α]

/-- **An elimination along other fronts leaves the last tree as it is**, and so does one that finds no
    conditional. -/
theorem eliminate_lastTree_of_not_reworks (hs : s.Coherent)
    (h : ¬ s.Reworks g ∨ BayesTree.found s.order s.dims g = []) :
    (s.eliminate g).memory.lastTree? = s.lastTree? := by
  rw [eliminate_memory_eq hs]
  by_cases hkey : s.structureKey = some g.structureKey
  · rw [prepare_of_eq hkey]
    rcases h with hnot | hnone
    · exact lastTree_of_ne (fun hworking => hnot ⟨hworking, hkey⟩) _
    · rw [hnone]
      rfl
  · cases hforest : FrontForest.ofGraph s.order g with
    | error e =>
      have hprepared : (s.prepare g).memory = s := by
        simp only [prepare, if_neg hkey, symbolic, hforest]
      have hnone : BayesTree.found s.order s.dims g = [] := by rw [BayesTree.found, hforest]
      rw [hprepared, hnone]
      rfl
    | ok forest =>
      -- fronts have been made anew, and the last tree keeps its own
      rw [prepare_of_ne hkey hforest]
      exact lastTree_of_kept rfl _

/-- **An elimination along the fronts of the last tree replaces the conditionals that it finds** in that
    tree. -/
theorem eliminate_lastTree_of_reworks (hs : s.Coherent) (h : s.Reworks g) :
    (s.eliminate g).memory.lastTree? = some ⟨s.tree.fronts,
      (BayesTree.found s.order s.dims g).map some ++
        s.tree.conditionals.drop (BayesTree.found s.order s.dims g).length⟩ := by
  obtain ⟨hlast, hkey⟩ := h
  rw [eliminate_memory_eq hs, prepare_of_eq hkey]
  simp only [lastTree?, hlast, Option.map_some]

end Memory

/-! ### Failed solves -/

variable {s : MultifrontalSolver ℝ} {g : LinearGraph ℝ} {order : EliminationOrder} {dims : Table ℕ}

/-- A solve of a problem that can be built fails only at its elimination. -/
theorem eliminate_of_solve_error (hs : s.Coherent) (hnodup : s.order.keys.Nodup) (hg : g.IsBuilt)
    {e : Error} (h : (s.solve g).result = .error e) :
    (s.eliminate g).result = .error e ∧ (s.solve g).memory = (s.eliminate g).memory := by
  cases heliminate : (s.eliminate g).result with
  | ok tree =>
    obtain ⟨d, hd⟩ := solve_of_eliminate_built hs hnodup hg heliminate
    rw [h] at hd
    cases hd
  | error e' =>
    have hsolve : s.solve g = ⟨.error e', (s.eliminate g).memory, (s.eliminate g).reports⟩ := by
      simp only [solve, heliminate]
    rw [hsolve] at h ⊢
    cases h
    exact ⟨rfl, rfl⟩

end MultifrontalSolver

theorem SequentialSolver.memory_of_solve_error {order : EliminationOrder} {dims : Table ℕ}
    (hnodup : order.keys.Nodup) {g : LinearGraph ℝ} (hg : g.IsBuilt) {last : Option (BayesNet ℝ)}
    {e : Error} (h : (solve ⟨order, dims, last⟩ g).result = .error e) :
    (solve ⟨order, dims, last⟩ g).memory = ⟨order, dims, last⟩ := by
  cases heliminate : BayesNet.eliminate order dims g with
  | ok net =>
    obtain ⟨d, hd⟩ := solve_of_eliminate hnodup hg heliminate last
    rw [h] at hd
    cases hd
  | error e' => simp only [solve, heliminate]

/-- **What a failed solve leaves of the last factorization**, in every state that calls lead to.  A solver
    that eliminates one variable after another has the conditionals of the last solve that succeeded, as
    before.  So has one that eliminates fronts, unless the problem is eliminated along the fronts of the
    last tree and some of them before the failure: then one front could not be eliminated, the fronts of
    the last tree before it have the conditionals of the problem that failed, and that front and the later
    ones keep theirs. -/
theorem failed_solve_keeps {order : EliminationOrder} {dims : Table ℕ} (hnodup : order.keys.Nodup)
    {g : LinearGraph ℝ} (hg : g.IsBuilt) :
    (∀ last e, (SequentialSolver.solve ⟨order, dims, last⟩ g).result = .error e →
      (SequentialSolver.solve ⟨order, dims, last⟩ g).memory = ⟨order, dims, last⟩) ∧
    ∀ s : MultifrontalSolver ℝ, s.Reachable order dims → ∀ e, (s.solve g).result = .error e →
      (¬ s.Reworks g ∨ BayesTree.found order dims g = [] →
        (s.solve g).memory.lastTree? = s.lastTree?) ∧
      (s.Reworks g → ∃ (front : Front) (factors : List (LinearFactor ℝ)),
        s.tree.fronts[(BayesTree.found order dims g).length]? = some front ∧
        Elimination.eliminate factors front.frontals dims order.positions = .error e ∧
        (s.solve g).memory.lastTree? = some ⟨s.tree.fronts,
          (BayesTree.found order dims g).map some ++
            s.tree.conditionals.drop (BayesTree.found order dims g).length⟩) := by
  refine ⟨fun last e => SequentialSolver.memory_of_solve_error hnodup hg, fun s hs e h => ?_⟩
  obtain ⟨rfl, rfl, hcoherent⟩ := hs.coherent
  obtain ⟨heliminate, hmemory⟩ := MultifrontalSolver.eliminate_of_solve_error hcoherent hnodup hg h
  rw [hmemory]
  refine ⟨MultifrontalSolver.eliminate_lastTree_of_not_reworks hcoherent, fun hreworks => ?_⟩
  obtain ⟨g', hg', hforest⟩ := hcoherent.analysed _ hreworks.2
  rw [FrontForest.ofGraph_congr s.order hg'] at hforest
  rw [MultifrontalSolver.eliminate_result hcoherent] at heliminate
  obtain ⟨front, factors, hfront, herror⟩ := BayesTree.found_of_error hnodup hforest heliminate
  exact ⟨front, factors, hfront, herror, MultifrontalSolver.eliminate_lastTree_of_reworks hcoherent hreworks⟩

/-! ### Two numbers apart, the second lost -/

namespace JoinedAndApart

open Elimination

/-- The first number is to be five, and the second is in no equation. -/
def lost : LinearGraph ℝ := ⟨[equation (.number 0) 1 5, equation (.number 1) 0 0]⟩

theorem ofGraph_lost : FrontForest.ofGraph inTurn lost = .ok alone := rfl

/-- The conditional of a number that is to be equal to another. -/
def known (key : Key) (b : ℝ) : Conditional ℝ := ⟨[key], [], sizes, ⟨1, [[1]]⟩, ⟨0, [[]]⟩, [b]⟩

theorem eliminateFronts_alone (a b c : ℝ) (hb : |b| ≤ 5) :
    BayesTree.eliminateFronts sizes inTurn.positions alone.frontOf alone.fronts.length 0 alone.fronts
      [(0, equation (.number 0) 1 b), (1, equation (.number 1) a c)] =
      if |a| ≤ 1e-9 * max 1 (max |a| |c|) then
        ([known (.number 0) b], some (.indeterminate (.number 1)))
      else ([known (.number 0) b, ⟨[.number 1], [], sizes, ⟨1, [[a]]⟩, ⟨0, [[]]⟩, [c]⟩], none) := by
  have hpivot : (1e-9 : ℝ) * max 1 (max |1| |b|) < |1| := by
    have hgreatest : max 1 (max |(1 : ℝ)| |b|) ≤ 5 := max_le (by norm_num) (max_le (by norm_num) hb)
    calc (1e-9 : ℝ) * max 1 (max |1| |b|) ≤ 1e-9 * 5 := by gcongr
      _ < |1| := by norm_num
  have hsize : ∀ key ∈ [Key.number 0, .number 1], sizes.get? key = some 1 := by decide
  have hfirst := eliminate_equation (hsize (.number 0) (by simp)) inTurn.positions hpivot
  have hsecond := eliminate_equation_eq (hsize (.number 1) (by simp)) inTurn.positions a c
  by_cases hnone : |a| ≤ 1e-9 * max 1 (max |a| |c|)
  · rw [if_pos hnone] at hsecond ⊢
    simp [alone, BayesTree.eliminateFronts, BayesTree.routeUpdate, hfirst, hsecond, known]
  · rw [if_neg hnone] at hsecond ⊢
    simp [alone, BayesTree.eliminateFronts, BayesTree.routeUpdate, hfirst, hsecond, known]

theorem run_apart : BayesTree.eliminateFronts sizes inTurn.positions alone.frontOf alone.fronts.length 0
    alone.fronts [(0, equation (.number 0) 1 1), (1, equation (.number 1) 1 1)] =
      ([known (.number 0) 1, known (.number 1) 1], none) := by
  have hpivot : ¬ |(1 : ℝ)| ≤ 1e-9 * max 1 (max |1| |1|) := by norm_num
  rw [eliminateFronts_alone 1 1 1 (by norm_num), if_neg hpivot]
  rfl

theorem run_lost : BayesTree.eliminateFronts sizes inTurn.positions alone.frontOf alone.fronts.length 0
    alone.fronts [(0, equation (.number 0) 1 5), (1, equation (.number 1) 0 0)] =
      ([known (.number 0) 5], some (.indeterminate (.number 1))) := by
  have hpivot : |(0 : ℝ)| ≤ 1e-9 * max 1 (max |0| |0|) := by norm_num
  rw [eliminateFronts_alone 0 5 0 (by norm_num), if_pos hpivot]

theorem assign_apart : BayesTree.assign inTurn.positions alone.frontOf alone.fronts.length apart =
    .ok [(0, equation (.number 0) 1 1), (1, equation (.number 1) 1 1)] := rfl

theorem assign_lost : BayesTree.assign inTurn.positions alone.frontOf alone.fronts.length lost =
    .ok [(0, equation (.number 0) 1 5), (1, equation (.number 1) 0 0)] := rfl

theorem found_apart : BayesTree.found inTurn sizes apart =
    [known (.number 0) 1, known (.number 1) 1] := by
  rw [BayesTree.found_eq ofGraph_apart assign_apart, run_apart]

theorem found_lost : BayesTree.found inTurn sizes lost = [known (.number 0) 5] := by
  rw [BayesTree.found_eq ofGraph_lost assign_lost, run_lost]

/-- The solver after it has solved the numbers apart. -/
noncomputable def settled : MultifrontalSolver ℝ := (fresh.solve apart).memory

theorem reachable_settled : settled.Reachable inTurn sizes := .solve apart reachable_fresh

theorem fresh_eliminate : (fresh.eliminate apart).result =
    .ok ⟨alone.fronts, [some (known (.number 0) 1), some (known (.number 1) 1)]⟩ := by
  obtain ⟨-, -, hok⟩ := MultifrontalSolver.eliminate_eq reachable_fresh.coherent.2.2 ofGraph_apart
    assign_apart run_apart
  exact hok rfl rfl

theorem settled_eq : settled.tree = ⟨alone.fronts,
    [some (known (.number 0) 1), some (known (.number 1) 1)]⟩ ∧ settled.last = some .working ∧
      settled.structureKey = some lost.structureKey := by
  have hsettled : settled = { (fresh.eliminate apart).memory with last := some .working } := by
    simp only [settled, MultifrontalSolver.solve, fresh_eliminate]
  have hfound : BayesTree.found fresh.order fresh.dims apart = _ := found_apart
  rw [hsettled, MultifrontalSolver.eliminate_memory_eq reachable_fresh.coherent.2.2, hfound]
  exact ⟨rfl, rfl, rfl⟩

theorem solve_known (key : Key) (hkey : sizes.get? key = some 1) (b : ℝ) (d : Delta ℝ) :
    (known key b).solve d = .ok (d.write key [b]) := by
  have hfind := Table.find_eq_ok.mpr hkey
  simp [known, Conditional.solve, Triangular.solve, Triangular.solveFrom, Vec.isFinite_real, hfind,
    Conditional.writeBlocks, Vec.dot, Vec.sum_real, bind, Except.bind]

theorem optimize_known (a b : ℝ) :
    BayesTree.optimize ⟨alone.fronts, [some (known (.number 0) a), some (known (.number 1) b)]⟩ =
      .ok ⟨[(.number 1, [b]), (.number 0, [a])]⟩ := by
  have hfirst := solve_known (.number 0) rfl a
  have hsecond := solve_known (.number 1) rfl b
  simp [BayesTree.optimize, BayesTree.visit, BayesTree.roots, alone, itemAt, hfirst, hsecond, Delta.write,
    Delta.empty, Table.set, bind, Except.bind]

theorem settled_reworks : settled.Reworks lost := ⟨settled_eq.2.1, settled_eq.2.2⟩

theorem settled_eliminate : (settled.eliminate lost).result = .error (.indeterminate (.number 1)) := by
  obtain ⟨horder, hdims, hcoherent⟩ := reachable_settled.coherent
  obtain ⟨-, herror, -⟩ := MultifrontalSolver.eliminate_eq hcoherent (horder ▸ ofGraph_lost)
    (horder ▸ assign_lost) (horder ▸ hdims ▸ run_lost)
  exact herror _ rfl

theorem settled_solve : settled.solve lost = ⟨.error (.indeterminate (.number 1)),
    (settled.eliminate lost).memory, (settled.eliminate lost).reports⟩ := by
  simp only [MultifrontalSolver.solve, settled_eliminate]

/-- **A failed solve changes the solution of the last tree.**  The numbers apart are solved, and the last
    tree gives one for both.  Then the solve in which the second number is lost fails, and the last tree
    gives five for the first number. -/
theorem last_tree_changes : (∃ d, (fresh.solve apart).result = .ok d) ∧
    settled.lastTree?.map BayesTree.optimize = some (.ok ⟨[(.number 1, [1]), (.number 0, [1])]⟩) ∧
    (settled.solve lost).result = .error (.indeterminate (.number 1)) ∧
    (settled.solve lost).memory.lastTree?.map BayesTree.optimize =
      some (.ok ⟨[(.number 1, [1]), (.number 0, [5])]⟩) ∧
    (settled.solve lost).memory.lastTree?.map BayesTree.optimize ≠
      settled.lastTree?.map BayesTree.optimize := by
  obtain ⟨horder, hdims, hcoherent⟩ := reachable_settled.coherent
  have hbefore : settled.lastTree?.map BayesTree.optimize =
      some (.ok ⟨[(.number 1, [1]), (.number 0, [1])]⟩) := by
    rw [MultifrontalSolver.lastTree?, settled_eq.2.1, settled_eq.1]
    exact congrArg some (optimize_known 1 1)
  have hafter : (settled.solve lost).memory.lastTree?.map BayesTree.optimize =
      some (.ok ⟨[(.number 1, [1]), (.number 0, [5])]⟩) := by
    rw [settled_solve, MultifrontalSolver.eliminate_lastTree_of_reworks hcoherent settled_reworks, horder,
      hdims, found_lost, settled_eq.1]
    exact congrArg some (optimize_known 5 1)
  refine ⟨?_, hbefore, by rw [settled_solve], hafter, ?_⟩
  · refine ⟨⟨[(.number 0, [1]), (.number 1, [1])]⟩, ?_⟩
    simp only [MultifrontalSolver.solve, fresh_eliminate, optimize_known]
    rfl
  · rw [hbefore, hafter]
    simp

end JoinedAndApart

/-- After the solve in which the second number is lost, the first front of the last tree has the new
    conditional, and the second has the old one. -/
theorem failed_solve_keeps_second :
    JoinedAndApart.inTurn.keys.Nodup ∧ JoinedAndApart.lost.IsBuilt ∧
      JoinedAndApart.settled.Reachable JoinedAndApart.inTurn JoinedAndApart.sizes ∧
      (JoinedAndApart.settled.solve JoinedAndApart.lost).result = .error (.indeterminate (.number 1)) ∧
      JoinedAndApart.settled.Reworks JoinedAndApart.lost ∧
      (JoinedAndApart.settled.solve JoinedAndApart.lost).memory.lastTree? =
        some ⟨JoinedAndApart.alone.fronts, [some (JoinedAndApart.known (.number 0) 5),
          some (JoinedAndApart.known (.number 1) 1)]⟩ := by
  have hnodup : JoinedAndApart.inTurn.keys.Nodup := by decide
  have hbuilt : JoinedAndApart.lost.IsBuilt := by
    refine List.forall_mem_cons.mpr ⟨⟨by decide, List.forall_mem_singleton.mpr ?_⟩,
      List.forall_mem_singleton.mpr ⟨by decide, List.forall_mem_singleton.mpr ?_⟩⟩
    all_goals exact ⟨rfl, by simp [Mat.IsRectangular]⟩
  have herror : (JoinedAndApart.settled.solve JoinedAndApart.lost).result =
      .error (.indeterminate (.number 1)) := by rw [JoinedAndApart.settled_solve]
  obtain ⟨-, -, -, -, hlast⟩ := ((failed_solve_keeps hnodup hbuilt).2 _ JoinedAndApart.reachable_settled
    _ herror).2 JoinedAndApart.settled_reworks
  refine ⟨hnodup, hbuilt, JoinedAndApart.reachable_settled, herror, JoinedAndApart.settled_reworks, ?_⟩
  rw [hlast, JoinedAndApart.found_lost, JoinedAndApart.settled_eq.1]
  rfl

end LeastSquares
