/-
  LeastSquares/Proofs/StructureQueries.lean
  =========================================
  **What a question about the structure of a problem does to a solver.**

  A solver that is asked for the fronts of a problem answers by the order and the problem alone, and keeps
  the fronts that it works on; but it remembers the front of each variable from the last answer.  So the
  next problem is solved as if nothing had been asked when it is analysed anew, or when both problems put
  every variable into the same front, as they do when their variables fill in alike.  Otherwise factors
  are looked up in a forest that is not the one that is worked on.
-/
import LeastSquares.Proofs.MultifrontalElimination
import LeastSquares.Proofs.SolverHistories

namespace LeastSquares

variable {α : Type}

/-! ### Problems that fill in alike -/

namespace FrontForest

variable {order : EliminationOrder} {table table' : Table (List Key)}

/-- Two tables hold the same separators, each in an order of its own. -/
def SameSeparators (table table' : Table (List Key)) : Prop :=
  ∀ key other, other ∈ separatorIn table key ↔ other ∈ separatorIn table' key

theorem SameSeparators.parentIn (h : SameSeparators table table') (key : Key) :
    parentIn order table key = parentIn order table' key := by
  have helem : (separatorIn table key).elem = (separatorIn table' key).elem := by
    funext other
    rw [Bool.eq_iff_iff]
    simpa using h key other
  rw [FrontForest.parentIn, FrontForest.parentIn, helem]

theorem SameSeparators.childrenIn (h : SameSeparators table table') :
    childrenIn order table = childrenIn order table' := by
  funext key
  simp only [FrontForest.childrenIn, h.parentIn]

namespace Growth

/-- Two growths have put the same variables into fronts of the same numbers. -/
structure Alike (growth growth' : Growth) : Prop where
  frontals_eq : growth.fronts.map Prod.fst = growth'.fronts.map Prod.fst
  frontOf_eq : growth.frontOf = growth'.frontOf

variable {growth growth' : Growth}

theorem Alike.length_eq (h : growth.Alike growth') : growth.fronts.length = growth'.fronts.length := by
  simpa using congrArg List.length h.frontals_eq

theorem Alike.start (h : growth.Alike growth') (key : Key) (separator separator' : List Key) :
    Alike ⟨growth.fronts ++ [([key], separator)], growth.frontOf.set key growth.fronts.length⟩
      ⟨growth'.fronts ++ [([key], separator')], growth'.frontOf.set key growth'.fronts.length⟩ where
  frontals_eq := by simp [h.frontals_eq]
  frontOf_eq := by rw [h.frontOf_eq, h.length_eq]

theorem Alike.join (h : growth.Alike growth') (key : Key) (index : ℕ) {front front' : List Key × List Key}
    (hfront : front.1 = front'.1) (separator separator' : List Key) :
    Alike ⟨growth.fronts.set index (front.1 ++ [key], separator), growth.frontOf.set key index⟩
      ⟨growth'.fronts.set index (front'.1 ++ [key], separator'), growth'.frontOf.set key index⟩ where
  frontals_eq := by rw [List.map_set, List.map_set, h.frontals_eq, hfront]
  frontOf_eq := by rw [h.frontOf_eq]

/-- The next variable joins the same front in both, or starts one in both. -/
theorem Alike.grow (h : growth.Alike growth') (hsame : SameSeparators table table')
    (childrenOf : Key → List Key) (key : Key) :
    Alike (grow table childrenOf growth key) (grow table' childrenOf growth' key) := by
  have hstart := h.start key (separatorIn table key) (separatorIn table' key)
  have hjoins : ∀ child, sameKeys (separatorIn table child) (key :: separatorIn table key) =
      sameKeys (separatorIn table' child) (key :: separatorIn table' key) := by
    intro child
    rw [Bool.eq_iff_iff, sameKeys_iff, sameKeys_iff]
    exact forall_congr' fun other => by
      rw [hsame child other, List.mem_cons, List.mem_cons, hsame key other]
  unfold FrontForest.grow
  dsimp only
  rw [← h.frontOf_eq]
  split
  · next child hchild =>
    split
    · rwa [← h.frontOf_eq] at hstart
    · next index hindex =>
      have hfronts := congrArg (·[index]?) h.frontals_eq
      simp only [List.getElem?_map] at hfronts
      split
      · next hnone =>
        rw [hnone, Option.map_none, eq_comm, Option.map_eq_none_iff] at hfronts
        rw [hfronts]
        rwa [← h.frontOf_eq] at hstart
      · next front hfront =>
        rw [hfront, Option.map_some, eq_comm, Option.map_eq_some_iff] at hfronts
        obtain ⟨front', hfront', heq⟩ := hfronts
        rw [hfront', hjoins child]
        dsimp only
        rw [heq]
        split
        · have hjoin := h.join key index heq.symm (separatorIn table key) (separatorIn table' key)
          rwa [← h.frontOf_eq, heq] at hjoin
        · rwa [← h.frontOf_eq] at hstart
  · rwa [← h.frontOf_eq] at hstart

theorem Alike.foldl (h : growth.Alike growth') (hsame : SameSeparators table table')
    (childrenOf : Key → List Key) (keys : List Key) :
    Alike (keys.foldl (FrontForest.grow table childrenOf) growth)
      (keys.foldl (FrontForest.grow table' childrenOf) growth') := by
  induction keys generalizing growth growth' with
  | nil => exact h
  | cons key keys ih => exact ih (h.grow hsame childrenOf key)

end Growth

/-- **The front of a variable does not depend on how separators are listed.** -/
theorem SameSeparators.frontOf_eq (h : SameSeparators table table') :
    (ofSeparators order table).frontOf = (ofSeparators order table').frontOf := by
  have hgrown := (Growth.Alike.mk rfl rfl : Growth.Alike ⟨[], []⟩ ⟨[], []⟩).foldl h
    (FrontForest.childrenIn order table) order.keys
  have hother := hgrown.frontOf_eq
  rw [h.childrenIn] at hother
  simpa only [ofSeparators, growthOf, h.childrenIn] using hother

/-- The variables of two problems fill in alike: the same later variables are reached from each through
    earlier ones. -/
def FillAlike (order : EliminationOrder) (g g' : LinearGraph α) : Prop :=
  ∀ key ∈ order.keys, ∀ other, Fills order g key other ↔ Fills order g' key other

/-- **Problems that fill in alike have the same map of fronts.** -/
theorem frontOf_eq_of_fillAlike (hnodup : order.keys.Nodup) {g g' : LinearGraph α}
    (hg : ∀ f ∈ g.factors, ∀ key ∈ f.keys, key ∈ order.keys)
    (hg' : ∀ f ∈ g'.factors, ∀ key ∈ f.keys, key ∈ order.keys) (h : FillAlike order g g')
    {forest forest' : FrontForest} (hforest : ofGraph order g = .ok forest)
    (hforest' : ofGraph order g' = .ok forest') : forest'.frontOf = forest.frontOf := by
  obtain ⟨table, htable, hkeys, hspec⟩ := separatorsOf_spec hnodup hg
  obtain ⟨table', htable', hkeys', hspec'⟩ := separatorsOf_spec hnodup hg'
  rw [ofGraph_eq, htable] at hforest
  rw [ofGraph_eq, htable'] at hforest'
  cases hforest
  cases hforest'
  have hsame : SameSeparators table' table := by
    intro key other
    by_cases hkey : key ∈ order.keys
    · rw [(hspec key hkey).2, (hspec' key hkey).2]
      exact (h key hkey other).symm
    · have habsent : ∀ {t : Table (List Key)}, t.keys = order.keys → separatorIn t key = [] := by
        intro t ht
        rw [separatorIn, Table.get?_eq_none_iff.mpr (ht ▸ hkey)]
        rfl
      rw [habsent hkeys, habsent hkeys']
  exact hsame.frontOf_eq

end FrontForest

/-! ### Questions between problems -/

open FrontForest

namespace MultifrontalSolver

variable {s : MultifrontalSolver α} {order : EliminationOrder} {dims : Table ℕ} {g g' : LinearGraph α}
  {forest forest' : FrontForest}

theorem symbolic_eq (hforest' : ofGraph s.order g' = .ok forest') :
    s.symbolic g' = ⟨.ok forest'.fronts, { s with frontOf := forest'.frontOf }, []⟩ := by
  rw [symbolic, hforest']

theorem prepare_of_eq (hkey : s.structureKey = some g.structureKey) : s.prepare g = ⟨.ok (), s, []⟩ := by
  rw [prepare, if_pos hkey]

theorem prepare_of_ne (hnew : s.structureKey ≠ some g.structureKey)
    (hforest : ofGraph s.order g = .ok forest) :
    s.prepare g = ⟨.ok (), { s with
      structureKey := some g.structureKey
      tree := ⟨forest.fronts, forest.fronts.map fun _ => none⟩
      frontOf := forest.frontOf
      last := s.lastTree?.map .kept },
      [⟨.debug, .frontsAnalysed s.order.size forest.fronts.length⟩]⟩ := by
  rw [prepare, if_neg hnew, symbolic_eq hforest]

/-- A problem that is analysed anew is prepared as if nothing had been asked. -/
theorem prepare_symbolic_of_ne (hnew : s.structureKey ≠ some g.structureKey)
    (hforest : ofGraph s.order g = .ok forest) (hforest' : ofGraph s.order g' = .ok forest') :
    (s.symbolic g').memory.prepare g = s.prepare g := by
  let t : MultifrontalSolver α := { s with frontOf := forest'.frontOf }
  have hprepared := prepare_of_ne (s := t) (g := g) hnew hforest
  rw [symbolic_eq hforest', hprepared, prepare_of_ne hnew hforest]
  rfl

/-- A question about a problem that has the same map of fronts as the one that is remembered changes
    nothing. -/
theorem symbolic_memory_of_eq (hs : s.Coherent) (hkey : s.structureKey = some g.structureKey)
    (hforest : ofGraph s.order g = .ok forest) (hforest' : ofGraph s.order g' = .ok forest')
    (hsame : forest'.frontOf = forest.frontOf) : (s.symbolic g').memory = s := by
  obtain ⟨g₀, hg₀, hfound⟩ := hs.analysed _ hkey
  rw [ofGraph_congr s.order hg₀, hforest, Except.ok.injEq] at hfound
  rw [symbolic_eq hforest', hsame, hfound]

variable [Scalar α]

theorem solve_congr {t : MultifrontalSolver α} (horder : t.order = s.order)
    (h : t.prepare g = s.prepare g) : t.solve g = s.solve g := by
  have heliminate : t.eliminate g = s.eliminate g := by rw [eliminate, eliminate, h]
  simp only [solve, heliminate, horder]

/-- **A question about a structure** is answered by the order and the problem alone and changes nothing but
    the map of fronts.  Between any calls, the next problem is solved as if nothing had been asked, with
    the same step, the same reports and the same state afterwards, if it is analysed anew or has the map
    of fronts of the problem that was asked about; problems that fill in alike have the same map. -/
theorem solve_after_symbolic (hs : s.Reachable order dims) (hnodup : order.keys.Nodup)
    (g g' : LinearGraph α) (hg : ∀ f ∈ g.factors, ∀ key ∈ f.keys, key ∈ order.keys)
    (hg' : ∀ f ∈ g'.factors, ∀ key ∈ f.keys, key ∈ order.keys) :
    ∃ forest forest', ofGraph order g = .ok forest ∧ ofGraph order g' = .ok forest' ∧
      s.symbolic g' = ⟨.ok forest'.fronts, { s with frontOf := forest'.frontOf }, []⟩ ∧
      (s.structureKey ≠ some g.structureKey ∨ forest'.frontOf = forest.frontOf →
        (s.symbolic g').memory.solve g = s.solve g) ∧
      (FillAlike order g g' → forest'.frontOf = forest.frontOf) := by
  obtain ⟨rfl, rfl, hcoherent⟩ := hs.coherent
  obtain ⟨table, -, hforest, -⟩ := ofGraph_isSupernodal hnodup hg
  obtain ⟨table', -, hforest', -⟩ := ofGraph_isSupernodal hnodup hg'
  refine ⟨_, _, hforest, hforest', symbolic_eq hforest', fun hcase => ?_, fun halike =>
    frontOf_eq_of_fillAlike hnodup hg hg' halike hforest hforest'⟩
  by_cases hkey : s.structureKey = some g.structureKey
  · have hsame := hcase.resolve_left (not_not.mpr hkey)
    rw [symbolic_memory_of_eq hcoherent hkey hforest hforest' hsame]
  · refine solve_congr ?_ (prepare_symbolic_of_ne hkey hforest hforest')
    rw [symbolic_eq hforest']

/-- A problem of the structure that is remembered is refused when one of its factors has no front. -/
theorem solve_unassigned (hkey : s.structureKey = some g.structureKey) {e : Error}
    (hassign : BayesTree.assign s.order.positions s.frontOf s.tree.fronts.length g = .error e) :
    (s.solve g).result = .error e := by
  simp only [solve, eliminate, prepare_of_eq hkey, hassign]

end MultifrontalSolver

/-! ### Two numbers, joined and apart -/

namespace JoinedAndApart

open Elimination

/-- Two numbers in the order in which they are eliminated. -/
def inTurn : EliminationOrder := ⟨[.number 0, .number 1]⟩

def sizes : Table ℕ := [(.number 0, 1), (.number 1, 1)]

/-- The sum of the numbers is to be zero, and the second is to be one. -/
noncomputable def joined : LinearGraph ℝ :=
  ⟨[zeroSum (.number 0) (.number 1), equation (.number 1) 1 1]⟩

/-- Only the sum is to be zero. -/
def sum : LinearGraph ℝ := ⟨[zeroSum (.number 0) (.number 1)]⟩

/-- Each number is to be one. -/
def apart : LinearGraph ℝ := ⟨[equation (.number 0) 1 1, equation (.number 1) 1 1]⟩

/-- Joined, the numbers are eliminated together. -/
def together : FrontForest := ⟨[⟨[.number 0, .number 1], [], none, []⟩], [(.number 0, 0), (.number 1, 0)]⟩

/-- Apart, the numbers have a front each. -/
def alone : FrontForest :=
  ⟨[⟨[.number 0], [], none, []⟩, ⟨[.number 1], [], none, []⟩], [(.number 0, 0), (.number 1, 1)]⟩

theorem ofGraph_joined : ofGraph inTurn joined = .ok together := rfl

theorem ofGraph_apart : ofGraph inTurn apart = .ok alone := rfl

theorem fits : joined.Fits inTurn.keys sizes := by
  constructor
  · decide
  · have hsize : ∀ key ∈ inTurn.keys, sizes.get? key = some 1 := by decide
    exact fun key hkey => ⟨1, hsize key hkey, Nat.one_pos⟩
  · refine List.forall_mem_cons.mpr ⟨⟨by decide, List.forall_mem_cons.mpr ⟨?_,
      List.forall_mem_singleton.mpr ?_⟩⟩, List.forall_mem_singleton.mpr ⟨by decide,
      List.forall_mem_singleton.mpr ?_⟩⟩
    all_goals exact ⟨rfl, rfl, by simp [Mat.IsRectangular]⟩
  · decide

theorem eliminate_both : ∃ c, eliminate joined.factors [.number 0, .number 1] sizes inTurn.positions =
    .ok (c, none) := by
  have hseparator : separatorOf joined.factors [.number 0, .number 1] inTurn.positions = .ok [] := by
    simp [joined, zeroSum, equation, separatorOf, LinearFactor.keys, Table.keys, distinct, bind,
      Except.bind, pure, Except.pure]
  have hcolumns : columnOffsets sizes [.number 0, .number 1] =
      .ok ([(.number 0, 0), (.number 1, 1)], 2) := rfl
  have hheight : total (joined.factors.map (·.rows)) = 2 := rfl
  have hstacked : joined.factors.mapM (stackedRows sizes [(.number 0, 0), (.number 1, 1)] 2) =
      .ok [[[1, 1, 0]], [[0, 1, 1]]] := rfl
  have hrows : [[[(1 : ℝ), 1, 0]], [[0, 1, 1]]].flatten = [[1, 1, 0], [0, 1, 1]] := rfl
  have hreduced : Triangular.reduce ⟨2 + 1, [[(1 : ℝ), 1, 0], [0, 1, 1]]⟩ =
      ⟨2 + 1, [[1, 1, 0], [0, 1, 1]]⟩ := by
    simp [Triangular.reduce, Triangular.reduceRows, Triangular.Reflection.ofColumn,
      Triangular.Reflection.apply, Vec.scaledNorm_real, Scalar.isZero_real]
  have hgreatest : Vec.maxAbs? [[(1 : ℝ), 1, 0], [0, 1, 1]].flatten = some 1 := by
    norm_num [Vec.maxAbs?, Scalar.maximum_real, Scalar.abs_real]
  have hpivot : ¬ (1 : ℝ) ≤ pivotTolerance := by norm_num [pivotTolerance]
  simp only [eliminate, hseparator, List.append_nil, hcolumns, bind, Except.bind, hheight, hstacked,
    hrows, hreduced, Mat.entries, hgreatest]
  simp [Mat.top, Mat.diagonal, List.findIdx?_cons, Scalar.abs_real, Scalar.largerOf_real, hpivot, pure,
    Except.pure]

/-- A solver of the two numbers before its first problem. -/
def fresh : MultifrontalSolver ℝ := .fresh inTurn sizes

theorem reachable_fresh : fresh.Reachable inTurn sizes := .fresh

theorem fresh_solve : ∃ d, (fresh.solve joined).result = .ok d := by
  obtain ⟨c, hc⟩ := eliminate_both
  have hcoherent : fresh.Coherent := reachable_fresh.coherent.2.2
  have hassign : BayesTree.assign inTurn.positions together.frontOf together.fronts.length joined =
      .ok [(0, zeroSum (.number 0) (.number 1)), (0, equation (.number 1) 1 1)] := rfl
  have hfound : BayesTree.eliminateFronts sizes inTurn.positions together.frontOf
      together.fronts.length 0 together.fronts
      [(0, zeroSum (.number 0) (.number 1)), (0, equation (.number 1) 1 1)] = ([c], none) := by
    simp only [joined] at hc
    simp [together, BayesTree.eliminateFronts, BayesTree.routeUpdate, hc]
  obtain ⟨-, -, hok⟩ := MultifrontalSolver.eliminate_eq hcoherent ofGraph_joined hassign hfound
  obtain ⟨d, hd, -⟩ := MultifrontalSolver.solve_of_eliminate hcoherent fits (hok rfl rfl)
  exact ⟨d, hd⟩

/-- The solver after it has solved the joined numbers. -/
noncomputable def used : MultifrontalSolver ℝ := (fresh.solve joined).memory

theorem reachable_used : used.Reachable inTurn sizes := .solve joined reachable_fresh

theorem used_solve : ∃ d, (used.solve joined).result = .ok d := by
  obtain ⟨horder, hdims, hcoherent⟩ := reachable_used.coherent
  obtain ⟨d, hd⟩ := fresh_solve
  rw [MultifrontalSolver.solve_result reachable_fresh.coherent.2.2] at hd
  refine ⟨d, ?_⟩
  rw [MultifrontalSolver.solve_result hcoherent, horder, hdims]
  exact hd

theorem used_eq : used.order = inTurn ∧ used.structureKey = some joined.structureKey ∧
    used.tree.fronts = together.fronts := by
  obtain ⟨last, hlast⟩ := MultifrontalSolver.solve_memory fresh joined
  rw [used, hlast, MultifrontalSolver.eliminate_memory_eq reachable_fresh.coherent.2.2]
  exact ⟨rfl, rfl, rfl⟩

/-- **A question between two solves makes the second one fail.**  Solved twice, the joined numbers have a
    solution both times; when the fronts of the numbers apart are asked for in between, the second number
    is looked up in a front that there is not. -/
theorem asked_between : (∃ d, (fresh.solve joined).result = .ok d) ∧
    (∃ d, (used.solve joined).result = .ok d) ∧
    ((used.symbolic apart).memory.solve joined).result = .error .outOfRange := by
  refine ⟨fresh_solve, used_solve, ?_⟩
  obtain ⟨horder, hkey, hfronts⟩ := used_eq
  rw [MultifrontalSolver.symbolic_eq (horder ▸ ofGraph_apart)]
  let asked : MultifrontalSolver ℝ := { used with frontOf := alone.frontOf }
  have hassign : BayesTree.assign asked.order.positions asked.frontOf asked.tree.fronts.length joined =
      .error .outOfRange := by
    simp only [asked, horder, hfronts]
    rfl
  exact MultifrontalSolver.solve_unassigned (s := asked) hkey hassign

end JoinedAndApart

/-- When the fronts of the sum alone are asked for in between, the joined numbers are solved again as if
    nothing had been asked. -/
theorem MultifrontalSolver.solve_after_symbolic_sum :
    JoinedAndApart.used.Reachable JoinedAndApart.inTurn JoinedAndApart.sizes ∧
      (JoinedAndApart.used.symbolic JoinedAndApart.sum).memory.solve JoinedAndApart.joined =
        JoinedAndApart.used.solve JoinedAndApart.joined := by
  obtain ⟨forest, forest', hforest, hforest', -, hsolve, -⟩ := solve_after_symbolic
    JoinedAndApart.reachable_used (by decide) JoinedAndApart.joined JoinedAndApart.sum (by decide)
    (by decide)
  have hsame : ofGraph JoinedAndApart.inTurn JoinedAndApart.sum = .ok JoinedAndApart.together := rfl
  rw [JoinedAndApart.ofGraph_joined] at hforest
  rw [hsame] at hforest'
  cases hforest
  cases hforest'
  exact ⟨JoinedAndApart.reachable_used, hsolve (.inr rfl)⟩

end LeastSquares
