/-
  LeastSquares/Proofs/SolverHistories.lean
  ========================================
  **What a solver answers does not depend on what it was asked before.**

  A solver that eliminates fronts keeps them, and the conditionals that it has found, from one problem to
  the next.  Since the fronts that it keeps are those of the problem whenever it does not look for them
  anew, and a run that succeeds replaces every conditional, each answer is the one that the order, the
  sizes and the problem give.
-/
import LeastSquares.Proofs.FrontElimination

namespace LeastSquares

open FrontForest

variable {α : Type} [Scalar α]

namespace BayesTree

/-- The tree of a problem, with fronts that are found for it and nothing kept from earlier ones. -/
def ofGraph (order : EliminationOrder) (dims : Table ℕ) (g : LinearGraph α) :
    Except Error (BayesTree α) := do
  let forest ← FrontForest.ofGraph order g
  let pending ← assign order.positions forest.frontOf forest.fronts.length g
  match eliminateFronts dims order.positions forest.frontOf forest.fronts.length 0 forest.fronts pending with
  | (_, some e) => throw e
  | (found, none) => return ⟨forest.fronts, found.map some⟩

/-- The conditionals that are found for a problem: those of all fronts, or of the fronts before the one
    that fails. -/
def found (order : EliminationOrder) (dims : Table ℕ) (g : LinearGraph α) : List (Conditional α) :=
  match FrontForest.ofGraph order g with
  | .error _ => []
  | .ok forest =>
    match assign order.positions forest.frontOf forest.fronts.length g with
    | .error _ => []
    | .ok pending => (eliminateFronts dims order.positions forest.frontOf forest.fronts.length 0
        forest.fronts pending).1

theorem found_eq {order : EliminationOrder} {dims : Table ℕ} {g : LinearGraph α} {forest : FrontForest}
    {pending : List (ℕ × LinearFactor α)} (hforest : FrontForest.ofGraph order g = .ok forest)
    (hassign : assign order.positions forest.frontOf forest.fronts.length g = .ok pending) :
    found order dims g = (eliminateFronts dims order.positions forest.frontOf forest.fronts.length 0
      forest.fronts pending).1 := by
  rw [found, hforest]
  simp only [hassign]

/-- A run that does not fail finds a conditional for every front. -/
theorem length_eliminateFronts {dims position frontOf : Table ℕ} {count index : ℕ} {fronts : List Front}
    {pending : List (ℕ × LinearFactor α)}
    (h : (eliminateFronts dims position frontOf count index fronts pending).2 = none) :
    (eliminateFronts dims position frontOf count index fronts pending).1.length = fronts.length := by
  induction fronts generalizing index pending with
  | nil => rfl
  | cons front fronts ih =>
    rw [eliminateFronts] at h ⊢
    split at h
    · cases h
    · split at h
      · cases h
      · exact congrArg (· + 1) (ih h)

end BayesTree

namespace MultifrontalSolver

variable {s : MultifrontalSolver α}

/-! ### One call -/

omit [Scalar α] in
/-- A problem whose fronts cannot be found has another structure than the one that is remembered. -/
theorem structureKey_ne_of_error (hs : s.Coherent) {g : LinearGraph α} {e : Error}
    (hforest : FrontForest.ofGraph s.order g = .error e) : s.structureKey ≠ some g.structureKey := by
  intro hkey
  obtain ⟨g', hg', hfound⟩ := hs.analysed _ hkey
  rw [ofGraph_congr s.order hg', hforest] at hfound
  cases hfound

/-- A problem whose fronts cannot be found is refused in every state. -/
theorem eliminate_error (hs : s.Coherent) {g : LinearGraph α} {e : Error}
    (hforest : FrontForest.ofGraph s.order g = .error e) : (s.eliminate g).result = .error e := by
  simp only [eliminate, prepare, if_neg (structureKey_ne_of_error hs hforest), symbolic, hforest]

/-- A factor that cannot be handed to a front is refused in every state. -/
theorem eliminate_unassigned (hs : s.Coherent) {g : LinearGraph α} {forest : FrontForest}
    (hforest : FrontForest.ofGraph s.order g = .ok forest) {e : Error}
    (hassign : BayesTree.assign s.order.positions forest.frontOf forest.fronts.length g = .error e) :
    (s.eliminate g).result = .error e := by
  obtain ⟨horder, -, -, hprepared⟩ := prepare_spec hs g
  obtain ⟨hresult, rfl⟩ := hprepared _ hforest
  rw [← horder] at hassign
  simp only [eliminate, hresult, hassign]

/-- **Elimination comes to the tree of the problem**, whatever the solver remembers. -/
theorem eliminate_result (hs : s.Coherent) (g : LinearGraph α) :
    (s.eliminate g).result = BayesTree.ofGraph s.order s.dims g := by
  rw [BayesTree.ofGraph]
  cases hforest : FrontForest.ofGraph s.order g with
  | error e =>
    rw [eliminate_error hs hforest]
    rfl
  | ok forest =>
    cases hassign : BayesTree.assign s.order.positions forest.frontOf forest.fronts.length g with
    | error e =>
      rw [eliminate_unassigned hs hforest hassign]
      simp only [bind, Except.bind, hassign]
    | ok pending =>
      cases hfound : BayesTree.eliminateFronts s.dims s.order.positions forest.frontOf
          forest.fronts.length 0 forest.fronts pending with
      | mk found failure =>
        obtain ⟨-, herror, hok⟩ := eliminate_eq hs hforest hassign hfound
        simp only [bind, Except.bind, hassign, hfound]
        cases failure with
        | some e => exact herror e rfl
        | none =>
          have hlength := BayesTree.length_eliminateFronts (congrArg Prod.snd hfound)
          rw [hfound] at hlength
          exact hok rfl hlength

/-- **Elimination replaces the conditionals that it finds** in what was prepared, and nothing else,
    whether it succeeds or not. -/
theorem eliminate_memory_eq (hs : s.Coherent) (g : LinearGraph α) :
    (s.eliminate g).memory = { (s.prepare g).memory with
      tree := ⟨(s.prepare g).memory.tree.fronts, (BayesTree.found s.order s.dims g).map some ++
        (s.prepare g).memory.tree.conditionals.drop (BayesTree.found s.order s.dims g).length⟩ } := by
  obtain ⟨horder, hdims, -, hprepared⟩ := prepare_spec hs g
  rw [BayesTree.found]
  cases hforest : FrontForest.ofGraph s.order g with
  | error e =>
    have hnew := structureKey_ne_of_error hs hforest
    simp only [eliminate, prepare, if_neg hnew, symbolic, hforest]
    rfl
  | ok forest =>
    obtain ⟨hresult, rfl⟩ := hprepared _ hforest
    rw [← horder, ← hdims]
    simp only [eliminate, hresult]
    cases BayesTree.assign (s.prepare g).memory.order.positions (s.prepare g).memory.frontOf
        (s.prepare g).memory.tree.fronts.length g with
    | error e => rfl
    | ok pending =>
      simp only
      split
      · rfl
      · rfl

/-- **A solution is that of the tree of the problem**, with a block for each ordered variable. -/
theorem solve_result (hs : s.Coherent) (g : LinearGraph α) :
    (s.solve g).result = (do
      let tree ← BayesTree.ofGraph s.order s.dims g
      let delta ← tree.optimize
      delta.ordered s.order.keys) := by
  rw [← eliminate_result hs g, solve]
  cases (s.eliminate g).result with
  | error e => rfl
  | ok tree => rfl

/-! ### Calls one after another -/

/-- What a solver is asked for. -/
inductive Request (α : Type) where
  /-- The tree of a problem. -/
  | eliminate (g : LinearGraph α)
  /-- The step that solves a problem. -/
  | solve (g : LinearGraph α)

/-- What a solver answers. -/
inductive Answer (α : Type) where
  | tree (result : Except Error (BayesTree α))
  | step (result : Except Error (Delta α))

/-- Answer a request: the answer, and the solver afterwards. -/
def respond (s : MultifrontalSolver α) : Request α → Answer α × MultifrontalSolver α
  | .eliminate g => (.tree (s.eliminate g).result, (s.eliminate g).memory)
  | .solve g => (.step (s.solve g).result, (s.solve g).memory)

/-- The answers of one solver to requests one after another. -/
def answers (s : MultifrontalSolver α) : List (Request α) → List (Answer α)
  | [] => []
  | request :: requests => (s.respond request).1 :: (s.respond request).2.answers requests

/-- A solver for an order and sizes that has not been asked for anything. -/
def fresh (order : EliminationOrder) (dims : Table ℕ) : MultifrontalSolver α :=
  ⟨order, dims, none, ⟨[], []⟩, [], none⟩

omit [Scalar α] in
/-- A solver that is made for an estimate is a new one for the sizes of its variables. -/
theorem make_eq (values : Values α) (order : EliminationOrder) :
    make values order = (order.validate values.keys).map fun _ => fresh order values.dims := by
  rw [make]
  cases order.validate values.keys <;> rfl

variable {order : EliminationOrder} {dims : Table ℕ} {t : MultifrontalSolver α}

theorem reachable_fresh (order : EliminationOrder) (dims : Table ℕ) :
    (fresh order dims : MultifrontalSolver α).Reachable order dims := .fresh

theorem Reachable.respond (h : s.Reachable order dims) (request : Request α) :
    (s.respond request).2.Reachable order dims := by
  cases request with
  | eliminate g => exact .eliminate g h
  | solve g => exact .solve g h

/-- An answer is determined by the order, the sizes and the request. -/
theorem Reachable.respond_eq (hs : s.Reachable order dims) (ht : t.Reachable order dims)
    (request : Request α) : (s.respond request).1 = (t.respond request).1 := by
  obtain ⟨hsOrder, hsDims, hs⟩ := hs.coherent
  obtain ⟨htOrder, htDims, ht⟩ := ht.coherent
  cases request with
  | eliminate g =>
    simp only [MultifrontalSolver.respond]
    rw [eliminate_result hs, eliminate_result ht, hsOrder, hsDims, htOrder, htDims]
  | solve g =>
    simp only [MultifrontalSolver.respond]
    rw [solve_result hs, solve_result ht, hsOrder, hsDims, htOrder, htDims]

/-- In every state that it can be in, a solver answers as a new one does. -/
theorem Reachable.answers_eq (h : s.Reachable order dims) (requests : List (Request α)) :
    s.answers requests =
      requests.map fun request => ((MultifrontalSolver.fresh order dims).respond request).1 := by
  induction requests generalizing s with
  | nil => rfl
  | cons request requests ih =>
    rw [answers, ih (h.respond request), List.map_cons, h.respond_eq (reachable_fresh order dims)]

/-- **What is kept is never seen in an answer.**  Of any requests to one solver, for trees and for steps
    and for any problems, each is answered as by a new solver for the same order and sizes that is asked
    for nothing else: with the same tree or step, or the same error. -/
theorem answers_eq_fresh (order : EliminationOrder) (dims : Table ℕ) (requests : List (Request α)) :
    (fresh order dims).answers requests =
      requests.map fun request => ((fresh order dims).respond request).1 :=
  (reachable_fresh order dims).answers_eq requests

end MultifrontalSolver

end LeastSquares
