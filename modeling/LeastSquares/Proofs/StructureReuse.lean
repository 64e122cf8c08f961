/-
  LeastSquares/Proofs/StructureReuse.lean
  =======================================
  **The fronts that are kept are those of the problem.**

  Fronts depend only on what the factors are about.  So a solver that has been used for problems in
  any order, whether it succeeded or not, holds the fronts of every problem that has the structure it
  remembers.
-/
import LeastSquares.Proofs.Supernodes

namespace LeastSquares

variable {α : Type}

namespace FrontForest

theorem ofGraph_congr (order : EliminationOrder) {g g' : LinearGraph α}
    (h : g.structureKey = g'.structureKey) : ofGraph order g = ofGraph order g' := by
  have hconnect : ∀ g : LinearGraph α, ∀ adjacency : Adjacency,
      g.factors.foldlM (fun (adjacency : Adjacency) f =>
        adjacency.connect f.keys fun _ => .absentKey) adjacency =
      g.structureKey.foldlM (fun (adjacency : Adjacency) keys =>
        adjacency.connect keys fun _ => .absentKey) adjacency := by
    intro g adjacency
    rw [LinearGraph.structureKey, List.foldlM_map]
  rw [ofGraph_eq, ofGraph_eq, separatorsOf, separatorsOf, hconnect, hconnect, h]

end FrontForest

namespace MultifrontalSolver

/-- The fronts that a solver keeps are those of a problem with the structure it remembers, and there
    is room for the conditional of each. -/
structure Coherent (s : MultifrontalSolver α) : Prop where
  analysed : ∀ key, s.structureKey = some key → ∃ g : LinearGraph α, g.structureKey = key ∧
    FrontForest.ofGraph s.order g = .ok ⟨s.tree.fronts, s.frontOf⟩
  filled : s.tree.conditionals.length = s.tree.fronts.length

variable {s : MultifrontalSolver α}

/-- **Afterwards the fronts are those of the problem**, unless they could not be found. -/
theorem prepare_spec (h : s.Coherent) (g : LinearGraph α) :
    (s.prepare g).memory.order = s.order ∧ (s.prepare g).memory.dims = s.dims ∧
      (s.prepare g).memory.Coherent ∧
      ∀ forest, FrontForest.ofGraph s.order g = .ok forest → (s.prepare g).result = .ok () ∧
        forest = ⟨(s.prepare g).memory.tree.fronts, (s.prepare g).memory.frontOf⟩ := by
  rw [prepare]
  by_cases hkey : s.structureKey = some g.structureKey
  · rw [if_pos hkey]
    obtain ⟨g', hg', hforest⟩ := h.analysed _ hkey
    refine ⟨rfl, rfl, h, fun forest hfound => ⟨rfl, ?_⟩⟩
    rw [FrontForest.ofGraph_congr s.order hg', hfound, Except.ok.injEq] at hforest
    exact hforest
  · rw [if_neg hkey]
    simp only [symbolic]
    cases hfound : FrontForest.ofGraph s.order g with
    | error e => exact ⟨rfl, rfl, h, fun forest hforest => by cases hforest⟩
    | ok forest =>
      refine ⟨rfl, rfl, ⟨?_, by simp⟩, fun forest' hforest => ⟨rfl, ?_⟩⟩
      · rintro key ⟨⟩
        exact ⟨g, rfl, hfound⟩
      · cases hforest
        rfl

end MultifrontalSolver

variable [Scalar α]

theorem BayesTree.length_eliminateFronts_le (dims position frontOf : Table ℕ) (count index : ℕ)
    (fronts : List Front) (pending : List (ℕ × LinearFactor α)) :
    (eliminateFronts dims position frontOf count index fronts pending).1.length ≤ fronts.length := by
  induction fronts generalizing index pending with
  | nil => simp [eliminateFronts]
  | cons front fronts ih =>
    rw [eliminateFronts]
    split
    · simp
    · split
      · simp
      · simpa using ih _ _

namespace MultifrontalSolver

/-- The states of a solver for an order and sizes: it is fresh, or has eliminated or solved problems,
    or has analysed one of the structure that it remembers, if it remembers any. -/
inductive Reachable (order : EliminationOrder) (dims : Table ℕ) : MultifrontalSolver α → Prop
  | fresh : Reachable order dims ⟨order, dims, none, ⟨[], []⟩, [], none⟩
  | eliminate {s : MultifrontalSolver α} (g : LinearGraph α) :
      Reachable order dims s → Reachable order dims (s.eliminate g).memory
  | solve {s : MultifrontalSolver α} (g : LinearGraph α) :
      Reachable order dims s → Reachable order dims (s.solve g).memory
  | symbolic {s : MultifrontalSolver α} (g : LinearGraph α) :
      (∀ key, s.structureKey = some key → g.structureKey = key) →
      Reachable order dims s → Reachable order dims (s.symbolic g).memory

variable {s : MultifrontalSolver α}

theorem eliminate_memory (h : s.Coherent) (g : LinearGraph α) :
    (s.eliminate g).memory.order = s.order ∧ (s.eliminate g).memory.dims = s.dims ∧
      (s.eliminate g).memory.Coherent := by
  obtain ⟨horder, hdims, ⟨hanalysed, hfilled⟩, -⟩ := prepare_spec h g
  rw [eliminate]
  split
  · exact ⟨horder, hdims, hanalysed, hfilled⟩
  · split
    · exact ⟨horder, hdims, hanalysed, hfilled⟩
    · next pending _ =>
      have hlength := BayesTree.length_eliminateFronts_le (s.prepare g).memory.dims
        (s.prepare g).memory.order.positions (s.prepare g).memory.frontOf
        (s.prepare g).memory.tree.fronts.length 0 (s.prepare g).memory.tree.fronts pending
      split
      next found failure hrun =>
        rw [hrun] at hlength
        have hfilled' : (found.map some ++
            (s.prepare g).memory.tree.conditionals.drop found.length).length =
              (s.prepare g).memory.tree.fronts.length := by
          rw [List.length_append, List.length_map, List.length_drop, hfilled]
          exact Nat.add_sub_of_le hlength
        split
        · exact ⟨horder, hdims, hanalysed, hfilled'⟩
        · exact ⟨horder, hdims, hanalysed, hfilled'⟩

theorem solve_memory (s : MultifrontalSolver α) (g : LinearGraph α) :
    ∃ last, (s.solve g).memory = { (s.eliminate g).memory with last := last } := by
  rw [solve]
  split
  · exact ⟨_, rfl⟩
  · exact ⟨_, rfl⟩

/-- **In every state the fronts that are kept are those of the structure that is remembered.** -/
theorem Reachable.coherent {order : EliminationOrder} {dims : Table ℕ}
    (h : Reachable order dims s) : s.order = order ∧ s.dims = dims ∧ s.Coherent := by
  induction h with
  | fresh => exact ⟨rfl, rfl, by simp, rfl⟩
  | eliminate g _ ih =>
    obtain ⟨rfl, rfl, hcoherent⟩ := ih
    exact eliminate_memory hcoherent g
  | solve g _ ih =>
    obtain ⟨rfl, rfl, hcoherent⟩ := ih
    obtain ⟨horder, hdims, hanalysed, hfilled⟩ := eliminate_memory hcoherent g
    obtain ⟨last, hlast⟩ := solve_memory _ g
    rw [hlast]
    exact ⟨horder, hdims, hanalysed, hfilled⟩
  | @symbolic s g hkey _ ih =>
    obtain ⟨rfl, rfl, hcoherent⟩ := ih
    rw [MultifrontalSolver.symbolic]
    cases hfound : FrontForest.ofGraph s.order g with
    | error e => exact ⟨rfl, rfl, hcoherent⟩
    | ok forest =>
      refine ⟨rfl, rfl, fun key hremembered => ?_, hcoherent.filled⟩
      obtain ⟨g', hg', hforest⟩ := hcoherent.analysed key hremembered
      have hsame := FrontForest.ofGraph_congr s.order ((hkey key hremembered).trans hg'.symm)
      rw [hforest, hfound, Except.ok.injEq] at hsame
      exact ⟨g', hg', by rw [hforest, hsame]⟩

end MultifrontalSolver

end LeastSquares
