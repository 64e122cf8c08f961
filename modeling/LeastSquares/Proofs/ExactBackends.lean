/-
  LeastSquares/Proofs/ExactBackends.lean
  ======================================
  **The backends that eliminate are exact in every state they can be in.**

  Both ways of elimination return the solution of a problem or an error, whatever they remember of earlier
  problems, and keep to the order and the sizes that they were made for.
-/
import LeastSquares.Proofs.AnsweredSteps
import LeastSquares.Proofs.Lockstep

namespace LeastSquares

/-- An order that is valid for different variables lists each of them once. -/
theorem EliminationOrder.perm_of_validate {order : EliminationOrder} {keys : List Key}
    (h : order.validate keys = .ok ()) (hnodup : order.keys.Nodup) (hkeys : keys.Nodup) :
    order.keys.Perm keys := by
  simp only [validate] at h
  split_ifs at h with hnone
  simp only [Bool.and_eq_true, List.isEmpty_iff, List.filter_eq_nil_iff] at hnone
  obtain ⟨hmissing, hunexpected⟩ := hnone
  refine (List.perm_ext_iff_of_nodup hnodup hkeys).mpr fun key => ⟨fun hkey => ?_, fun hkey => ?_⟩
  · simpa using hunexpected key hkey
  · simpa [contains] using hmissing key (mem_distinct.mpr hkey)

/-- What is not about the optimization is about no step of it. -/
theorem Accepting.of_progressOf {α : Type} {reports : List (Report α)} (h : progressOf reports = []) :
    Accepting reports := by
  intro r hr
  have hsolver := List.filter_eq_nil_iff.mp h r hr
  obtain ⟨level, event⟩ := r
  cases event <;> simp_all [Event.isOfSolver, Event.isRejection]

namespace Backend

/-- A backend is one of the two ways of elimination for an order and sizes, in a state it can be in. -/
def IsExact (order : EliminationOrder) (dims : Table ℕ) : Backend ℝ → Prop
  | sequential s => s.order = order ∧ s.dims = dims
  | multifrontal s => s.Reachable order dims
  | _ => False

variable {order : EliminationOrder} {dims : Table ℕ} {backend : Backend ℝ}

/-- **A new backend of one of the ways of elimination is exact** for an order that is valid. -/
theorem isExact_ofElimination {kind : SolverKind} {values : Values ℝ}
    (h : ofElimination kind values order = .ok backend) :
    backend.IsExact order values.dims ∧ order.validate values.keys = .ok () := by
  cases kind with
  | sequential =>
    obtain ⟨s, hs, rfl⟩ := map_eq_ok.mp h
    obtain ⟨⟨⟩, hvalid, hs⟩ := bind_eq_ok.mp hs
    cases hs
    exact ⟨⟨rfl, rfl⟩, hvalid⟩
  | multifrontal =>
    obtain ⟨s, hs, rfl⟩ := map_eq_ok.mp h
    obtain ⟨⟨⟩, hvalid, hs⟩ := bind_eq_ok.mp hs
    cases hs
    exact ⟨.fresh, hvalid⟩
  | subgraph => cases h

theorem IsExact.memory (h : backend.IsExact order dims) (g : LinearGraph ℝ) :
    (backend.solve g).memory.IsExact order dims := by
  cases backend with
  | sequential s =>
    obtain ⟨rfl, rfl⟩ := h
    obtain ⟨⟨net, hnet⟩, -⟩ := s.solve_kept g
    simp only [solve, lift, hnet]
    exact ⟨rfl, rfl⟩
  | multifrontal s => exact MultifrontalSolver.Reachable.solve g h
  | subgraph s => exact h.elim
  | absent => exact h.elim

theorem IsExact.accepting (h : backend.IsExact order dims) (g : LinearGraph ℝ) :
    Accepting (backend.solve g).reports := by
  cases backend with
  | sequential s => exact .of_progressOf (s.solve_kept g).2
  | multifrontal s => exact .of_progressOf (s.solve_reports g)
  | subgraph s => exact h.elim
  | absent => exact h.elim

/-- **What an exact backend returns is the solution.** -/
theorem IsExact.isSolvedBy (h : backend.IsExact order dims) {g : LinearGraph ℝ}
    (hg : g.Accords order.keys dims) {d : Delta ℝ} (hd : (backend.solve g).result = .ok d) :
    g.IsSolvedBy order.keys dims d := by
  cases backend with
  | sequential s =>
    obtain ⟨rfl, rfl⟩ := h
    exact s.isSolvedBy_of_solve hg hd
  | multifrontal s =>
    obtain ⟨rfl, rfl, hcoherent⟩ := MultifrontalSolver.Reachable.coherent h
    exact MultifrontalSolver.isSolvedBy_of_solve hcoherent hg hd
  | subgraph s => exact h.elim
  | absent => exact h.elim

end Backend

end LeastSquares
