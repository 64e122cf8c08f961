/-
  LeastSquares/Proofs/ArrayFactors.lean
  =====================================
  **Factors of arrays are eliminated as matrices and vectors.**

  A factor keeps its right-hand side as an array where that has more axes than one.  An elimination
  writes the array over its rows.  Where it returns, it returns the same for the factor with what has been
  written as a vector, so what is known of matrices and vectors carries over to arrays.
-/
import LeastSquares.Proofs.MultifrontalElimination
import LeastSquares.Proofs.RegularArrays
import LeastSquares.Proofs.RewrittenFactors

namespace LeastSquares

section

variable {α : Type}

namespace LinearFactor

/-- A factor is formed for sizes of variables when each of its blocks is as wide as its variable and as
    high as the right-hand side, and every place of it holds a number. -/
def Formed (dims : Table ℕ) : LinearFactor α → Prop
  | dense blocks rhs => (dense blocks rhs).Fits dims
  | arrays blocks rhs => rhs.IsRegular ∧ blocks.keys.Nodup ∧ ∀ entry ∈ blocks, entry.2.IsRegular ∧
      ∃ n, dims.get? entry.1 = some n ∧ entry.2.shape = [rhs.outerLength, n]

def flatBlock (t : Tensor α) : Mat α := (Mat.ofTensor? t).getD ⟨0, []⟩

theorem flatBlock_eq {t : Tensor α} {m n : ℕ} (h : t.shape = [m, n]) :
    flatBlock t = ⟨n, Tensor.cut n t.data m⟩ := by
  simp [flatBlock, Mat.ofTensor?, h]

variable [Scalar α]

/-- The right-hand side as a vector: what is written over its rows, if it can be. -/
def flatRhs (rhs : Tensor α) : Vec α :=
  match rhs.written [rhs.outerLength] with
  | .ok xs => xs
  | .error _ => Vec.zeros rhs.outerLength

/-- The factor as matrices and a vector. -/
def flat : LinearFactor α → LinearFactor α
  | dense blocks rhs => dense blocks rhs
  | arrays blocks rhs => dense (blocks.mapEntries flatBlock) (flatRhs rhs)

@[simp] theorem keys_flat (f : LinearFactor α) : f.flat.keys = f.keys := by
  cases f with
  | dense blocks rhs => rfl
  | arrays blocks rhs => exact Table.keys_mapEntries _ _

theorem length_flatRhs {rhs : Tensor α} (h : rhs.IsRegular) :
    (flatRhs rhs).length = rhs.outerLength := by
  unfold flatRhs
  split
  · next xs hwritten =>
    rw [Tensor.length_of_written h hwritten, Tensor.places_cons, Tensor.places_nil, Nat.mul_one]
  · exact List.length_replicate

variable {dims : Table ℕ} {f : LinearFactor α}

theorem Formed.fits_flat (h : f.Formed dims) : f.flat.Fits dims := by
  cases f with
  | dense blocks rhs => exact h
  | arrays blocks rhs =>
    obtain ⟨hrhs, hnodup, hblocks⟩ := h
    refine ⟨by rwa [Table.keys_mapEntries], List.forall_mem_map.mpr fun entry hentry => ?_⟩
    obtain ⟨hregular, n, hdim, hshape⟩ := hblocks entry hentry
    have hlength : entry.2.data.length = rhs.outerLength * n := by
      rw [hregular, hshape, Tensor.places_cons, Tensor.places_cons, Tensor.places_nil, Nat.mul_one]
    rw [flatBlock_eq hshape]
    refine ⟨hdim, ?_, Tensor.length_of_mem_cut hlength⟩
    rw [length_flatRhs hrhs]
    exact Tensor.length_cut _ _ _

/-- Where the rows of a factor can be stacked, they are those of the factor as matrices and a vector. -/
def Flattens (dims : Table ℕ) (f : LinearFactor α) : Prop :=
  ∀ columns width rows, Elimination.stackedRows dims columns width f = .ok rows →
    Elimination.stackedRows dims columns width f.flat = .ok rows ∧ f.flat.rows = f.rows

theorem flattens_dense (blocks : Table (Mat α)) (rhs : Vec α) : (dense blocks rhs).Flattens dims :=
  fun _ _ _ h => ⟨h, rfl⟩

theorem Formed.flattens (h : f.Formed dims) : f.Flattens dims := by
  cases f with
  | dense blocks rhs => exact flattens_dense blocks rhs
  | arrays blocks rhs =>
    obtain ⟨hrhs, -, hblocks⟩ := h
    intro columns width rows hrows
    have hmatrices : (blocks.mapM fun entry => do
        let dim ← dims.find entry.1
        let data ← entry.2.written [rhs.outerLength, dim]
        return (entry.1, (⟨dim, Tensor.cut dim data rhs.outerLength⟩ : Mat α))) =
          Except.ok (ε := Error) (blocks.mapEntries flatBlock) := by
      refine mapM_eq_ok_map fun entry hentry => ?_
      obtain ⟨hregular, n, hdim, hshape⟩ := hblocks entry hentry
      have hwritten : entry.2.written [rhs.outerLength, n] = .ok entry.2.data :=
        hshape ▸ Tensor.written_self hregular
      simp only [Table.find_eq_ok.mpr hdim, bind, Except.bind, hwritten, flatBlock_eq hshape]
      rfl
    simp only [Elimination.stackedRows, hmatrices] at hrows
    obtain ⟨_, hsame, hrows⟩ := bind_eq_ok.mp hrows
    cases hsame
    obtain ⟨b, hb, hrows⟩ := bind_eq_ok.mp hrows
    refine ⟨?_, length_flatRhs hrhs⟩
    have hflat : flatRhs rhs = b := by simp only [flatRhs, hb]
    rw [flat, hflat]
    exact hrows

end LinearFactor

/-! ### Solvers -/

open LinearFactor

variable [Scalar α] {dims : Table ℕ}

theorem rewrites_flat (dims : Table ℕ) : Rewrites (α := α) dims flat where
  keys_eq := keys_flat
  cut_eq f hf := by
    cases f with
    | dense blocks rhs => rfl
    | arrays blocks rhs => exact hf.elim

/-- The problem with matrices and vectors only. -/
def LinearGraph.flat (g : LinearGraph α) : LinearGraph α := ⟨g.factors.map LinearFactor.flat⟩

theorem SequentialSolver.solve_flat (s : SequentialSolver α) {g : LinearGraph α}
    (hg : ∀ f ∈ g.factors, f.Flattens s.dims) {d : Delta α} (h : (s.solve g).result = .ok d) :
    (s.solve g.flat).result = .ok d := by
  cases hnet : BayesNet.eliminate s.order s.dims g with
  | error e =>
    simp only [solve, hnet] at h
    cases h
  | ok net =>
    have hflat : BayesNet.eliminate s.order s.dims g.flat = .ok net :=
      BayesNet.eliminate_rewrite (rewrites_flat _) hg hnet
    simp only [solve, hnet] at h
    simp only [solve, hflat]
    exact h

theorem MultifrontalSolver.solve_flat {s : MultifrontalSolver α} (hs : s.Coherent) {g : LinearGraph α}
    (hg : ∀ f ∈ g.factors, f.Flattens s.dims) {d : Delta α} (h : (s.solve g).result = .ok d) :
    (s.solve g.flat).result = .ok d := by
  cases ht : (s.eliminate g).result with
  | error e =>
    simp only [solve, ht] at h
    cases h
  | ok t =>
    have hflat : (s.eliminate g.flat).result = .ok t :=
      eliminate_rewrite hs (rewrites_flat _) hg ht
    simp only [solve, ht] at h
    simp only [solve, hflat]
    exact h

end

/-! ### Agreement -/

/-- A linear problem is formed for an order of variables and their sizes: the order has no repetitions,
    each of its variables has a size, and the factors are about these variables and formed for the
    sizes. -/
structure LinearGraph.Formed {α : Type} (g : LinearGraph α) (keys : List Key)
    (dims : Table ℕ) : Prop where
  nodup : keys.Nodup
  sized : ∀ key ∈ keys, ∃ n, dims.get? key = some n
  formed : ∀ f ∈ g.factors, f.Formed dims
  listed : ∀ f ∈ g.factors, ∀ key ∈ f.keys, key ∈ keys

theorem LinearGraph.Fits.formed {α : Type} {g : LinearGraph α} {keys : List Key} {dims : Table ℕ}
    (h : g.Fits keys dims) : g.Formed keys dims := by
  obtain ⟨hnodup, hsized, hfits, hlisted⟩ := h.accords
  refine ⟨hnodup, hsized, fun f hf => ?_, hlisted⟩
  cases f with
  | dense blocks rhs => exact hfits _ hf
  | arrays blocks rhs => exact (hfits _ hf).elim

theorem LinearGraph.Formed.accords_flat {g : LinearGraph ℝ} {keys : List Key} {dims : Table ℕ}
    (h : g.Formed keys dims) : g.flat.Accords keys dims where
  nodup := h.nodup
  sized := h.sized
  fits := List.forall_mem_map.mpr fun f hf => (h.formed f hf).fits_flat
  listed := List.forall_mem_map.mpr fun f hf => f.keys_flat.symm ▸ h.listed f hf

/-- **Where both ways of elimination return, they return the same step**, in every state that the solver
    with fronts can be in, also for factors of arrays and for variables of the size zero. -/
theorem MultifrontalSolver.solve_agrees {order : EliminationOrder} {dims : Table ℕ}
    {s : MultifrontalSolver ℝ} (hs : Reachable order dims s) {g : LinearGraph ℝ}
    (hg : g.Formed order.keys dims) {net : Option (BayesNet ℝ)} {d d' : Delta ℝ}
    (hd : (SequentialSolver.solve ⟨order, dims, net⟩ g).result = .ok d)
    (hd' : (s.solve g).result = .ok d') : d' = d := by
  obtain ⟨rfl, rfl, hcoherent⟩ := hs.coherent
  have hflat : ∀ f ∈ g.factors, f.Flattens s.dims := fun f hf => (hg.formed f hf).flattens
  have hsolved := SequentialSolver.isSolvedBy_of_solve ⟨s.order, s.dims, net⟩ hg.accords_flat
    (SequentialSolver.solve_flat _ hflat hd)
  have hsolved' := isSolvedBy_of_solve hcoherent hg.accords_flat (solve_flat hcoherent hflat hd')
  exact hsolved'.unique hsolved

end LeastSquares
