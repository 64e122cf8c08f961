/-
  LeastSquares/Proofs/RewrittenFactors.lean
  =========================================
  **Factors that stack the same rows are eliminated alike.**

  An elimination sees of its factors what they are about and the rows that they stack.  So factors can be
  rewritten, as long as they keep both, and a factor that an elimination has left is kept as it is.
  Where a solver returns, it then returns the same for the factors as they are rewritten.
-/
import LeastSquares.Proofs.SequentialElimination
import LeastSquares.Proofs.SolverHistories

namespace LeastSquares

variable {α : Type}

namespace LinearFactor

/-- The factor has matrices that are as wide as their variables, as those that elimination leaves. -/
def IsCut (dims : Table ℕ) : LinearFactor α → Prop
  | dense blocks _ => ∀ entry ∈ blocks, dims.get? entry.1 = some entry.2.width
  | arrays _ _ => False

/-- Factors are rewritten to factors about the same variables, and those that elimination leaves not at
    all. -/
structure Rewrites (dims : Table ℕ) (φ : LinearFactor α → LinearFactor α) : Prop where
  keys_eq : ∀ f, (φ f).keys = f.keys
  cut_eq : ∀ f, f.IsCut dims → φ f = f

variable [Scalar α]

/-- Where the rows of a factor can be stacked, they are those of the factor as it is rewritten. -/
def KeepsRows (dims : Table ℕ) (φ : LinearFactor α → LinearFactor α) (f : LinearFactor α) : Prop :=
  ∀ columns width rows, Elimination.stackedRows dims columns width f = .ok rows →
    Elimination.stackedRows dims columns width (φ f) = .ok rows ∧ (φ f).rows = f.rows

variable {dims : Table ℕ} {φ : LinearFactor α → LinearFactor α} {f : LinearFactor α}

theorem IsCut.keepsRows (h : f.IsCut dims) (hφ : Rewrites dims φ) : f.KeepsRows dims φ := by
  intro columns width rows hrows
  rw [hφ.cut_eq f h]
  exact ⟨hrows, rfl⟩

end LinearFactor

open LinearFactor

/-- The problem with its factors rewritten. -/
def LinearGraph.rewrite (φ : LinearFactor α → LinearFactor α) (g : LinearGraph α) : LinearGraph α :=
  ⟨g.factors.map φ⟩

/-- Waiting factors, rewritten. -/
def rewriteAll {κ : Type} (φ : LinearFactor α → LinearFactor α) (pending : List (κ × LinearFactor α)) :
    List (κ × LinearFactor α) :=
  pending.map fun e => (e.1, φ e.2)

section

variable {κ : Type} (φ : LinearFactor α → LinearFactor α)

theorem rewriteAll_filter (pending : List (κ × LinearFactor α)) (p : κ → Bool) :
    (rewriteAll φ pending).filter (fun e => p e.1) =
      rewriteAll φ (pending.filter fun e => p e.1) := by
  rw [rewriteAll, List.filter_map]
  rfl

theorem rewriteAll_factors (pending : List (κ × LinearFactor α)) :
    (rewriteAll φ pending).map Prod.snd = (pending.map Prod.snd).map φ := by
  simp [rewriteAll]

variable {φ}

theorem rewriteAll_append {more : List (κ × LinearFactor α)} (hmore : ∀ e ∈ more, φ e.2 = e.2)
    (pending : List (κ × LinearFactor α)) :
    rewriteAll φ (pending ++ more) = rewriteAll φ pending ++ more := by
  have hsame : rewriteAll φ more = more :=
    (List.map_congr_left fun e he => by rw [hmore e he, id]).trans (List.map_id _)
  rw [rewriteAll, List.map_append, ← rewriteAll, ← rewriteAll, hsame]

theorem forall_mem_filter_factors {P : LinearFactor α → Prop} {pending : List (κ × LinearFactor α)}
    (h : ∀ e ∈ pending, P e.2) (p : κ → Bool) :
    ∀ f ∈ (pending.filter fun e => p e.1).map Prod.snd, P f := by
  intro f hf
  obtain ⟨e, he, rfl⟩ := List.mem_map.mp hf
  exact h e (List.mem_filter.mp he).1

end

variable [Scalar α]
variable {dims position frontOf : Table ℕ} {factors : List (LinearFactor α)} {frontals : List Key}
  {φ : LinearFactor α → LinearFactor α}

/-! ### One elimination -/

namespace Elimination

omit [Scalar α] in
theorem separatorOf_rewrite (hφ : Rewrites dims φ) (factors : List (LinearFactor α))
    (frontals : List Key) (position : Table ℕ) :
    separatorOf (factors.map φ) frontals position = separatorOf factors frontals position := by
  simp only [separatorOf, List.flatMap_map, hφ.keys_eq]

theorem stacked_rewrite {columns : Table ℕ} {width : ℕ} {stacked : List (List (Vec α))}
    (hkeeps : ∀ f ∈ factors, f.KeepsRows dims φ)
    (h : factors.mapM (stackedRows dims columns width) = .ok stacked) :
    (factors.map φ).mapM (stackedRows dims columns width) = .ok stacked ∧
      (factors.map φ).map (·.rows) = factors.map (·.rows) := by
  induction factors generalizing stacked with
  | nil => exact ⟨h, rfl⟩
  | cons f factors ih =>
    rw [List.mapM_cons] at h
    obtain ⟨rows, hrows, h⟩ := bind_eq_ok.mp h
    obtain ⟨others, hothers, h⟩ := bind_eq_ok.mp h
    cases h
    obtain ⟨hsame, hheight⟩ := hkeeps f (by simp) _ _ _ hrows
    obtain ⟨hrest, hheights⟩ := ih (fun g hg => hkeeps g (List.mem_cons_of_mem _ hg)) hothers
    refine ⟨?_, by simp only [List.map_cons, hheight, hheights]⟩
    rw [List.map_cons, List.mapM_cons, hsame, hrest]
    rfl

/-- **An elimination that returns** returns the same for the factors as they are rewritten. -/
theorem eliminate_rewrite (hφ : Rewrites dims φ) (hkeeps : ∀ f ∈ factors, f.KeepsRows dims φ)
    {c : Conditional α} {u : Option (LinearFactor α)}
    (h : eliminate factors frontals dims position = .ok (c, u)) :
    eliminate (factors.map φ) frontals dims position = .ok (c, u) := by
  obtain ⟨t, ht, -, -⟩ := eliminate_eq_ok h
  obtain ⟨hstacked, hheights⟩ := stacked_rewrite hkeeps ht.stacked_eq
  rw [← h]
  simp only [eliminate, separatorOf_rewrite hφ, ht.separator_eq, ht.columns_eq, bind, Except.bind,
    hstacked, ht.stacked_eq, hheights]

theorem isCut_of_eliminate {c : Conditional α} {u : Option (LinearFactor α)}
    (h : eliminate factors frontals dims position = .ok (c, u)) {f : LinearFactor α} (hf : u = some f) :
    f.IsCut dims := by
  obtain ⟨t, -, -, ⟨hnone, -⟩ | ⟨-, -, blocks, hsome, hblocks⟩⟩ := eliminate_eq_ok h
  · rw [hf] at hnone
    cases hnone
  · rw [hf] at hsome
    cases hsome
    intro entry hentry
    obtain ⟨key, -, column, dim, -, hdim, rfl⟩ := exists_right_of_mem hblocks.flip hentry
    exact hdim

end Elimination

/-! ### Solvers -/

omit [Scalar α] in
/-- Factors are assigned by what they are about, and are kept as they are. -/
theorem assign_rewrite {κ : Type} (hφ : Rewrites dims φ) (place : List Key → Except Error κ)
    {g : LinearGraph α} {pending : List (κ × LinearFactor α)}
    (h : (g.factors.filter fun f => !f.keys.isEmpty).mapM (fun f => do
      let key ← place f.keys
      return (key, f)) = .ok pending) :
    ((g.rewrite φ).factors.filter fun f => !f.keys.isEmpty).mapM (fun f => do
      let key ← place f.keys
      return (key, f)) = .ok (rewriteAll φ pending) ∧ ∀ e ∈ pending, e.2 ∈ g.factors := by
  constructor
  · have hfilter : ((g.rewrite φ).factors.filter fun f => !f.keys.isEmpty) =
        (g.factors.filter fun f => !f.keys.isEmpty).map φ := by
      rw [LinearGraph.rewrite, List.filter_map]
      congr 1
      exact List.filter_congr fun f _ => by simp [hφ.keys_eq]
    rw [hfilter, rewriteAll, mapM_eq_ok_iff, List.forall₂_map_left_iff, List.forall₂_map_right_iff]
    refine (mapM_eq_ok_iff.mp h).imp fun f e he => ?_
    obtain ⟨key, hkey, he⟩ := bind_eq_ok.mp he
    cases he
    rw [hφ.keys_eq, hkey]
    rfl
  · intro e he
    obtain ⟨f, hf, he⟩ := exists_of_mem_mapM h he
    obtain ⟨key, -, he⟩ := bind_eq_ok.mp he
    cases he
    exact (List.mem_filter.mp hf).1

theorem BayesNet.eliminateAll_rewrite (hφ : Rewrites dims φ) {keys : List Key}
    {pending : List (Key × LinearFactor α)} (hkeeps : ∀ e ∈ pending, e.2.KeepsRows dims φ)
    {cs : List (Conditional α)} (h : eliminateAll dims position keys pending = .ok cs) :
    eliminateAll dims position keys (rewriteAll φ pending) = .ok cs := by
  induction keys generalizing pending cs with
  | nil => exact h
  | cons key keys ih =>
    rw [BayesNet.eliminateAll_cons] at h ⊢
    obtain ⟨⟨c, u⟩, heliminate, h⟩ := bind_eq_ok.mp h
    obtain ⟨cs, hcs, h⟩ := bind_eq_ok.mp h
    cases h
    have hmine := forall_mem_filter_factors hkeeps fun k => k = key
    -- what is left of an elimination is cut, so it waits unchanged among the others
    have hwaiting : ∀ e ∈ waiting u, e.2.IsCut dims := by
      intro e he
      cases u with
      | none => simp [waiting] at he
      | some f =>
        obtain ⟨key, -, rfl⟩ := List.mem_map.mp he
        exact Elimination.isCut_of_eliminate heliminate rfl
    have hleft : ∀ e ∈ pending.filter (fun e => !decide (e.1 = key)) ++ waiting u,
        e.2.KeepsRows dims φ := fun e he => (List.mem_append.mp he).elim
      (fun he => hkeeps e (List.mem_filter.mp he).1) fun he => (hwaiting e he).keepsRows hφ
    have hrest := ih hleft hcs
    rw [rewriteAll_append fun e he => hφ.cut_eq _ (hwaiting e he)] at hrest
    rw [rewriteAll_filter φ pending fun k => k = key, rewriteAll_factors,
      Elimination.eliminate_rewrite hφ hmine heliminate,
      rewriteAll_filter φ pending fun k => !decide (k = key)]
    exact bind_eq_ok.mpr ⟨_, rfl, bind_eq_ok.mpr ⟨cs, hrest, rfl⟩⟩

theorem BayesNet.eliminate_rewrite (hφ : Rewrites dims φ) {order : EliminationOrder}
    {g : LinearGraph α} (hg : ∀ f ∈ g.factors, f.KeepsRows dims φ) {net : BayesNet α}
    (h : eliminate order dims g = .ok net) : eliminate order dims (g.rewrite φ) = .ok net := by
  obtain ⟨pending, hpending, h⟩ := bind_eq_ok.mp h
  obtain ⟨cs, hcs, h⟩ := bind_eq_ok.mp h
  obtain ⟨hassign, hmem⟩ := assign_rewrite hφ (earliest order.positions) hpending
  have hall := eliminateAll_rewrite hφ (fun e he => hg e.2 (hmem e he)) hcs
  exact bind_eq_ok.mpr ⟨_, hassign, bind_eq_ok.mpr ⟨cs, hall, h⟩⟩

theorem BayesTree.eliminateFronts_rewrite (hφ : Rewrites dims φ) {count index : ℕ}
    {fronts : List Front} {pending : List (ℕ × LinearFactor α)}
    (hkeeps : ∀ e ∈ pending, e.2.KeepsRows dims φ) {found : List (Conditional α)}
    (h : eliminateFronts dims position frontOf count index fronts pending = (found, none)) :
    eliminateFronts dims position frontOf count index fronts (rewriteAll φ pending) =
      (found, none) := by
  induction fronts generalizing index pending found with
  | nil => exact h
  | cons front fronts ih =>
    rw [eliminateFronts] at h ⊢
    have hmine := forall_mem_filter_factors hkeeps fun i => i = index
    cases heliminate : Elimination.eliminate ((pending.filter fun e => e.1 = index).map Prod.snd)
        front.frontals dims position with
    | error e =>
      simp only [heliminate] at h
      cases h
    | ok left =>
      obtain ⟨c, u⟩ := left
      cases hroute : routeUpdate frontOf count u with
      | error e =>
        simp only [heliminate, hroute] at h
        cases h
      | ok more =>
        have hmore : ∀ e ∈ more, e.2.IsCut dims := by
          intro e he
          have hmem : e.2 ∈ u.toList := routeUpdate_factors hroute ▸ List.mem_map_of_mem he
          exact Elimination.isCut_of_eliminate heliminate (Option.mem_toList.mp hmem)
        simp only [heliminate, hroute, Prod.mk.injEq] at h
        obtain ⟨rfl, hfailure⟩ := h
        have hleft : ∀ e ∈ pending ++ more, e.2.KeepsRows dims φ := fun e he =>
          (List.mem_append.mp he).elim (hkeeps e) fun he => (hmore e he).keepsRows hφ
        have hrest := ih hleft (Prod.ext rfl hfailure)
        rw [rewriteAll_append fun e he => hφ.cut_eq _ (hmore e he)] at hrest
        rw [rewriteAll_filter φ pending fun k => k = index, rewriteAll_factors,
          Elimination.eliminate_rewrite hφ hmine heliminate]
        simp only [hroute, hrest]

theorem BayesTree.ofGraph_rewrite (hφ : Rewrites dims φ) {order : EliminationOrder}
    {g : LinearGraph α} (hg : ∀ f ∈ g.factors, f.KeepsRows dims φ) {t : BayesTree α}
    (h : ofGraph order dims g = .ok t) : ofGraph order dims (g.rewrite φ) = .ok t := by
  obtain ⟨forest, hforest, h⟩ := bind_eq_ok.mp h
  obtain ⟨pending, hpending, h⟩ := bind_eq_ok.mp h
  have hkey : (g.rewrite φ).structureKey = g.structureKey := by
    simp [LinearGraph.structureKey, LinearGraph.rewrite, Function.comp_def, hφ.keys_eq]
  obtain ⟨hassign, hmem⟩ := assign_rewrite hφ (fun keys => do
    let key ← earliest order.positions keys
    route forest.frontOf forest.fronts.length key)
      (by simpa only [assign, bind_assoc] using hpending)
  split at h
  · cases h
  · next found hfound =>
    have hall := eliminateFronts_rewrite hφ (fun e he => hg e.2 (hmem e he)) hfound
    refine bind_eq_ok.mpr ⟨forest, (FrontForest.ofGraph_congr order hkey).trans hforest,
      bind_eq_ok.mpr ⟨_, by simpa only [assign, bind_assoc] using hassign, ?_⟩⟩
    rw [hall]
    exact h

theorem MultifrontalSolver.eliminate_rewrite {s : MultifrontalSolver α} (hs : s.Coherent)
    (hφ : Rewrites s.dims φ) {g : LinearGraph α} (hg : ∀ f ∈ g.factors, f.KeepsRows s.dims φ)
    {t : BayesTree α} (ht : (s.eliminate g).result = .ok t) :
    (s.eliminate (g.rewrite φ)).result = .ok t := by
  rw [eliminate_result hs] at ht ⊢
  exact BayesTree.ofGraph_rewrite hφ hg ht

end LeastSquares
