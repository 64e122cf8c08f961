/-
  LeastSquares/Proofs/RightHandSides.lean
  =======================================
  **What right-hand sides have to do with being solvable.**

  Two problems of the same blocks are eliminated side by side.  While the right-hand sides are no longer
  than one, they decide nothing: a solver returns for both, or names the same variable for both.  A longer
  right-hand side raises the bound for the pivots, so that a problem which is solved with a small one may
  be refused, but never the other way round.
-/
import LeastSquares.Proofs.SideBySide
import LeastSquares.Proofs.Solvability

namespace LeastSquares

open Vec LinearFactor

variable {order : EliminationOrder} {dims : Table ℕ} {g g' : LinearGraph ℝ}

/-! ### Waiting factors -/

/-- Two factors of the same blocks that wait for the same. -/
def SameWaiting {κ : Type} (e e' : κ × LinearFactor ℝ) : Prop := e.1 = e'.1 ∧ SameBlocks e.2 e'.2

section

variable {κ : Type} {pending pending' : List (κ × LinearFactor ℝ)}
  (h : List.Forall₂ SameWaiting pending pending')

include h

theorem filter_sameWaiting (here : κ → Bool) : List.Forall₂ SameWaiting
    (pending.filter fun e => here e.1) (pending'.filter fun e => here e.1) :=
  List.rel_filter (fun e e' he => show here e.1 ↔ here e'.1 by rw [he.1]) h

theorem map_snd_sameWaiting : List.Forall₂ SameBlocks (pending.map Prod.snd) (pending'.map Prod.snd) := by
  rw [List.forall₂_map_left_iff, List.forall₂_map_right_iff]
  exact h.imp fun _ _ he => he.2

end

theorem mapM_sameWaiting {κ : Type} {factors factors' : List (LinearFactor ℝ)}
    (hsame : List.Forall₂ SameBlocks factors factors') {pending pending' : List (κ × LinearFactor ℝ)}
    {assign : LinearFactor ℝ → Except Error (κ × LinearFactor ℝ)}
    (hassign : ∀ f f' e e', SameBlocks f f' → assign f = .ok e → assign f' = .ok e' → SameWaiting e e')
    (h : factors.mapM assign = .ok pending) (h' : factors'.mapM assign = .ok pending') :
    List.Forall₂ SameWaiting pending pending' := by
  rw [mapM_eq_ok_iff] at h h'
  induction hsame generalizing pending pending' with
  | nil =>
    cases h
    cases h'
    exact .nil
  | cons hhead _ ih =>
    cases h with
    | cons hfirst h =>
      cases h' with
      | cons hfirst' h' => exact .cons (hassign _ _ _ _ hhead hfirst hfirst') (ih h h')

/-- Two problems of the same blocks. -/
def LinearGraph.SameBlocks (g g' : LinearGraph ℝ) : Prop :=
  List.Forall₂ LinearFactor.SameBlocks g.factors g'.factors

namespace LinearGraph.SameBlocks

theorem structureKey_eq (h : g.SameBlocks g') : g.structureKey = g'.structureKey :=
  LinearFactor.SameBlocks.map_eq LinearFactor.SameBlocks.keys_eq h

theorem fits (h : g.SameBlocks g') (hg : g.Fits order.keys dims) : g'.Fits order.keys dims := by
  have hpartner : ∀ f' ∈ g'.factors, ∃ f ∈ g.factors, LinearFactor.SameBlocks f f' := by
    intro f' hf'
    obtain ⟨i, hi, rfl⟩ := List.mem_iff_getElem.mp hf'
    have hi' : i < g.factors.length := h.length_eq ▸ hi
    exact ⟨_, List.getElem_mem hi', List.Forall₂.get h hi' hi⟩
  refine ⟨hg.nodup, hg.sized, fun f' hf' => ?_, fun f' hf' key hkey => ?_⟩
  · obtain ⟨f, hf, hsame⟩ := hpartner f' hf'
    exact hsame.fits (hg.fits f hf)
  · obtain ⟨f, hf, hsame⟩ := hpartner f' hf'
    exact hg.listed f hf key (hsame.keys_eq ▸ hkey)

theorem filter (h : g.SameBlocks g') : List.Forall₂ LinearFactor.SameBlocks
    (g.factors.filter fun f => !f.keys.isEmpty) (g'.factors.filter fun f => !f.keys.isEmpty) :=
  List.rel_filter (fun f f' hf => show !f.keys.isEmpty ↔ !f'.keys.isEmpty by rw [hf.keys_eq]) h

end LinearGraph.SameBlocks

/-! ### One variable after another -/

namespace BayesNet

theorem waiting_sameWaiting {u u' : Option (LinearFactor ℝ)} (h : Option.Rel SameBlocks u u') :
    List.Forall₂ SameWaiting (waiting u) (waiting u') := by
  cases h with
  | none => exact .nil
  | @some f f' hsame =>
    rw [waiting, waiting, hsame.keys_eq]
    cases f'.keys with
    | nil => exact .nil
    | cons key keys => exact .cons ⟨rfl, hsame⟩ .nil

theorem assign_sameWaiting (hsame : g.SameBlocks g') {position : Table ℕ}
    {pending pending' : List (Key × LinearFactor ℝ)} (h : assign position g = .ok pending)
    (h' : assign position g' = .ok pending') : List.Forall₂ SameWaiting pending pending' := by
  refine mapM_sameWaiting hsame.filter (fun f f' e e' hsame he he' => ?_) h h'
  obtain ⟨key, hkey, he⟩ := bind_eq_ok.mp he
  obtain ⟨key', hkey', he'⟩ := bind_eq_ok.mp he'
  rw [hsame.keys_eq, hkey', Except.ok.injEq] at hkey
  cases he
  cases he'
  exact ⟨hkey.symm, hsame⟩

variable {M M' : Assignment → ℝ}

/-- **A run keeps up with another** of the same blocks. -/
theorem eliminateAll_keepsUp (hnodup : order.keys.Nodup)
    (hsized : ∀ key ∈ order.keys, ∃ n, dims.get? key = some n ∧ 0 < n) (hsmall : M 0 ≤ 1)
    {todo : List Key} (hsuffix : todo <:+ order.keys) {pending pending' : List (Key × LinearFactor ℝ)}
    (hready : ∀ e ∈ pending, Ready order dims todo e) (hready' : ∀ e ∈ pending', Ready order dims todo e)
    {made made' : List (Conditional ℝ)}
    (h : Underway order dims M todo.reverse made (pending.map Prod.snd))
    (h' : Underway order dims M' todo.reverse made' (pending'.map Prod.snd))
    (hsame : List.Forall₂ SameWaiting pending pending') :
    KeepsUp (M' 0 ≤ 1) (fun _ _ => True) (eliminateAll dims order.positions todo pending)
      (eliminateAll dims order.positions todo pending') := by
  induction todo generalizing pending pending' made made' with
  | nil => exact .ok trivial
  | cons key keys ih =>
    obtain ⟨hleads, -⟩ := leads_of_ready hnodup hsuffix hready
    obtain ⟨hleads', -⟩ := leads_of_ready hnodup hsuffix hready'
    have hmine := map_snd_sameWaiting (filter_sameWaiting hsame fun k => decide (k = key))
    have hothers := filter_sameWaiting hsame fun k => !decide (k = key)
    have hstep := Elimination.eliminate_keepsUp hsized (List.cons_ne_nil key []) hleads hleads' hmine
      ((h.next_le (filter_pending_perm pending key) 0).1.trans hsmall)
      (h'.next_le (filter_pending_perm pending' key) 0).1.trans
    rw [eliminateAll_cons, eliminateAll_cons]
    refine hstep.bind fun found found' hfound hfound' hleft => ?_
    obtain ⟨c, u⟩ := found
    obtain ⟨c', u'⟩ := found'
    obtain ⟨hnext, hunderway⟩ := underway_next hnodup hsuffix hready h hfound
    obtain ⟨hnext', hunderway'⟩ := underway_next hnodup hsuffix hready' h' hfound'
    exact (ih ((List.suffix_cons key keys).trans hsuffix) hnext hnext' hunderway hunderway'
      (List.rel_append hothers (waiting_sameWaiting hleft))).bind fun _ _ _ _ _ => .ok trivial

end BayesNet

/-! ### Front after front -/

namespace BayesTree

open FrontForest

/-- What comes of a run over fronts: its conditionals, or the failure that ends it. -/
def outcomeOf (found : List (Conditional ℝ) × Option Error) : Except Error (List (Conditional ℝ)) :=
  match found.2 with
  | none => .ok found.1
  | some e => .error e

theorem outcomeOf_cons (position frontOf : Table ℕ) (count index : ℕ) (front : Front) (fronts : List Front)
    (pending : List (Parcel ℝ)) :
    outcomeOf (eliminateFronts dims position frontOf count index (front :: fronts)
      (pending.map Parcel.waiting)) = (do
        let found ← Elimination.eliminate ((pending.filter fun p => p.front = index).map (·.factor))
          front.frontals dims position
        let more ← routeUpdate frontOf count found.2
        let rest ← outcomeOf (eliminateFronts dims position frontOf count (index + 1) fronts
          (pending.map Parcel.waiting ++ more))
        return found.1 :: rest) := by
  rw [eliminateFronts, mine_eq]
  cases Elimination.eliminate ((pending.filter fun p => p.front = index).map (·.factor)) front.frontals
      dims position with
  | error e => rfl
  | ok found =>
    obtain ⟨c, u⟩ := found
    simp only [bind, Except.bind]
    cases routeUpdate frontOf count u with
    | error e => rfl
    | ok more =>
      simp only [outcomeOf]
      cases (eliminateFronts dims position frontOf count (index + 1) fronts
        (pending.map Parcel.waiting ++ more)).2 <;> rfl

theorem assign_sameWaiting (hsame : g.SameBlocks g') {position frontOf : Table ℕ} {count : ℕ}
    {pending pending' : List (ℕ × LinearFactor ℝ)} (h : assign position frontOf count g = .ok pending)
    (h' : assign position frontOf count g' = .ok pending') : List.Forall₂ SameWaiting pending pending' := by
  refine mapM_sameWaiting hsame.filter (fun f f' e e' hsame he he' => ?_) h h'
  obtain ⟨key, hkey, he⟩ := bind_eq_ok.mp he
  obtain ⟨index, hindex, he⟩ := bind_eq_ok.mp he
  obtain ⟨key', hkey', he'⟩ := bind_eq_ok.mp he'
  obtain ⟨index', hindex', he'⟩ := bind_eq_ok.mp he'
  rw [hsame.keys_eq, hkey', Except.ok.injEq] at hkey
  rw [← hkey, hindex', Except.ok.injEq] at hindex
  cases he
  cases he'
  exact ⟨hindex.symm, hsame⟩

theorem routeUpdate_keepsUp {u u' : Option (LinearFactor ℝ)} (h : Option.Rel SameBlocks u u')
    (frontOf : Table ℕ) (count : ℕ) (level : Prop) : KeepsUp level (List.Forall₂ SameWaiting)
      (routeUpdate frontOf count u) (routeUpdate frontOf count u') := by
  cases h with
  | none => exact .ok .nil
  | @some f f' hsame =>
    have hroute : ∀ f : LinearFactor ℝ, routeUpdate frontOf count (some f) =
        (itemAt f.keys 0 >>= route frontOf count).map fun index => [(index, f)] := by
      intro f
      simp only [routeUpdate, bind, Except.bind]
      cases itemAt f.keys 0 with
      | error e => rfl
      | ok key => cases route frontOf count key <;> rfl
    rw [hroute, hroute, hsame.keys_eq]
    cases itemAt f'.keys 0 >>= route frontOf count with
    | error e => exact .error fun _ => rfl
    | ok index => exact .ok (.cons ⟨rfl, hsame⟩ .nil)

variable {M M' : Assignment → ℝ} {table : Table (List Key)} {forest : FrontForest}

/-- **A run over fronts keeps up with another** of the same blocks. -/
theorem eliminateFronts_keepsUp (h : IsSupernodal order g table forest)
    (hsized : ∀ key ∈ order.keys, ∃ n, dims.get? key = some n ∧ 0 < n) (hsmall : M 0 ≤ 1) {index : ℕ}
    {fronts : List Front} (hfronts : forest.fronts.drop index = fronts) {pending pending' : List (Parcel ℝ)}
    (hbelongs : ∀ p ∈ pending, Belongs forest p.front p.factor)
    (hbelongs' : ∀ p ∈ pending', Belongs forest p.front p.factor)
    (hat : AtFront order dims M index fronts pending) (hat' : AtFront order dims M' index fronts pending')
    (hsame : List.Forall₂ SameWaiting (pending.map Parcel.waiting) (pending'.map Parcel.waiting)) :
    KeepsUp (M' 0 ≤ 1) (fun _ _ => True)
      (outcomeOf (eliminateFronts dims order.positions forest.frontOf forest.fronts.length index fronts
        (pending.map Parcel.waiting)))
      (outcomeOf (eliminateFronts dims order.positions forest.frontOf forest.fronts.length index fronts
        (pending'.map Parcel.waiting))) := by
  induction fronts generalizing index pending pending' with
  | nil => exact .ok trivial
  | cons front fronts ih =>
    have hfront : forest.fronts[index]? = some front := by
      have hhead := congrArg (·[0]?) hfronts
      simpa using hhead
    have hne : front.frontals ≠ [] := (h.ascending front (List.mem_of_getElem? hfront)).1
    obtain ⟨hleads, hmissed⟩ := hat.leads h hfront hbelongs
    obtain ⟨hleads', hmissed'⟩ := hat'.leads h hfront hbelongs'
    have hmine := map_snd_sameWaiting (filter_sameWaiting hsame fun i => decide (i = index))
    rw [mine_eq, mine_eq] at hmine
    have hstep := Elimination.eliminate_keepsUp hsized hne hleads hleads' hmine ((hmissed 0).trans hsmall)
      (hmissed' 0).trans
    rw [outcomeOf_cons, outcomeOf_cons]
    refine hstep.bind fun found found' hfound hfound' hleft => ?_
    obtain ⟨c, u⟩ := found
    obtain ⟨c', u'⟩ := found'
    refine (routeUpdate_keepsUp hleft _ _ _).bind fun more more' hmore hmore' hsent => ?_
    obtain ⟨sent, rfl⟩ := exists_parcels more
    obtain ⟨sent', rfl⟩ := exists_parcels more'
    obtain ⟨hlater, hnext⟩ := hat.next h hfront hbelongs hfound hmore
    obtain ⟨hlater', hnext'⟩ := hat'.next h hfront hbelongs' hfound' hmore'
    rw [← List.map_append, ← List.map_append]
    refine (ih (by simpa using congrArg (List.drop 1) hfronts) hlater hlater' hnext hnext' ?_).bind
      fun _ _ _ _ _ => .ok trivial
    rw [List.map_append, List.map_append]
    exact List.rel_append hsame hsent

end BayesTree

/-! ### The solvers -/

theorem LinearFactor.misfit_zero {f : LinearFactor ℝ} (hfits : f.Fits dims) :
    f.misfit 0 = squares f.rhsArray.data := by
  have hneg : ∀ xs : Vec ℝ, squares (Vec.neg xs) = squares xs := by
    intro xs
    have := squares_map_mul (-1) xs
    simpa [Vec.neg] using this
  rw [misfit, missed_zero hfits, hneg]

theorem LinearGraph.misfit_zero {keys : List Key} (hg : g.Accords keys dims) :
    g.misfit 0 = squares g.rhs := by
  have hsum : ∀ factors : List (LinearFactor ℝ), (∀ f ∈ factors, f.Fits dims) →
      (factors.map (LinearFactor.misfit 0)).sum = squares (factors.flatMap (·.rhsArray.data)) := by
    intro factors
    induction factors with
    | nil => exact fun _ => rfl
    | cons f factors ih =>
      intro hfits
      rw [List.map_cons, List.sum_cons, LinearFactor.misfit_zero (hfits f (by simp)),
        ih fun f hf => hfits f (List.mem_cons_of_mem _ hf), List.flatMap_cons, squares_append]
  exact hsum g.factors hg.fits

namespace SequentialSolver

theorem solve_eq_error (s : SequentialSolver ℝ) (hg : g.Fits s.order.keys s.dims)
    {pending : List (Key × LinearFactor ℝ)} (hassign : BayesNet.assign s.order.positions g = .ok pending)
    (e : Error) : BayesNet.eliminateAll s.dims s.order.positions s.order.keys pending = .error e ↔
      (s.solve g).result = .error e := by
  have heliminate : BayesNet.eliminate s.order s.dims g =
      (BayesNet.eliminateAll s.dims s.order.positions s.order.keys pending).map BayesNet.mk := by
    simp only [BayesNet.eliminate, hassign, bind, Except.bind]
    cases BayesNet.eliminateAll s.dims s.order.positions s.order.keys pending <;> rfl
  cases hcs : BayesNet.eliminateAll s.dims s.order.positions s.order.keys pending with
  | error e' =>
    rw [hcs] at heliminate
    have herror : (s.solve g).result = .error e' := by rw [solve, heliminate]; rfl
    rw [herror, Except.error.injEq, Except.error.injEq]
  | ok cs =>
    rw [hcs] at heliminate
    obtain ⟨d, hd, -⟩ := BayesNet.solution_of_eliminate hg.accords heliminate
    have hok : (s.solve g).result = .ok d := by
      rw [solve, heliminate]
      exact hd
    rw [hok]
    simp

/-- **The solver keeps up** with itself on a problem of the same blocks. -/
theorem solve_keepsUp (hg : g.Fits order.keys dims) (hsame : g.SameBlocks g') (hsmall : g.misfit 0 ≤ 1)
    (net net' : Option (BayesNet ℝ)) : KeepsUp (g'.misfit 0 ≤ 1) (fun _ _ => True)
      (solve ⟨order, dims, net⟩ g).result (solve ⟨order, dims, net'⟩ g').result := by
  have hg' := hsame.fits hg
  obtain ⟨pending, hassign, hready, hstart⟩ := BayesNet.assign_underway hg.accords
  obtain ⟨pending', hassign', hready', hstart'⟩ := BayesNet.assign_underway hg'.accords
  refine (BayesNet.eliminateAll_keepsUp hg.nodup hg.sized hsmall (List.suffix_refl _) hready hready' hstart
    hstart' (BayesNet.assign_sameWaiting hsame hassign hassign')).congr ?_ ?_
  · exact solve_eq_error ⟨order, dims, net⟩ hg hassign
  · exact solve_eq_error ⟨order, dims, net'⟩ hg' hassign'

end SequentialSolver

namespace MultifrontalSolver

open FrontForest BayesTree

theorem solve_eq_error {s : MultifrontalSolver ℝ} (hs : s.Coherent) (hg : g.Fits s.order.keys s.dims)
    {forest : FrontForest} (hforest : ofGraph s.order g = .ok forest) {pending : List (Parcel ℝ)}
    (hassign : assign s.order.positions forest.frontOf forest.fronts.length g =
      .ok (pending.map Parcel.waiting)) (e : Error) :
    outcomeOf (eliminateFronts s.dims s.order.positions forest.frontOf forest.fronts.length 0 forest.fronts
      (pending.map Parcel.waiting)) = .error e ↔ (s.solve g).result = .error e := by
  obtain ⟨done, left, calls, hfronts, hrun, ⟨hleft, hfound⟩ | ⟨_, _, found, e', _, hfound, _⟩⟩ :=
    eliminateFronts_cases s.dims s.order.positions forest.frontOf forest.fronts.length 0 forest.fronts
      pending
  · obtain ⟨-, -, hok⟩ := eliminate_eq hs hforest hassign hfound
    rw [hleft, List.append_nil] at hfronts
    have ht := hok rfl (by rw [List.length_map, hrun.length_calls, hfronts])
    obtain ⟨d, hd, -⟩ := solve_of_eliminate hs hg ht
    rw [hfound, hd, outcomeOf]
    simp
  · obtain ⟨-, herror, -⟩ := eliminate_eq hs hforest hassign hfound
    have hresult : (s.solve g).result = .error e' := by simp only [solve, herror e' rfl]
    rw [hfound, hresult, outcomeOf, Except.error.injEq, Except.error.injEq]

/-- **The solver keeps up** with itself on a problem of the same blocks, whatever the states. -/
theorem solve_keepsUp {s s' : MultifrontalSolver ℝ} (hs : s.Reachable order dims)
    (hs' : s'.Reachable order dims) (hg : g.Fits order.keys dims) (hsame : g.SameBlocks g')
    (hsmall : g.misfit 0 ≤ 1) : KeepsUp (g'.misfit 0 ≤ 1) (fun _ _ => True) (s.solve g).result
      (s'.solve g').result := by
  have hg' := hsame.fits hg
  obtain ⟨horder, hdims, hcoherent⟩ := hs.coherent
  obtain ⟨horder', hdims', hcoherent'⟩ := hs'.coherent
  obtain ⟨table, -, hforest, hspec⟩ := ofGraph_isSupernodal hg.nodup hg.listed
  obtain ⟨table', -, hforest', hspec'⟩ := ofGraph_isSupernodal hg'.nodup hg'.listed
  -- the fronts are those of what the factors are about, which is the same
  have hfronts := ofGraph_congr order hsame.structureKey_eq
  rw [hforest, hforest', Except.ok.injEq] at hfronts
  rw [← hfronts] at hforest' hspec'
  obtain ⟨pending, hassign, htagged, hbelongs⟩ := BayesTree.assign_eq_ok hspec hg.listed
  obtain ⟨pending', hassign', htagged', hbelongs'⟩ := BayesTree.assign_eq_ok hspec' hg'.listed
  refine (eliminateFronts_keepsUp hspec hg.sized hsmall (List.drop_zero) hbelongs hbelongs'
    (hspec.atFront_of_tagged hg.accords htagged hbelongs)
    (hspec'.atFront_of_tagged hg'.accords htagged' hbelongs')
    (assign_sameWaiting hsame hassign hassign')).congr ?_ ?_
  · subst horder hdims
    exact solve_eq_error hcoherent hg hforest hassign
  · subst horder' hdims'
    exact solve_eq_error hcoherent' hg' hforest' hassign'

end MultifrontalSolver

/-! ### One number -/

namespace OneNumber

open Elimination

def alone : EliminationOrder := ⟨[.number 0]⟩

def sizes : Table ℕ := [(.number 0, 1)]

/-- The number is to be as given. -/
noncomputable def problem (b : ℝ) : LinearGraph ℝ := ⟨[equation (.number 0) 1 b]⟩

def forest : FrontForest := ⟨[⟨[.number 0], [], none, []⟩], [(.number 0, 0)]⟩

theorem problem_fits (b : ℝ) : (problem b).Fits alone.keys sizes := LinearGraph.fits_equation _ _ _

theorem problem_sameBlocks (b b' : ℝ) : (problem b).SameBlocks (problem b') := .cons (.dense _ rfl) .nil

/-- The number is refused when it is not small beside the reciprocal of the tolerance. -/
theorem eliminate_number (b : ℝ) :
    eliminate [equation (.number 0) 1 b] [.number 0] sizes alone.positions =
      if 1e9 ≤ |b| then .error (.indeterminate (.number 0))
      else .ok (⟨[.number 0], [], sizes, ⟨1, [[1]]⟩, ⟨0, [[]]⟩, [b]⟩, none) := by
  have hbound : |(1 : ℝ)| ≤ 1e-9 * max 1 (max |1| |b|) ↔ 1e9 ≤ |b| := by
    rw [abs_one, ← max_assoc, max_self]
    rcases max_cases 1 |b| with ⟨hmax, hle⟩ | ⟨hmax, -⟩
    · rw [hmax]
      exact iff_of_false (by norm_num) fun hlarge => by linarith
    · rw [hmax]
      constructor <;> intro h <;> linarith
  rw [eliminate_equation_eq rfl]
  simp only [hbound]

theorem sequential_eliminate (b : ℝ) : BayesNet.eliminate alone sizes (problem b) =
    if 1e9 ≤ |b| then .error (.indeterminate (.number 0))
    else .ok ⟨[⟨[.number 0], [], sizes, ⟨1, [[1]]⟩, ⟨0, [[]]⟩, [b]⟩]⟩ := by
  have hassign : BayesNet.assign alone.positions (problem b) =
      .ok [(.number 0, equation (.number 0) 1 b)] := rfl
  have hkeys : alone.keys = [.number 0] := rfl
  simp only [BayesNet.eliminate, hassign, bind, Except.bind, hkeys, BayesNet.eliminateAll_cons]
  by_cases hlarge : 1e9 ≤ |b| <;>
    simp [eliminate_number, hlarge, BayesNet.eliminateAll, pure, Except.pure]

theorem multifrontal_eliminate (b : ℝ) : BayesTree.eliminateFronts sizes alone.positions forest.frontOf
    forest.fronts.length 0 forest.fronts [(0, equation (.number 0) 1 b)] =
    if 1e9 ≤ |b| then ([], some (.indeterminate (.number 0)))
    else ([⟨[.number 0], [], sizes, ⟨1, [[1]]⟩, ⟨0, [[]]⟩, [b]⟩], none) := by
  by_cases hlarge : 1e9 ≤ |b| <;>
    simp [forest, BayesTree.eliminateFronts, eliminate_number, hlarge, BayesTree.routeUpdate]

theorem sequential_solve (b : ℝ) :
    (1e9 ≤ |b| → (SequentialSolver.solve ⟨alone, sizes, none⟩ (problem b)).result =
      .error (.indeterminate (.number 0))) ∧
    (|b| < 1e9 → ∃ d, (SequentialSolver.solve ⟨alone, sizes, none⟩ (problem b)).result = .ok d) := by
  have heliminate := sequential_eliminate b
  constructor
  · intro hlarge
    rw [if_pos hlarge] at heliminate
    simp only [SequentialSolver.solve, heliminate]
  · intro hsmall
    rw [if_neg (not_le.mpr hsmall)] at heliminate
    obtain ⟨d, hd, -⟩ := BayesNet.solution_of_eliminate (problem_fits b).accords heliminate
    exact ⟨d, by simp only [SequentialSolver.solve, heliminate]; exact hd⟩

/-- A solver that has not been used. -/
def fresh : MultifrontalSolver ℝ := ⟨alone, sizes, none, ⟨[], []⟩, [], none⟩

theorem fresh_reachable : fresh.Reachable alone sizes := .fresh

theorem multifrontal_solve (b : ℝ) :
    (1e9 ≤ |b| → (fresh.solve (problem b)).result = .error (.indeterminate (.number 0))) ∧
    (|b| < 1e9 → ∃ d, (fresh.solve (problem b)).result = .ok d) := by
  have hcoherent := fresh_reachable.coherent.2.2
  have hforest : FrontForest.ofGraph alone (problem b) = .ok forest := rfl
  have hassign : BayesTree.assign alone.positions forest.frontOf forest.fronts.length (problem b) =
      .ok [(0, equation (.number 0) 1 b)] := rfl
  have heliminate := multifrontal_eliminate b
  constructor
  · intro hlarge
    rw [if_pos hlarge] at heliminate
    obtain ⟨-, herror, -⟩ := MultifrontalSolver.eliminate_eq hcoherent hforest hassign heliminate
    simp only [MultifrontalSolver.solve, herror _ rfl]
  · intro hsmall
    rw [if_neg (not_le.mpr hsmall)] at heliminate
    obtain ⟨-, -, hok⟩ := MultifrontalSolver.eliminate_eq hcoherent hforest hassign heliminate
    obtain ⟨d, hd, -⟩ := MultifrontalSolver.solve_of_eliminate hcoherent (problem_fits b) (hok rfl rfl)
    exact ⟨d, hd⟩

end OneNumber

/-! ### Two problems of the same blocks -/

/-- **Right-hand sides that are no longer than one do not decide what is solvable.**  For two problems of
    the same blocks whose right-hand sides are that small, a solver names the same variable for both, or
    returns for both, whatever its states.  When only the first is that small, both solvers still fail for
    the second wherever they fail for the first. -/
theorem solvable_of_same_blocks {s s' : MultifrontalSolver ℝ} (hs : s.Reachable order dims)
    (hs' : s'.Reachable order dims) (hg : g.Fits order.keys dims) (hsame : g.SameBlocks g')
    (hsmall : squares g.rhs ≤ 1) (net net' : Option (BayesNet ℝ)) :
    (squares g'.rhs ≤ 1 → ∀ key,
      ((SequentialSolver.solve ⟨order, dims, net⟩ g).result = .error (.indeterminate key) ↔
        (SequentialSolver.solve ⟨order, dims, net'⟩ g').result = .error (.indeterminate key)) ∧
      ((s.solve g).result = .error (.indeterminate key) ↔
        (s'.solve g').result = .error (.indeterminate key))) ∧
    (NamesUndetermined order.keys (SequentialSolver.solve ⟨order, dims, net⟩ g).result →
      NamesUndetermined order.keys (SequentialSolver.solve ⟨order, dims, net'⟩ g').result) ∧
    (NamesUndetermined order.keys (s.solve g).result →
      NamesUndetermined order.keys (s'.solve g').result) := by
  have hg' := hsame.fits hg
  rw [← g.misfit_zero hg.accords] at hsmall
  rw [← g'.misfit_zero hg'.accords]
  have hone := SequentialSolver.solve_keepsUp hg hsame hsmall net net'
  have hmany := MultifrontalSolver.solve_keepsUp hs hs' hg hsame hsmall
  refine ⟨fun hsmall' key => ⟨hone.error_iff hsmall' _, hmany.error_iff hsmall' _⟩, ?_, ?_⟩
  · rintro ⟨key, -, herror⟩
    obtain ⟨e, he⟩ := hone.exists_error herror
    refine (SequentialSolver.solve_outcome ⟨order, dims, net'⟩ hg').resolve_right ?_
    rintro ⟨d, hd⟩
    rw [he] at hd
    cases hd
  · rintro ⟨key, -, herror⟩
    obtain ⟨e, he⟩ := hmany.exists_error herror
    obtain ⟨rfl, rfl, hcoherent'⟩ := hs'.coherent
    refine (s'.solve_outcome hcoherent' hg').resolve_right ?_
    rintro ⟨d, hd⟩
    rw [he] at hd
    cases hd

namespace TwoNumbers

theorem tied_sameBlocks (b b' : ℝ) : (tied b).SameBlocks (tied b') := .cons (.dense _ rfl) .nil

theorem problem_sameBlocks (b c b' c' : ℝ) : (problem b c).SameBlocks (problem b' c') :=
  .cons (.dense _ rfl) (.cons (.dense _ rfl) .nil)

theorem squares_rhs_tied (b : ℝ) : squares (tied b).rhs = b ^ 2 := by
  simp [tied, gap, LinearGraph.rhs, LinearFactor.rhsArray, Tensor.ofVector]

theorem squares_rhs_problem (b c : ℝ) : squares (problem b c).rhs = b ^ 2 + c ^ 2 := by
  simp [problem, gap, Elimination.equation, LinearGraph.rhs, LinearFactor.rhsArray, Tensor.ofVector]

/-- With a difference and a second number that are small, either number is named for both pairs or for
    neither.  Where the difference alone is given, a number is named for zero, and so it is for a great one. -/
theorem solvable_of_same_blocks_together :
    (problem 0 0).Fits inTurn.keys sizes ∧ (problem 0 0).SameBlocks (problem 0 1) ∧
    squares (problem 0 0).rhs ≤ 1 ∧ squares (problem 0 1).rhs ≤ 1 ∧
    (∀ key, ((SequentialSolver.solve ⟨inTurn, sizes, none⟩ (problem 0 0)).result =
          .error (.indeterminate key) ↔
        (SequentialSolver.solve ⟨inTurn, sizes, none⟩ (problem 0 1)).result = .error (.indeterminate key)) ∧
      ((fresh.solve (problem 0 0)).result = .error (.indeterminate key) ↔
        (fresh.solve (problem 0 1)).result = .error (.indeterminate key))) ∧
    (tied 0).Fits inTurn.keys sizes ∧ (tied 0).SameBlocks (tied 1e10) ∧ squares (tied 0).rhs ≤ 1 ∧
    NamesUndetermined inTurn.keys (SequentialSolver.solve ⟨inTurn, sizes, none⟩ (tied 0)).result ∧
    NamesUndetermined inTurn.keys (SequentialSolver.solve ⟨inTurn, sizes, none⟩ (tied 1e10)).result ∧
    NamesUndetermined inTurn.keys (fresh.solve (tied 1e10)).result := by
  have hzero : squares (problem 0 0).rhs ≤ 1 := by rw [squares_rhs_problem]; norm_num
  have hone : squares (problem 0 1).rhs ≤ 1 := by rw [squares_rhs_problem]; norm_num
  have htied : squares (tied 0).rhs ≤ 1 := by rw [squares_rhs_tied]; norm_num
  obtain ⟨hiff, -, -⟩ := solvable_of_same_blocks fresh_reachable fresh_reachable (problem_fits 0 0)
    (problem_sameBlocks 0 0 0 1) hzero none none
  obtain ⟨-, hsequential, hmultifrontal⟩ := solvable_of_same_blocks fresh_reachable fresh_reachable
    (tied_fits 0) (tied_sameBlocks 0 1e10) htied none none
  obtain ⟨hnet, htree⟩ := both_name fresh_reachable (tied_fits 0) none (not_isSteep_tied 0 _)
  exact ⟨problem_fits 0 0, problem_sameBlocks 0 0 0 1, hzero, hone, hiff hone, tied_fits 0,
    tied_sameBlocks 0 1e10, htied, hnet, hsequential hnet, hmultifrontal htree⟩

end TwoNumbers

namespace OneNumber

/-- **A right-hand side decides whether the number is determined.**  Its block is one, and both solvers
    return for zero, but refuse ten billion. -/
theorem side_decides : (problem 0).Fits alone.keys sizes ∧ (problem 1e10).Fits alone.keys sizes ∧
    (problem 0).SameBlocks (problem 1e10) ∧
    (∃ d, (SequentialSolver.solve ⟨alone, sizes, none⟩ (problem 0)).result = .ok d) ∧
    (∃ d, (fresh.solve (problem 0)).result = .ok d) ∧
    (SequentialSolver.solve ⟨alone, sizes, none⟩ (problem 1e10)).result =
      .error (.indeterminate (.number 0)) ∧
    (fresh.solve (problem 1e10)).result = .error (.indeterminate (.number 0)) := by
  have hsmall : |(0 : ℝ)| < 1e9 := by norm_num
  have hlarge : (1e9 : ℝ) ≤ |1e10| := by norm_num
  exact ⟨problem_fits 0, problem_fits 1e10, problem_sameBlocks 0 1e10, (sequential_solve 0).2 hsmall,
    (multifrontal_solve 0).2 hsmall, (sequential_solve 1e10).1 hlarge, (multifrontal_solve 1e10).1 hlarge⟩

end OneNumber

end LeastSquares
