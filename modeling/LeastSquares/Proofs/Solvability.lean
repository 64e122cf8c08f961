/-
  LeastSquares/Proofs/Solvability.lean
  ====================================
  **Which problems the two solvers can solve.**

  A column of the stacked matrix may be close to a combination of the columns before it.  Where that is
  so within the tolerance, both solvers name a variable that is not determined.  Where no column is so
  close even at the scale of the matrix, both return the solution.
-/
import LeastSquares.Proofs.MultifrontalElimination
import LeastSquares.Proofs.Pivots

namespace LeastSquares

open Vec Matrix

variable {order : EliminationOrder} {dims : Table ℕ} {g : LinearGraph ℝ}

/-! ### Pivots of the stacked matrix -/

namespace LinearGraph

/-- A column of the stacked matrix is within a bound of a combination of the columns before it. -/
def HasPivotWithin (g : LinearGraph ℝ) (keys : List Key) (dims : Table ℕ) (bound : ℝ) : Prop :=
  ∃ A, g.stackedMatrix keys dims = .ok A ∧ ∃ (column : Fin A.width) (y : Fin A.width → ℝ),
    y column = 1 ∧ (∀ i, column < i → y i = 0) ∧
      (A.toMatrix *ᵥ y) ⬝ᵥ (A.toMatrix *ᵥ y) ≤ bound ^ 2

/-- The columns of the stacked matrix and the right-hand side are no longer than a bound. -/
def HasColumnsWithin (g : LinearGraph ℝ) (keys : List Key) (dims : Table ℕ) (bound : ℝ) : Prop :=
  ∃ A, g.stackedMatrix keys dims = .ok A ∧ (∀ column, ∑ i, A.toMatrix i column ^ 2 ≤ bound ^ 2) ∧
    ∑ i : Fin A.rows.length, g.rhs.entry i ^ 2 ≤ bound ^ 2

theorem curvature_eq_dotProduct {keys : List Key} (hg : g.Accords keys dims) :
    ∃ A, g.stackedMatrix keys dims = .ok A ∧ A.width = dims.widthOf keys ∧
      g.misfit 0 = ∑ i : Fin A.rows.length, g.rhs.entry i ^ 2 ∧
      ∀ x : Assignment, curvature g.misfit x = (A.toMatrix *ᵥ fun j => x.along dims keys j) ⬝ᵥ
        (A.toMatrix *ᵥ fun j => x.along dims keys j) := by
  obtain ⟨A, hA, hwidth, hmisfit⟩ := misfit_eq_distanceSq hg
  have hzero : (fun j : Fin A.width => Assignment.along dims 0 keys j) = 0 :=
    funext fun j => Assignment.along_zero keys j
  refine ⟨A, hA, hwidth, ?_, fun x => ?_⟩
  · rw [hmisfit, hzero, distanceSq, mulVec_zero]
    simp
  · obtain ⟨w, hw⟩ : ∃ w, w = fun j : Fin A.width => x.along dims keys j := ⟨_, rfl⟩
    have hneg : (fun j : Fin A.width => (-x).along dims keys j) = 0 + (-1 : ℝ) • w := by
      rw [hw]
      funext j
      simp [Assignment.along_neg]
    have hpos : w = 0 + (1 : ℝ) • w := by simp
    rw [curvature, hmisfit, hmisfit, hmisfit, hneg, hzero, ← hw, distanceSq_add_smul]
    nth_rewrite 1 [hpos]
    rw [distanceSq_add_smul]
    ring

/-- Columns that end at one of them are those of an assignment that ends there. -/
theorem exists_endsAt (hnodup : order.keys.Nodup) {width : ℕ} (hwidth : width = dims.widthOf order.keys)
    {column : Fin width} {y : Fin width → ℝ} (hone : y column = 1) (hzero : ∀ i, column < i → y i = 0) :
    ∃ x : Assignment, (fun j : Fin width => x.along dims order.keys j) = y ∧
      ∃ key ∈ order.keys, ∃ j < dims.dimOf key, x.EndsAt order dims key j := by
  obtain ⟨v, hv⟩ : ∃ v : ℕ → ℝ, v = fun j => if h : j < width then y ⟨j, h⟩ else 0 := ⟨_, rfl⟩
  have hvalue : ∀ j : Fin width, v j = y j := fun j => by simp [hv]
  have hbehind : ∀ j, dims.widthOf order.keys ≤ j → v j = 0 := fun j hj => by
    simp [hv, hwidth, not_lt.mpr hj]
  obtain ⟨x, -, hx, hpadded⟩ := Elimination.exists_direction
    (by rwa [List.append_nil] : (order.keys ++ []).Nodup) hbehind
  obtain ⟨key, hkey, j, hj, hcolumn⟩ :=
    Table.exists_columnOf hnodup (hwidth ▸ column.isLt : (column : ℕ) < dims.widthOf order.keys)
  refine ⟨x, ?_, key, hkey, j, hj, by rw [hx key hkey j hj, ← hcolumn, hvalue, hone],
    fun other hother i hi hbeyond => ?_⟩
  · funext j
    rw [← hvalue, ← hpadded, List.append_nil, Elimination.padded, if_pos (hwidth ▸ j.isLt)]
  · have hroom := Table.columnOf_add_dimOf_le dims hother
    have hlt := (EliminationOrder.columnOf_lt_iff (EliminationOrder.pairwise_place hnodup) (fun _ h => h)
      hkey hother hj hi).mpr hbeyond
    rw [hx other hother i hi, hvalue ⟨dims.columnOf order.keys other + i, by omega⟩]
    exact hzero _ (by rw [Fin.lt_def]; simpa [hcolumn] using hlt)

/-- A problem is steep by a bound when no pivot of its stacked matrix is within the bound. -/
theorem isSteep_iff (hg : g.Accords order.keys dims) (bound : ℝ) :
    IsSteep order dims g.misfit bound ↔ ¬ g.HasPivotWithin order.keys dims bound := by
  obtain ⟨A, hA, hwidth, -, hcurvature⟩ := curvature_eq_dotProduct hg
  constructor
  · rintro hsteep ⟨A', hA', column, y, hone, hzero, hsmall⟩
    rw [hA] at hA'
    cases hA'
    obtain ⟨x, halong, key, hkey, j, hj, hends⟩ := exists_endsAt hg.nodup hwidth hone hzero
    have hcurve := hsteep key hkey j hj x hends
    rw [hcurvature, halong] at hcurve
    exact absurd hsmall (not_le.mpr hcurve)
  · intro hnone key hkey j hj x hx
    by_contra hsmall
    have hascending := EliminationOrder.pairwise_place hg.nodup
    have hroom := Table.columnOf_add_dimOf_le dims hkey
    have hlt : dims.columnOf order.keys key + j < A.width := by omega
    refine hnone ⟨A, hA, ⟨_, hlt⟩, fun i => x.along dims order.keys i, ?_, fun i hi => ?_, ?_⟩
    · simp only [Assignment.along_columnOf x hkey hj, hx.one]
    · obtain ⟨other, hother, i', hi', hcolumn⟩ :=
        Table.exists_columnOf hg.nodup (hwidth ▸ i.isLt : (i : ℕ) < dims.widthOf order.keys)
      rw [Fin.lt_def, hcolumn] at hi
      simp only [hcolumn, Assignment.along_columnOf x hother hi']
      exact hx.zero other hother i' hi'
        ((EliminationOrder.columnOf_lt_iff hascending (fun _ h => h) hkey hother hj hi').mp hi)
    · rw [← hcurvature]
      exact not_lt.mp hsmall

/-- A problem is scaled by a bound when the columns of its stacked matrix and the right-hand side are no
    longer. -/
theorem isScaled_iff (hg : g.Accords order.keys dims) (bound : ℝ) :
    IsScaled order dims g.misfit bound ↔ g.HasColumnsWithin order.keys dims bound := by
  obtain ⟨A, hA, hwidth, hzero, hcurvature⟩ := curvature_eq_dotProduct hg
  have hcolumn : ∀ key ∈ order.keys, ∀ j < dims.dimOf key, ∀ column : Fin A.width,
      (column : ℕ) = dims.columnOf order.keys key + j →
        curvature g.misfit (.unit key j) = ∑ i, A.toMatrix i column ^ 2 := by
    intro key hkey j hj column hplace
    have hunit : (fun i : Fin A.width => (Assignment.unit key j).along dims order.keys i) =
        Pi.single column 1 := by
      funext i
      rw [Assignment.along_unit hg.nodup hkey hj (hwidth ▸ i.isLt), Pi.single_apply, ← hplace]
      simp only [Fin.ext_iff]
    rw [hcurvature, hunit, mulVec_single_one]
    exact Finset.sum_congr rfl fun i _ => (sq _).symm
  constructor
  · intro h
    refine ⟨A, hA, fun column => ?_, hzero ▸ h.rhs⟩
    obtain ⟨key, hkey, j, hj, hplace⟩ :=
      Table.exists_columnOf hg.nodup (hwidth ▸ column.isLt : (column : ℕ) < dims.widthOf order.keys)
    rw [← hcolumn key hkey j hj column hplace]
    exact h.columns key hkey j hj
  · rintro ⟨A', hA', hcolumns, hrhs⟩
    rw [hA] at hA'
    cases hA'
    refine ⟨hzero ▸ hrhs, fun key hkey j hj => ?_⟩
    have hroom := Table.columnOf_add_dimOf_le dims hkey
    have hlt : dims.columnOf order.keys key + j < A.width := by omega
    rw [hcolumn key hkey j hj ⟨_, hlt⟩ rfl]
    exact hcolumns _

end LinearGraph

/-! ### One variable after another -/

theorem Gauges.of_outcome {β γ : Type} {M : Assignment → ℝ} {outcome : Except Error β}
    {outcome' : Except Error γ} (h : Gauges order dims M outcome)
    (hok : ∀ c, outcome' = .ok c → ∃ b, outcome = .ok b)
    (herror : ∀ e, outcome' = .error e → ∃ e', outcome = .error e') : Gauges order dims M outcome' :=
  ⟨fun c hc => (hok c hc).elim h.steep, fun e he => (herror e he).elim h.flat⟩

namespace BayesNet

variable {M : Assignment → ℝ}

theorem map_snd_waiting {u : Option (LinearFactor ℝ)} (hne : ∀ f, u = some f → f.keys ≠ []) :
    (waiting u).map Prod.snd = u.toList := by
  cases u with
  | none => rfl
  | some f =>
    cases hkeys : f.keys with
    | nil => exact (hne f rfl hkeys).elim
    | cons key keys => simp [waiting, hkeys]

/-- The factors that wait for the next variable are led by it, and no other factor is about it. -/
theorem leads_of_ready (hnodup : order.keys.Nodup) {key : Key} {keys : List Key}
    (hsuffix : key :: keys <:+ order.keys) {pending : List (Key × LinearFactor ℝ)}
    (hready : ∀ e ∈ pending, Ready order dims (key :: keys) e) :
    Leads order dims [key] ((pending.filter fun e => e.1 = key).map Prod.snd) ∧
      ∀ f ∈ (pending.filter fun e => !decide (e.1 = key)).map Prod.snd, ∀ k ∈ f.keys, k ∉ [key] := by
  have hkey : key ∈ order.keys := hsuffix.subset (by simp)
  refine ⟨⟨List.pairwise_singleton _ _, by simpa using hkey, ?_, ?_⟩, ?_⟩
  · refine List.forall_mem_map.mpr fun e he => ?_
    exact (hready e (List.mem_filter.mp he).1).fits
  · refine List.forall_mem_map.mpr fun e he other hother hne => ?_
    obtain ⟨he, hwaits⟩ := List.mem_filter.mp he
    have hready := (hready e he).waits
    rw [of_decide_eq_true hwaits] at hready
    refine ⟨hready.listed other hother, List.forall_mem_singleton.mpr ?_⟩
    refine lt_of_le_of_ne (hready.first other hother) fun heq => hne ?_
    rw [← EliminationOrder.place_inj hkey heq]
    simp
  · refine List.forall_mem_map.mpr fun e he k hk hmem => ?_
    obtain ⟨he, hother⟩ := List.mem_filter.mp he
    obtain ⟨hwaits, hlater, -⟩ := hready e he
    rw [List.mem_singleton.mp hmem] at hk
    obtain ⟨before, hbefore⟩ := hsuffix
    have hbehind := (EliminationOrder.mem_after_iff hnodup hbefore e.1).mp
      ((List.mem_cons.mp hlater).resolve_left (by simpa using hother))
    exact absurd (hwaits.first key hk) (not_le.mpr hbehind.2)

theorem filter_pending_perm (pending : List (Key × LinearFactor ℝ)) (key : Key) :
    (pending.map Prod.snd).Perm ((pending.filter fun e => e.1 = key).map Prod.snd ++
      (pending.filter fun e => !decide (e.1 = key)).map Prod.snd) := by
  rw [← List.map_append]
  exact ((List.filter_append_perm (fun e => decide (e.1 = key)) pending).map Prod.snd).symm

/-- **One variable of a run**, in a problem that is being eliminated. -/
theorem underway_next (hnodup : order.keys.Nodup) {key : Key} {keys : List Key}
    (hsuffix : key :: keys <:+ order.keys) {pending : List (Key × LinearFactor ℝ)}
    (hready : ∀ e ∈ pending, Ready order dims (key :: keys) e) {made : List (Conditional ℝ)}
    (h : Underway order dims M (key :: keys).reverse made (pending.map Prod.snd)) {c : Conditional ℝ}
    {u : Option (LinearFactor ℝ)}
    (heliminate : Elimination.eliminate ((pending.filter fun e => e.1 = key).map Prod.snd) [key] dims
      order.positions = .ok (c, u)) :
    (∀ e ∈ pending.filter (fun e => !decide (e.1 = key)) ++ waiting u, Ready order dims keys e) ∧
      Underway order dims M keys.reverse (c :: made)
        ((pending.filter (fun e => !decide (e.1 = key)) ++ waiting u).map Prod.snd) := by
  obtain ⟨hleads, hothers⟩ := leads_of_ready hnodup hsuffix hready
  obtain ⟨-, -, -, hleft⟩ := Elimination.eliminate_keys heliminate
  rw [List.reverse_cons] at h
  have hstep := h.step (filter_pending_perm pending key) hleads hothers heliminate
  rw [← map_snd_waiting fun f hf => (hleft f hf).2 ▸ (hleft f hf).1, ← List.map_append] at hstep
  exact ⟨(eliminate_step hnodup hsuffix hready heliminate).1, hstep⟩

/-- **A run gauges the problem** that it is a part of. -/
theorem eliminateAll_gauges (hnodup : order.keys.Nodup)
    (hsized : ∀ key ∈ order.keys, ∃ n, dims.get? key = some n ∧ 0 < n) {todo : List Key}
    (hsuffix : todo <:+ order.keys) {pending : List (Key × LinearFactor ℝ)}
    (hready : ∀ e ∈ pending, Ready order dims todo e) {made : List (Conditional ℝ)}
    (h : Underway order dims M todo.reverse made (pending.map Prod.snd)) :
    Gauges order dims M (eliminateAll dims order.positions todo pending) := by
  induction todo generalizing pending made with
  | nil => exact ⟨fun _ _ => h.isSteep, fun e he => (by cases he)⟩
  | cons key keys ih =>
    rw [eliminateAll_cons]
    cases heliminate : Elimination.eliminate ((pending.filter fun e => e.1 = key).map Prod.snd) [key]
        dims order.positions with
    | error e =>
      obtain ⟨hleads, hothers⟩ := leads_of_ready hnodup hsuffix hready
      obtain ⟨t, column, -, hformed, hfails, -⟩ := hleads.fails hsized (List.cons_ne_nil _ _) heliminate
      have hstacks := hformed.stacks hleads.nodup hleads.fits
      rw [List.reverse_cons] at h
      exact ⟨fun _ hb => (by cases hb), fun _ _ K hK hscaled =>
        h.not_isSteep (filter_pending_perm pending key) hleads hothers hstacks hfails hK hscaled⟩
    | ok found =>
      obtain ⟨c, u⟩ := found
      obtain ⟨hnext, hstep⟩ := underway_next hnodup hsuffix hready h heliminate
      refine (ih ((List.suffix_cons key keys).trans hsuffix) hnext hstep).of_outcome ?_ ?_
      · intro cs hcs
        obtain ⟨_, hsame, hcs⟩ := bind_eq_ok.mp hcs
        cases hsame
        obtain ⟨rest, hrest, -⟩ := bind_eq_ok.mp hcs
        exact ⟨rest, hrest⟩
      · intro e he
        simp only [bind, Except.bind] at he
        split at he
        · next e' he' => exact ⟨e', he'⟩
        · cases he

theorem assign_underway (hg : g.Accords order.keys dims) :
    ∃ pending, assign order.positions g = .ok pending ∧
      (∀ e ∈ pending, Ready order dims order.keys e) ∧
      Underway order dims g.misfit order.keys.reverse [] (pending.map Prod.snd) := by
  obtain ⟨pending, hassign, hfactors, hready⟩ := assign_ready hg
  obtain ⟨rest, hrest, hsplit⟩ := LinearGraph.misfit_eq_filter hg
  refine ⟨pending, hassign, hready, List.nodup_reverse.mpr hg.nodup, by simp, by simp, .nil _, ?_, ?_,
    rest, hrest, fun x => ?_⟩
  · exact List.forall_mem_map.mpr fun e he => (hready e he).fits
  · exact List.forall_mem_map.mpr fun e he key hkey =>
      List.mem_reverse.mpr ((hready e he).waits.listed key hkey)
  · rw [hfactors, List.map_nil, List.sum_nil, zero_add, hsplit]

/-- **Elimination gauges its problem.** -/
theorem eliminate_gauges (hg : g.Fits order.keys dims) :
    Gauges order dims g.misfit (eliminate order dims g) := by
  obtain ⟨pending, hassign, hready, hstart⟩ := assign_underway hg.accords
  refine (eliminateAll_gauges hg.nodup hg.sized (List.suffix_refl _) hready hstart).of_outcome ?_ ?_
  · intro net hnet
    rw [eliminate, hassign] at hnet
    obtain ⟨_, hsame, hnet⟩ := bind_eq_ok.mp hnet
    cases hsame
    obtain ⟨cs, hcs, -⟩ := bind_eq_ok.mp hnet
    exact ⟨cs, hcs⟩
  · intro e he
    simp only [eliminate, hassign, bind, Except.bind] at he
    split at he
    · next e' he' => exact ⟨e', he'⟩
    · cases he

end BayesNet

theorem SequentialSolver.solve_gauges (s : SequentialSolver ℝ) (hg : g.Fits s.order.keys s.dims) :
    Gauges s.order s.dims g.misfit (s.solve g).result := by
  refine (BayesNet.eliminate_gauges hg).of_outcome (fun d hd => ?_) fun e he => ?_
  · rw [solve] at hd
    split at hd
    · cases hd
    · next net hnet => exact ⟨net, hnet⟩
  · rw [solve] at he
    split at he
    · next e' he' => exact ⟨e', he'⟩
    · next net hnet =>
      obtain ⟨d, hd, -⟩ := BayesNet.solution_of_eliminate hg.accords hnet
      simp only [hd] at he
      cases he

/-! ### Front after front -/

namespace FrontForest

open BayesTree

variable {M : Assignment → ℝ} {table : Table (List Key)} {forest : FrontForest}

theorem IsSupernodal.place_lt (h : IsSupernodal order g table forest) {index : ℕ} {front : Front}
    (hfront : forest.fronts[index]? = some front) {key other : Key} (hkey : key ∈ front.frontals)
    (hother : other ∈ front.separator) : order.place key < order.place other := by
  obtain ⟨before, after, hsplit⟩ := List.append_of_mem hkey
  refine h.separates.place_lt (h.listed hfront (List.mem_append_left _ hkey)) ?_
  exact (h.separator_iff front (List.mem_of_getElem? hfront) _ _ _ hsplit other).mpr
    (List.mem_append_right _ hother)

theorem IsSupernodal.nodup_flatMap (h : IsSupernodal order g table forest) :
    (forest.fronts.reverse.flatMap (·.frontals)).Nodup := by
  refine List.nodup_flatMap.mpr ⟨fun front hfront => h.nodup_frontals (List.mem_reverse.mp hfront), ?_⟩
  rw [List.pairwise_reverse, List.pairwise_iff_getElem]
  intro i j hi hj hij key hj' hi'
  have hfirst := (h.frontOf_iff key i).mpr ⟨_, List.getElem?_eq_getElem hi, hi'⟩
  rw [(h.frontOf_iff key j).mpr ⟨_, List.getElem?_eq_getElem hj, hj'⟩, Option.some.injEq] at hfirst
  omega

theorem IsSupernodal.mem_flatMap (h : IsSupernodal order g table forest) {key : Key}
    (hkey : key ∈ order.keys) : key ∈ forest.fronts.reverse.flatMap (·.frontals) := by
  obtain ⟨index, hindex⟩ := (h.covers key).mp hkey
  obtain ⟨front, hfront, hmem⟩ := (h.frontOf_iff key index).mp hindex
  exact List.mem_flatMap.mpr ⟨front, List.mem_reverse.mpr (List.mem_of_getElem? hfront), hmem⟩

/-- The factors that wait for a front are led by its variables, and no factor that waits for a later
    front is about them. -/
theorem IsSupernodal.leads (h : IsSupernodal order g table forest) {index : ℕ} {front : Front}
    (hfront : forest.fronts[index]? = some front) {pending : List (Parcel ℝ)}
    (hbelongs : ∀ p ∈ pending, Belongs forest p.front p.factor)
    (hfits : ∀ p ∈ pending, p.front = index → p.factor.Fits dims) :
    Leads order dims front.frontals ((pending.filter fun p => p.front = index).map (·.factor)) ∧
      ∀ f ∈ (pending.filter fun p => index + 1 ≤ p.front).map (·.factor), ∀ key ∈ f.keys,
        key ∉ front.frontals := by
  have hmine := keys_of_belongs hfront hbelongs
  refine ⟨⟨(h.ascending front (List.mem_of_getElem? hfront)).2,
    fun key hkey => h.listed hfront (List.mem_append_left _ hkey), List.forall_mem_map.mpr fun p hp => ?_,
    fun f hf other hother hnot => ?_⟩, ?_⟩
  · obtain ⟨hp, hindex⟩ := List.mem_filter.mp hp
    exact hfits p hp (of_decide_eq_true hindex)
  · have hmem := hmine f hf other hother
    have hseparator := (List.mem_append.mp hmem).resolve_left hnot
    exact ⟨h.listed hfront hmem, fun key hkey => h.place_lt hfront hkey hseparator⟩
  · refine List.forall_mem_map.mpr fun p hp key hkey hfrontal => ?_
    obtain ⟨hp, hlater⟩ := List.mem_filter.mp hp
    have hlater : index + 1 ≤ p.front := of_decide_eq_true hlater
    obtain ⟨front', hfront', hkeys⟩ := hbelongs p hp
    have hhere := (h.frontOf_iff key index).mpr ⟨front, hfront, hfrontal⟩
    rcases List.mem_append.mp (hkeys key hkey) with hmem | hmem
    · have hthere := (h.frontOf_iff key p.front).mpr ⟨front', hfront', hmem⟩
      rw [hhere, Option.some.injEq] at hthere
      omega
    · obtain ⟨next, hnext, hlt⟩ := h.later_front hfront' hmem
      rw [hhere, Option.some.injEq] at hnext
      omega

theorem filter_waiting_perm (pending : List (Parcel ℝ)) (index : ℕ) :
    ((pending.filter fun p => index ≤ p.front).map (·.factor)).Perm
      ((pending.filter fun p => p.front = index).map (·.factor) ++
        (pending.filter fun p => index + 1 ≤ p.front).map (·.factor)) := by
  have hsplit := List.filter_append_perm (fun p : Parcel ℝ => decide (p.front = index))
    (pending.filter fun p => index ≤ p.front)
  rw [List.filter_filter, List.filter_filter] at hsplit
  rw [← List.map_append]
  refine (hsplit.symm.trans (.of_eq ?_)).map _
  congr 1
  · refine List.filter_congr fun p _ => ?_
    rw [← Bool.decide_and, decide_eq_decide]
    omega
  · refine List.filter_congr fun p _ => ?_
    rw [← decide_not, ← Bool.decide_and, decide_eq_decide]
    omega

/-- The problem at a front of a run: the variables of the fronts that are left are known, and the factors
    that wait for them are left. -/
def AtFront (order : EliminationOrder) (dims : Table ℕ) (M : Assignment → ℝ) (index : ℕ)
    (fronts : List Front) (pending : List (Parcel ℝ)) : Prop :=
  ∃ made, Underway order dims M (fronts.reverse.flatMap (·.frontals)) made
    ((pending.filter fun p => index ≤ p.front).map (·.factor))

theorem IsSupernodal.atFront_of_tagged (h : IsSupernodal order g table forest)
    (hg : g.Accords order.keys dims) {pending : List (Parcel ℝ)}
    (htagged : pending.map Parcel.tagged = g.given)
    (hbelongs : ∀ p ∈ pending, Belongs forest p.front p.factor) :
    AtFront order dims g.misfit 0 forest.fronts pending := by
  obtain ⟨rest, hrest, hsplit⟩ := LinearGraph.misfit_eq_filter hg
  obtain ⟨hfactors, hfits⟩ := MultifrontalSolver.fits_of_tagged hg htagged
  have hall : pending.filter (fun p => 0 ≤ p.front) = pending := by simp
  refine ⟨[], h.nodup_flatMap, fun key hkey => ?_, by simp, .nil _, ?_, ?_, rest, hrest, fun x => ?_⟩
  · exact List.mem_append_left _ (h.mem_flatMap hkey)
  · exact hall.symm ▸ List.forall_mem_map.mpr hfits
  · refine hall.symm ▸ List.forall_mem_map.mpr fun p hp key hkey => h.mem_flatMap ?_
    obtain ⟨front, hfront, hkeys⟩ := hbelongs p hp
    exact h.listed hfront (hkeys key hkey)
  · rw [hall, hfactors, List.map_nil, List.sum_nil, zero_add, hsplit]

section

variable {index : ℕ} {front : Front} {left : List Front} {pending : List (Parcel ℝ)}
  (hat : AtFront order dims M index (front :: left) pending) (h : IsSupernodal order g table forest)
  (hfront : forest.fronts[index]? = some front)
  (hbelongs : ∀ p ∈ pending, Belongs forest p.front p.factor)

include hat h hfront hbelongs

/-- The factors that wait for a front are led by its variables, and miss no more than the problem. -/
theorem AtFront.leads :
    Leads order dims front.frontals ((pending.filter fun p => p.front = index).map (·.factor)) ∧
      ∀ x, (((pending.filter fun p => p.front = index).map (·.factor)).map
        (LinearFactor.misfit x)).sum ≤ M x := by
  obtain ⟨made, hunderway⟩ := hat
  refine ⟨(h.leads hfront hbelongs fun p hp hindex => ?_).1,
    fun x => (hunderway.next_le (filter_waiting_perm pending index) x).1⟩
  exact hunderway.fits _ (List.mem_map_of_mem (List.mem_filter.mpr ⟨hp, decide_eq_true hindex.ge⟩))

/-- **One front of a run**: what it leaves waits for a later front. -/
theorem AtFront.next {c : Conditional ℝ} {u : Option (LinearFactor ℝ)}
    (heliminate : Elimination.eliminate ((pending.filter fun p => p.front = index).map (·.factor))
      front.frontals dims order.positions = .ok (c, u)) {sent : List (Parcel ℝ)}
    (hroute : routeUpdate forest.frontOf forest.fronts.length u = .ok (sent.map Parcel.waiting)) :
    (∀ p ∈ pending ++ sent, Belongs forest p.front p.factor) ∧
      AtFront order dims M (index + 1) left (pending ++ sent) := by
  have hsent := h.sent_later hfront (keys_of_belongs hfront hbelongs) heliminate hroute
  refine ⟨fun p hp => (List.mem_append.mp hp).elim (hbelongs p) fun hp => (hsent p hp).2, ?_⟩
  obtain ⟨made, hunderway⟩ := hat
  obtain ⟨hleads, hothers⟩ := h.leads hfront hbelongs fun p hp hindex =>
    hunderway.fits _ (List.mem_map_of_mem (List.mem_filter.mpr ⟨hp, decide_eq_true hindex.ge⟩))
  rw [List.reverse_cons, List.flatMap_append, List.flatMap_singleton] at hunderway
  have hstep := hunderway.step (filter_waiting_perm pending index) hleads hothers heliminate
  have hlater : (sent.filter fun p => index + 1 ≤ p.front).map (·.factor) = u.toList := by
    have hself : (sent.filter fun p => index + 1 ≤ p.front) = sent :=
      List.filter_eq_self.mpr fun p hp => decide_eq_true (hsent p hp).1
    rw [← routeUpdate_factors hroute, List.map_map, hself]
    rfl
  rw [← hlater, ← List.map_append, ← List.filter_append] at hstep
  exact ⟨_, hstep⟩

end

end FrontForest

open FrontForest in
/-- **A run leads from front to front.** -/
theorem BayesTree.Run.atFront {M : Assignment → ℝ} {table : Table (List Key)} {forest : FrontForest}
    (h : IsSupernodal order g table forest) {index : ℕ} {done left : List Front}
    {pending : List (Parcel ℝ)} {calls : List (Call ℝ)}
    (hrun : Run dims order.positions forest.frontOf forest.fronts.length index done pending calls)
    (hfronts : forest.fronts.drop index = done ++ left)
    (hbelongs : ∀ p ∈ pending, Belongs forest p.front p.factor)
    (hstart : AtFront order dims M index (done ++ left) pending) :
    AtFront order dims M (index + done.length) left (pending ++ calls.flatMap (·.sent)) := by
  induction hrun with
  | nil index pending => simpa using hstart
  | @cons index front done pending call update calls hcall hconsumed heliminate hroute horigin hrest ih =>
    have hfront : forest.fronts[index]? = some front := by
      have hhead := congrArg (·[0]?) hfronts
      simpa using hhead
    rw [hconsumed] at heliminate
    obtain ⟨hlater, hstep⟩ := hstart.next h hfront hbelongs heliminate hroute
    have hnext := ih (by simpa using congrArg (List.drop 1) hfronts) hlater hstep
    rwa [List.flatMap_cons, List.length_cons, ← List.append_assoc, Nat.add_comm done.length 1,
      ← Nat.add_assoc]

namespace MultifrontalSolver

open FrontForest BayesTree

/-- **Elimination along the fronts gauges its problem.** -/
theorem eliminate_gauges {s : MultifrontalSolver ℝ} (hs : s.Coherent) (hg : g.Fits s.order.keys s.dims) :
    Gauges s.order s.dims g.misfit (s.eliminate g).result := by
  obtain ⟨table, forest, pending, hspec, -, -, htagged, hbelongs, hcases⟩ :=
    eliminate_cases hs hg.nodup hg.listed
  have hstart := hspec.atFront_of_tagged hg.accords htagged hbelongs
  rcases hcases with ⟨calls, hrun, hresult⟩ | ⟨done, front, left, calls, e, hfronts, hrun, hresult, hstops⟩
  · rw [hresult]
    have hall : forest.fronts.drop 0 = forest.fronts ++ [] := (List.append_nil _).symm
    obtain ⟨made, hunderway⟩ := hrun.atFront hspec hall hbelongs (by rwa [List.append_nil])
    exact ⟨fun _ _ => hunderway.isSteep, fun e he => (by cases he)⟩
  · rw [hresult]
    have hfits := (fits_of_tagged hg.accords htagged).2
    obtain ⟨⟨t, column, hstacks, hfails⟩, -⟩ := hrun.fails hspec hg.sized hfronts hbelongs hfits hstops
    obtain ⟨hall, -⟩ := hrun.sound hspec ⟨front :: left, hfronts⟩ hbelongs
    have hsizes := hrun.fits (fun f hf => hspec.nodup_frontals (hfronts ▸ List.mem_append_left _ hf)) hfits
    have hfront : forest.fronts[calls.length]? = some front := by
      rw [← hfronts, hrun.length_calls]
      simp
    obtain ⟨made, hunderway⟩ := hrun.atFront hspec hfronts.symm hbelongs (hfronts.symm ▸ hstart)
    rw [List.reverse_cons, List.flatMap_append, List.flatMap_singleton, Nat.zero_add,
      ← hrun.length_calls] at hunderway
    obtain ⟨hleads, hothers⟩ := hspec.leads hfront hall fun p hp _ => hsizes p hp
    exact ⟨fun _ hb => (by cases hb), fun _ _ K hK hscaled =>
      hunderway.not_isSteep (filter_waiting_perm _ _) hleads hothers hstacks hfails hK hscaled⟩

theorem solve_gauges {s : MultifrontalSolver ℝ} (hs : s.Coherent) (hg : g.Fits s.order.keys s.dims) :
    Gauges s.order s.dims g.misfit (s.solve g).result := by
  refine (eliminate_gauges hs hg).of_outcome (fun d hd => ?_) fun e he => ?_
  · cases ht : (s.eliminate g).result with
    | error e =>
      simp only [solve, ht] at hd
      cases hd
    | ok t => exact ⟨t, rfl⟩
  · cases ht : (s.eliminate g).result with
    | error e' => exact ⟨e', rfl⟩
    | ok t =>
      obtain ⟨d, hd, -⟩ := solve_of_eliminate hs hg ht
      rw [hd] at he
      cases he

end MultifrontalSolver

/-! ### Both solvers -/

/-- An outcome names one of some variables as not determined. -/
def NamesUndetermined {β : Type} (keys : List Key) (outcome : Except Error β) : Prop :=
  ∃ key ∈ keys, outcome = .error (.indeterminate key)

theorem SequentialSolver.solve_outcome (s : SequentialSolver ℝ) (hg : g.Fits s.order.keys s.dims) :
    NamesUndetermined s.order.keys (s.solve g).result ∨ ∃ d, (s.solve g).result = .ok d :=
  (solve_cases s hg).imp_right fun ⟨d, hd, _⟩ => ⟨d, hd⟩

theorem MultifrontalSolver.solve_outcome (s : MultifrontalSolver ℝ) (hs : s.Coherent)
    (hg : g.Fits s.order.keys s.dims) :
    NamesUndetermined s.order.keys (s.solve g).result ∨ ∃ d, (s.solve g).result = .ok d := by
  cases ht : (s.eliminate g).result with
  | ok t =>
    obtain ⟨d, hd, -⟩ := solve_of_eliminate hs hg ht
    exact .inr ⟨d, hd⟩
  | error e =>
    obtain ⟨key, hkey, rfl⟩ := indeterminate_of_eliminate hs hg ht
    exact .inl ⟨key, hkey, by simp only [solve, ht]⟩

section

variable {s : MultifrontalSolver ℝ} (hs : s.Reachable order dims) (hg : g.Fits order.keys dims)
  (net : Option (BayesNet ℝ))

include hs hg

/-- **Where a problem is steep by the tolerance at its scale**, both solvers return, and the same step. -/
theorem both_return {K : ℝ} (hK : 1 ≤ K) (hscaled : IsScaled order dims g.misfit K)
    (hsteep : IsSteep order dims g.misfit (Elimination.pivotTolerance * K)) :
    ∃ d, (SequentialSolver.solve ⟨order, dims, net⟩ g).result = .ok d ∧ (s.solve g).result = .ok d := by
  obtain ⟨rfl, rfl, hcoherent⟩ := hs.coherent
  have hone : ∃ d, (SequentialSolver.solve ⟨s.order, s.dims, net⟩ g).result = .ok d := by
    refine (SequentialSolver.solve_outcome ⟨s.order, s.dims, net⟩ hg).resolve_left ?_
    rintro ⟨key, -, herror⟩
    exact (SequentialSolver.solve_gauges ⟨s.order, s.dims, net⟩ hg).flat _ herror K hK hscaled hsteep
  have hother : ∃ d, (s.solve g).result = .ok d := by
    refine (s.solve_outcome hcoherent hg).resolve_left ?_
    rintro ⟨key, -, herror⟩
    exact (MultifrontalSolver.solve_gauges hcoherent hg).flat _ herror K hK hscaled hsteep
  obtain ⟨d, hd⟩ := hone
  obtain ⟨d', hd'⟩ := hother
  have hsolved := SequentialSolver.isSolvedBy_of_solve ⟨s.order, s.dims, net⟩ hg.accords hd
  have hsolved' := MultifrontalSolver.isSolvedBy_of_solve hcoherent hg.accords hd'
  exact ⟨d, hd, hsolved.unique hsolved' ▸ hd'⟩

/-- **Where a problem is not steep by the tolerance**, both solvers name a variable. -/
theorem both_name (hflat : ¬ IsSteep order dims g.misfit Elimination.pivotTolerance) :
    NamesUndetermined order.keys (SequentialSolver.solve ⟨order, dims, net⟩ g).result ∧
      NamesUndetermined order.keys (s.solve g).result := by
  obtain ⟨rfl, rfl, hcoherent⟩ := hs.coherent
  constructor
  · refine (SequentialSolver.solve_outcome ⟨s.order, s.dims, net⟩ hg).resolve_right ?_
    rintro ⟨d, hd⟩
    exact hflat ((SequentialSolver.solve_gauges ⟨s.order, s.dims, net⟩ hg).steep d hd)
  · refine (s.solve_outcome hcoherent hg).resolve_right ?_
    rintro ⟨d, hd⟩
    exact hflat ((MultifrontalSolver.solve_gauges hcoherent hg).steep d hd)

end

/-! ### Two numbers -/

namespace TwoNumbers

open Elimination

/-- Two numbers in the order in which they are eliminated. -/
def inTurn : EliminationOrder := ⟨[.number 0, .number 1]⟩

def sizes : Table ℕ := [(.number 0, 1), (.number 1, 1)]

/-- The numbers are eliminated together. -/
def forest : FrontForest := ⟨[⟨[.number 0, .number 1], [], none, []⟩], [(.number 0, 0), (.number 1, 0)]⟩

/-- The second number is to be ahead of the first by a given difference. -/
noncomputable def gap (b : ℝ) : LinearFactor ℝ :=
  .dense [(.number 0, ⟨1, [[-1]]⟩), (.number 1, ⟨1, [[1]]⟩)] [b]

/-- Nothing but the difference is given. -/
noncomputable def tied (b : ℝ) : LinearGraph ℝ := ⟨[gap b]⟩

/-- The difference is given, and the second number. -/
noncomputable def problem (b c : ℝ) : LinearGraph ℝ := ⟨[gap b, equation (.number 1) 1 c]⟩

/-- A solver that has not been used. -/
def fresh : MultifrontalSolver ℝ := ⟨inTurn, sizes, none, ⟨[], []⟩, [], none⟩

theorem fresh_reachable : fresh.Reachable inTurn sizes := .fresh

theorem sized : ∀ key ∈ inTurn.keys, ∃ n, sizes.get? key = some n ∧ 0 < n :=
  have hsize : ∀ key ∈ inTurn.keys, sizes.get? key = some 1 := by decide
  fun key hkey => ⟨1, hsize key hkey, Nat.one_pos⟩

theorem fits_gap (b : ℝ) : (gap b).Fits sizes := by
  refine ⟨by decide, List.forall_mem_cons.mpr ⟨?_, List.forall_mem_singleton.mpr ?_⟩⟩
  all_goals exact ⟨rfl, rfl, by simp [Mat.IsRectangular]⟩

theorem fits_second (a c : ℝ) : (equation (.number 1) a c).Fits sizes :=
  ⟨List.nodup_singleton _, List.forall_mem_singleton.mpr ⟨rfl, rfl, by simp [Mat.IsRectangular]⟩⟩

theorem tied_fits (b : ℝ) : (tied b).Fits inTurn.keys sizes :=
  ⟨by decide, sized, List.forall_mem_singleton.mpr (fits_gap b),
    List.forall_mem_singleton.mpr fun _ hkey => hkey⟩

theorem problem_fits (b c : ℝ) : (problem b c).Fits inTurn.keys sizes :=
  ⟨by decide, sized,
    List.forall_mem_cons.mpr ⟨fits_gap b, List.forall_mem_singleton.mpr (fits_second 1 c)⟩,
    List.forall_mem_cons.mpr ⟨fun _ hkey => hkey,
      List.forall_mem_singleton.mpr fun _ hkey => List.mem_cons_of_mem _ hkey⟩⟩

theorem misfit_tied (b : ℝ) (x : Assignment) :
    (tied b).misfit x = (x (.number 1) 0 - x (.number 0) 0 - b) ^ 2 := by
  have hmissed : (gap b).missed x = [-b + (-1 * x (.number 0) 0 + 0) + (1 * x (.number 1) 0 + 0)] := rfl
  simp only [tied, LinearGraph.misfit, List.map_cons, List.map_nil, List.sum_cons, List.sum_nil,
    LinearFactor.misfit, hmissed, squares_cons, squares_nil]
  ring

theorem misfit_problem (b c : ℝ) (x : Assignment) :
    (problem b c).misfit x = (x (.number 1) 0 - x (.number 0) 0 - b) ^ 2 + (x (.number 1) 0 - c) ^ 2 := by
  have hgap := misfit_tied b x
  have hmissed : (equation (.number 1) 1 c).missed x = [-c + (1 * x (.number 1) 0 + 0)] := rfl
  simp only [tied, problem, LinearGraph.misfit, List.map_cons, List.map_nil, List.sum_cons, List.sum_nil,
    add_zero] at hgap ⊢
  rw [hgap, LinearFactor.misfit, hmissed, squares_cons, squares_nil]
  ring

/-- Where both numbers change by the same, their difference does not. -/
theorem not_isSteep_tied (b bound : ℝ) : ¬ IsSteep inTurn sizes (tied b).misfit bound := by
  have hends : Assignment.EndsAt inTurn sizes (fun _ _ => 1) (.number 1) 0 := by
    refine ⟨rfl, fun other hother i hi hbeyond => ?_⟩
    have hkeys : other = .number 0 ∨ other = .number 1 := by simpa [inTurn] using hother
    rcases hkeys with rfl | rfl
    · rcases hbeyond with hlt | ⟨heq, -⟩
      · exact absurd hlt (by decide)
      · exact absurd heq (by decide)
    · rcases hbeyond with hlt | ⟨-, hlt⟩
      · exact absurd hlt (lt_irrefl _)
      · exact absurd hi (not_lt.mpr hlt)
  intro hsteep
  have hcurved := hsteep (.number 1) (by decide) 0 Nat.one_pos _ hends
  have hflat : curvature (tied b).misfit (fun _ _ => 1) = 0 := by
    simp only [curvature, misfit_tied, Pi.neg_apply, Pi.zero_apply]
    ring
  rw [hflat] at hcurved
  exact absurd hcurved (not_lt.mpr (sq_nonneg bound))

theorem curvature_problem (b c : ℝ) (x : Assignment) : curvature (problem b c).misfit x =
    (x (.number 1) 0 - x (.number 0) 0) ^ 2 + x (.number 1) 0 ^ 2 := by
  simp only [curvature, misfit_problem, Pi.neg_apply, Pi.zero_apply]
  ring

/-- Neither column comes closer than one to a multiple of the other. -/
theorem isSteep_problem (b c : ℝ) {bound : ℝ} (hbound : bound ^ 2 < 1) :
    IsSteep inTurn sizes (problem b c).misfit bound := by
  intro key hkey j hj x hends
  refine hbound.trans_le ?_
  rw [curvature_problem]
  have hkeys : key = .number 0 ∨ key = .number 1 := by simpa [inTurn] using hkey
  rcases hkeys with rfl | rfl
  · obtain rfl : j = 0 := Nat.lt_one_iff.mp hj
    have hone := hends.one
    have hzero : x (.number 1) 0 = 0 := hends.zero _ (by decide) 0 Nat.one_pos (.inl (by decide))
    rw [hone, hzero]
    norm_num
  · obtain rfl : j = 0 := Nat.lt_one_iff.mp hj
    rw [hends.one]
    linarith [sq_nonneg (1 - x (.number 0) 0)]

theorem isScaled_problem {b c bound : ℝ} (hrhs : b ^ 2 + c ^ 2 ≤ bound ^ 2) (hbound : 2 ≤ bound ^ 2) :
    IsScaled inTurn sizes (problem b c).misfit bound := by
  constructor
  · simp only [misfit_problem, Pi.zero_apply]
    linarith
  · intro key hkey j hj
    rw [curvature_problem]
    have hkeys : key = .number 0 ∨ key = .number 1 := by simpa [inTurn] using hkey
    rcases hkeys with rfl | rfl
    · obtain rfl : j = 0 := Nat.lt_one_iff.mp hj
      have hself : Assignment.unit (.number 0) 0 (.number 0) 0 = 1 := if_pos ⟨rfl, rfl⟩
      have hother : Assignment.unit (.number 0) 0 (.number 1) 0 = 0 := if_neg (by decide)
      rw [hself, hother]
      linarith
    · obtain rfl : j = 0 := Nat.lt_one_iff.mp hj
      have hself : Assignment.unit (.number 1) 0 (.number 1) 0 = 1 := if_pos ⟨rfl, rfl⟩
      have hother : Assignment.unit (.number 1) 0 (.number 0) 0 = 0 := if_neg (by decide)
      rw [hself, hother]
      linarith

/-- A step that misses least, by the squares of the two equations and a multiple of its own square, is where
    the derivatives of these are zero. -/
theorem eq_of_isSolvedBy {g : LinearGraph ℝ} (hg : g.Accords inTurn.keys sizes) {b c damping : ℝ}
    (hdamping : 0 ≤ damping)
    (hmisfit : ∀ x, g.misfit x = (x (.number 1) 0 - x (.number 0) 0 - b) ^ 2 + (x (.number 1) 0 - c) ^ 2 +
      damping * (x (.number 0) 0 ^ 2 + x (.number 1) 0 ^ 2))
    {d : Delta ℝ} (h : g.IsSolvedBy inTurn.keys sizes d) {y z : ℝ}
    (hfirst : (1 + damping) * y - z = -b) (hsecond : (2 + damping) * z - y = b + c) :
    d = ⟨[(.number 0, [y]), (.number 1, [z])]⟩ := by
  obtain ⟨hd, hlength⟩ := h.lists.eq_pieces hg.nodup
  obtain ⟨u, v, huv⟩ : ∃ u v, d.vector = [u, v] := List.length_eq_two.mp hlength
  rw [huv] at hd
  have hpieces : d = ⟨[(.number 0, [u]), (.number 1, [v])]⟩ := hd
  have hvalue : d.assignment (.number 0) 0 = u := by rw [hpieces]; rfl
  have hvalue' : d.assignment (.number 1) 0 = v := by rw [hpieces]; rfl
  have hleast := h.misfit_le hg fun key _ => if key = .number 0 then y else z
  rw [hmisfit, hmisfit, hvalue, hvalue'] at hleast
  have hne : ¬ (.number 1 : Key) = .number 0 := by decide
  simp only [if_true, if_neg hne] at hleast
  -- beyond the least value there is the square of the distance, seen by the equations
  have hexcess : (v - z - (u - y)) ^ 2 + (v - z) ^ 2 + damping * ((u - y) ^ 2 + (v - z) ^ 2) ≤ 0 := by
    obtain rfl : b = z - (1 + damping) * y := by linarith
    obtain rfl : c = (2 + damping) * z - y - (z - (1 + damping) * y) := by linarith
    linarith
  have hsquares := mul_nonneg hdamping (add_nonneg (sq_nonneg (u - y)) (sq_nonneg (v - z)))
  have hv : v - z = 0 := by
    apply (sq_nonpos_iff _).mp
    linarith [sq_nonneg (v - z - (u - y))]
  have hu : u - y = 0 := by
    rw [hv] at hexcess hsquares
    apply (sq_nonpos_iff _).mp
    linarith
  rw [hpieces, sub_eq_zero.mp hu, sub_eq_zero.mp hv]

theorem eq_of_isSolvedBy_problem {b c : ℝ} {d : Delta ℝ}
    (h : (problem b c).IsSolvedBy inTurn.keys sizes d) :
    d = ⟨[(.number 0, [c - b]), (.number 1, [c])]⟩ := by
  have hmisfit : ∀ x, (problem b c).misfit x = (x (.number 1) 0 - x (.number 0) 0 - b) ^ 2 +
      (x (.number 1) 0 - c) ^ 2 + 0 * (x (.number 0) 0 ^ 2 + x (.number 1) 0 ^ 2) := by
    intro x
    rw [misfit_problem, zero_mul, add_zero]
  exact eq_of_isSolvedBy (problem_fits b c).accords le_rfl hmisfit h (by ring) (by ring)

/-- Both solvers return the numbers at which the equations hold. -/
theorem solve_problem {b c : ℝ} (hrhs : b ^ 2 + c ^ 2 ≤ 2 ^ 2) :
    (SequentialSolver.solve ⟨inTurn, sizes, none⟩ (problem b c)).result =
      .ok ⟨[(.number 0, [c - b]), (.number 1, [c])]⟩ ∧
    (fresh.solve (problem b c)).result = .ok ⟨[(.number 0, [c - b]), (.number 1, [c])]⟩ := by
  have hg := problem_fits b c
  have hsteep : IsSteep inTurn sizes (problem b c).misfit (Elimination.pivotTolerance * 2) :=
    isSteep_problem b c (by norm_num [Elimination.pivotTolerance])
  obtain ⟨d, hd, hd'⟩ := both_return fresh_reachable hg none one_le_two
    (isScaled_problem hrhs (by norm_num)) hsteep
  obtain rfl := eq_of_isSolvedBy_problem
    (SequentialSolver.isSolvedBy_of_solve ⟨inTurn, sizes, none⟩ hg.accords hd)
  exact ⟨hd, hd'⟩

end TwoNumbers

/-- **The two solvers agree on what they can solve, but for pivots near the tolerance.**  Where a column
    of the stacked matrix is within the tolerance of a combination of the columns before it, both name
    a variable that is not determined, whatever the state of either.  Where no column is so close even
    at the scale of the matrix, both return, and the same step.  So with columns and a right-hand side
    that are no longer than one, the one names a variable exactly when the other does. -/
theorem solvers_agree {s : MultifrontalSolver ℝ} (hs : s.Reachable order dims)
    (hg : g.Fits order.keys dims) (net : Option (BayesNet ℝ)) :
    (g.HasPivotWithin order.keys dims Elimination.pivotTolerance →
      NamesUndetermined order.keys (SequentialSolver.solve ⟨order, dims, net⟩ g).result ∧
        NamesUndetermined order.keys (s.solve g).result) ∧
    (∀ K, 1 ≤ K → g.HasColumnsWithin order.keys dims K →
      ¬ g.HasPivotWithin order.keys dims (Elimination.pivotTolerance * K) →
        ∃ d, (SequentialSolver.solve ⟨order, dims, net⟩ g).result = .ok d ∧
          (s.solve g).result = .ok d) ∧
    (g.HasColumnsWithin order.keys dims 1 →
      (NamesUndetermined order.keys (SequentialSolver.solve ⟨order, dims, net⟩ g).result ↔
        NamesUndetermined order.keys (s.solve g).result)) := by
  have hnames : g.HasPivotWithin order.keys dims Elimination.pivotTolerance →
      NamesUndetermined order.keys (SequentialSolver.solve ⟨order, dims, net⟩ g).result ∧
        NamesUndetermined order.keys (s.solve g).result := fun hpivot =>
    both_name hs hg net fun hsteep => (g.isSteep_iff hg.accords _).mp hsteep hpivot
  have hboth : ∀ K, 1 ≤ K → g.HasColumnsWithin order.keys dims K →
      ¬ g.HasPivotWithin order.keys dims (Elimination.pivotTolerance * K) →
        ∃ d, (SequentialSolver.solve ⟨order, dims, net⟩ g).result = .ok d ∧
          (s.solve g).result = .ok d := fun K hK hcolumns hnone =>
    both_return hs hg net hK ((g.isScaled_iff hg.accords K).mpr hcolumns)
      ((g.isSteep_iff hg.accords _).mpr hnone)
  refine ⟨hnames, hboth, fun hcolumns => ?_⟩
  by_cases hpivot : g.HasPivotWithin order.keys dims Elimination.pivotTolerance
  · obtain ⟨hone, hother⟩ := hnames hpivot
    exact iff_of_true hone hother
  · obtain ⟨d, hd, hd'⟩ := hboth 1 le_rfl hcolumns (by rwa [mul_one])
    rw [hd, hd']

namespace TwoNumbers

/-- Of two numbers whose difference alone is given, both solvers name one.  With the second number, the two are
    eliminated together, and both solvers return them. -/
theorem solvers_agree_together :
    (tied 0).Fits inTurn.keys sizes ∧ fresh.Reachable inTurn sizes ∧
    (tied 0).HasPivotWithin inTurn.keys sizes Elimination.pivotTolerance ∧
    NamesUndetermined inTurn.keys (SequentialSolver.solve ⟨inTurn, sizes, none⟩ (tied 0)).result ∧
    NamesUndetermined inTurn.keys (fresh.solve (tied 0)).result ∧
    (problem 1 2).Fits inTurn.keys sizes ∧ FrontForest.ofGraph inTurn (problem 1 2) = .ok forest ∧
    (problem 1 2).HasColumnsWithin inTurn.keys sizes 3 ∧
    ¬ (problem 1 2).HasPivotWithin inTurn.keys sizes (Elimination.pivotTolerance * 3) ∧
    (SequentialSolver.solve ⟨inTurn, sizes, none⟩ (problem 1 2)).result =
      .ok ⟨[(.number 0, [1]), (.number 1, [2])]⟩ ∧
    (fresh.solve (problem 1 2)).result = .ok ⟨[(.number 0, [1]), (.number 1, [2])]⟩ := by
  have hforest : FrontForest.ofGraph inTurn (problem 1 2) = .ok forest := rfl
  have hpivot : (tied 0).HasPivotWithin inTurn.keys sizes Elimination.pivotTolerance := by
    by_contra hnone
    exact not_isSteep_tied 0 _ (((tied 0).isSteep_iff (tied_fits 0).accords _).mpr hnone)
  obtain ⟨hone, hother⟩ := (solvers_agree fresh_reachable (tied_fits 0) none).1 hpivot
  have hg := problem_fits 1 2
  have hcolumns : (problem 1 2).HasColumnsWithin inTurn.keys sizes 3 :=
    ((problem 1 2).isScaled_iff hg.accords 3).mp (isScaled_problem (by norm_num) (by norm_num))
  have hnone : ¬ (problem 1 2).HasPivotWithin inTurn.keys sizes (Elimination.pivotTolerance * 3) :=
    ((problem 1 2).isSteep_iff hg.accords _).mp
      (isSteep_problem 1 2 (by norm_num [Elimination.pivotTolerance]))
  obtain ⟨d, hd, hd'⟩ := (solvers_agree fresh_reachable hg none).2.1 3 (by norm_num) hcolumns hnone
  have hstep := eq_of_isSolvedBy_problem
    (SequentialSolver.isSolvedBy_of_solve ⟨inTurn, sizes, none⟩ hg.accords hd)
  obtain rfl : d = ⟨[(.number 0, [1]), (.number 1, [2])]⟩ := by
    rw [hstep]
    norm_num
  exact ⟨tied_fits 0, fresh_reachable, hpivot, hone, hother, hg, hforest, hcolumns, hnone, hd, hd'⟩

end TwoNumbers

/-! ### Two numbers of different scale -/

namespace TwoNumbers

open Elimination

/-- The sum of the numbers is to be zero, and so is a large multiple of the second. -/
noncomputable def uneven : LinearGraph ℝ :=
  ⟨[zeroSum (.number 0) (.number 1), equation (.number 1) 1e10 0]⟩

/-- Next to the large multiple, the sum is too small to determine the first number. -/
theorem eliminate_uneven : eliminate uneven.factors [.number 0, .number 1] sizes inTurn.positions =
    .error (.indeterminate (.number 0)) := by
  have hseparator : separatorOf uneven.factors [.number 0, .number 1] inTurn.positions = .ok [] := by
    simp [uneven, zeroSum, equation, separatorOf, LinearFactor.keys, Table.keys, distinct, bind,
      Except.bind, pure, Except.pure]
  have hcolumns : columnOffsets sizes [.number 0, .number 1] =
      .ok ([(.number 0, 0), (.number 1, 1)], 2) := rfl
  have hheight : total (uneven.factors.map (·.rows)) = 2 := rfl
  have hstacked : uneven.factors.mapM (stackedRows sizes [(.number 0, 0), (.number 1, 1)] 2) =
      .ok [[[1, 1, 0]], [[0, 1e10, 0]]] := rfl
  have hrows : [[[(1 : ℝ), 1, 0]], [[0, 1e10, 0]]].flatten = [[1, 1, 0], [0, 1e10, 0]] := rfl
  have hreduced : Triangular.reduce ⟨2 + 1, [[(1 : ℝ), 1, 0], [0, 1e10, 0]]⟩ =
      ⟨2 + 1, [[1, 1, 0], [0, 1e10, 0]]⟩ := by
    simp [Triangular.reduce, Triangular.reduceRows, Triangular.Reflection.ofColumn,
      Triangular.Reflection.apply, Vec.scaledNorm_real, Scalar.isZero_real]
  have hgreatest : Vec.maxAbs? [[(1 : ℝ), 1, 0], [0, 1e10, 0]].flatten = some 1e10 := by
    norm_num [Vec.maxAbs?, Scalar.maximum_real, Scalar.abs_real]
  have hpivot : (1 : ℝ) ≤ pivotTolerance * max 1 1e10 := by norm_num [pivotTolerance]
  have hkey : keyAtColumn sizes [.number 0, .number 1] 0 = .ok (.number 0) := rfl
  simp only [eliminate, hseparator, List.append_nil, hcolumns, bind, Except.bind, hheight, hstacked,
    hrows, hreduced, Mat.entries, hgreatest]
  simp [Mat.top, Mat.diagonal, List.findIdx?_cons, Scalar.abs_real, Scalar.largerOf_real, hpivot, hkey,
    throw, throwThe, MonadExceptOf.throw]

theorem uneven_fits : uneven.Fits inTurn.keys sizes := by
  have hsum : (zeroSum (.number 0) (.number 1)).Fits sizes := by
    refine ⟨by decide, List.forall_mem_cons.mpr ⟨?_, List.forall_mem_singleton.mpr ?_⟩⟩
    all_goals exact ⟨rfl, rfl, by simp [Mat.IsRectangular]⟩
  exact ⟨by decide, sized,
    List.forall_mem_cons.mpr ⟨hsum, List.forall_mem_singleton.mpr (fits_second 1e10 0)⟩, by decide⟩

theorem sequential_eliminate_uneven : ∃ net, BayesNet.eliminate inTurn sizes uneven = .ok net := by
  have hassign : BayesNet.assign inTurn.positions uneven =
      .ok [(.number 0, zeroSum (.number 0) (.number 1)), (.number 1, equation (.number 1) 1e10 0)] := rfl
  have hsize : sizes.get? (.number 0) = some 1 := rfl
  have hplace : inTurn.positions.get? (.number 1) = some 1 := rfl
  have hdim : sizes.get? (.number 1) = some 1 := rfl
  have hfirst := eliminate_zeroSum (by decide) hsize hdim hplace
  have hpivot : (1e-9 : ℝ) * max 1 (max |1e10| |0|) < |1e10| := by norm_num
  have hsecond := eliminate_equation hdim inTurn.positions hpivot
  have hkeys : inTurn.keys = [.number 0, .number 1] := rfl
  refine ⟨⟨[⟨[.number 0], [.number 1], sizes, ⟨1, [[1]]⟩, ⟨1, [[1]]⟩, [0]⟩,
    ⟨[.number 1], [], sizes, ⟨1, [[1e10]]⟩, ⟨0, [[]]⟩, [0]⟩]⟩, ?_⟩
  simp only [BayesNet.eliminate, hassign, bind, Except.bind, hkeys, BayesNet.eliminateAll_cons]
  simp [hfirst, hsecond, BayesNet.waiting, BayesNet.eliminateAll, pure, Except.pure]

/-- **The solvers disagree about the two numbers.**  One variable after another, both are determined;
    together, the first is not. -/
theorem solvers_disagree : uneven.Fits inTurn.keys sizes ∧
    (∃ d, (SequentialSolver.solve ⟨inTurn, sizes, none⟩ uneven).result = .ok d) ∧
    (fresh.solve uneven).result = .error (.indeterminate (.number 0)) := by
  refine ⟨uneven_fits, ?_, ?_⟩
  · obtain ⟨net, hnet⟩ := sequential_eliminate_uneven
    obtain ⟨d, hd, -⟩ := BayesNet.solution_of_eliminate uneven_fits.accords hnet
    exact ⟨d, by simp only [SequentialSolver.solve, hnet]; exact hd⟩
  · have hforest : FrontForest.ofGraph inTurn uneven = .ok forest := rfl
    have hassign : BayesTree.assign inTurn.positions forest.frontOf forest.fronts.length uneven =
        .ok [(0, zeroSum (.number 0) (.number 1)), (0, equation (.number 1) 1e10 0)] := rfl
    have hfound : BayesTree.eliminateFronts sizes inTurn.positions forest.frontOf forest.fronts.length 0
        forest.fronts [(0, zeroSum (.number 0) (.number 1)), (0, equation (.number 1) 1e10 0)] =
        ([], some (.indeterminate (.number 0))) := by
      have hboth := eliminate_uneven
      simp only [uneven] at hboth
      simp [forest, BayesTree.eliminateFronts, hboth]
    obtain ⟨-, herror, -⟩ := MultifrontalSolver.eliminate_eq fresh_reachable.coherent.2.2 hforest hassign hfound
    simp only [MultifrontalSolver.solve, herror _ rfl]

end TwoNumbers

end LeastSquares
