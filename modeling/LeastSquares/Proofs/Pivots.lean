/-
  LeastSquares/Proofs/Pivots.lean
  ===============================
  **What the pivots of an elimination say about the problem, in whatever order its parts are taken.**

  While a problem is eliminated, its misfit is that of the conditionals so far and of the factors that
  are left.  A direction that ends at a component is steep for the conditional that solves for the
  component.  When an elimination fails, it has met a flat direction among its factors, which is
  extended to the variables that are eliminated already so that no conditional sees it.
-/
import LeastSquares.Proofs.Curvature
import LeastSquares.Proofs.SequentialElimination

namespace LeastSquares

open Vec

variable {order : EliminationOrder} {dims : Table ℕ}

/-! ### Components in the order of elimination -/

namespace EliminationOrder

/-- A component comes behind another: its variable is eliminated later, or is the same and the
    component is a later one. -/
def Beyond (order : EliminationOrder) (key : Key) (j : ℕ) (other : Key) (i : ℕ) : Prop :=
  order.place key < order.place other ∨ other = key ∧ j < i

theorem columnOf_of_place_lt (dims : Table ℕ) {keys : List Key}
    (hascending : keys.Pairwise fun a b => order.place a < order.place b) {key other : Key}
    (hkey : key ∈ keys) (hother : other ∈ keys) (hlt : order.place key < order.place other) :
    dims.columnOf keys key + dims.dimOf key ≤ dims.columnOf keys other := by
  induction keys with
  | nil => simp at hkey
  | cons first keys ih =>
    obtain ⟨hfirst, hascending⟩ := List.pairwise_cons.mp hascending
    have hne : other ≠ first := by
      rintro rfl
      rcases List.mem_cons.mp hkey with rfl | hkey
      · exact lt_irrefl _ hlt
      · exact lt_asymm hlt (hfirst key hkey)
    have hother := (List.mem_cons.mp hother).resolve_left hne
    simp only [Table.columnOf, if_neg hne]
    split
    · next heq =>
      subst heq
      omega
    · next hkeyNe =>
      have := ih hascending ((List.mem_cons.mp hkey).resolve_left hkeyNe) hother
      omega

/-- The columns of ascending variables are in the order of their components. -/
theorem columnOf_lt_iff {keys : List Key}
    (hascending : keys.Pairwise fun a b => order.place a < order.place b)
    (hlisted : ∀ key ∈ keys, key ∈ order.keys) {key other : Key} (hkey : key ∈ keys)
    (hother : other ∈ keys) {j i : ℕ} (hj : j < dims.dimOf key) (hi : i < dims.dimOf other) :
    dims.columnOf keys key + j < dims.columnOf keys other + i ↔ order.Beyond key j other i := by
  rcases lt_trichotomy (order.place key) (order.place other) with hlt | heq | hgt
  · have := columnOf_of_place_lt dims hascending hkey hother hlt
    exact ⟨fun _ => .inl hlt, fun _ => by omega⟩
  · obtain rfl := place_inj (hlisted key hkey) heq
    simp [Beyond]
  · have := columnOf_of_place_lt dims hascending hother hkey hgt
    refine ⟨fun h => by omega, ?_⟩
    rintro (hlt | ⟨rfl, -⟩)
    · exact absurd hlt (lt_asymm hgt)
    · exact absurd hgt (lt_irrefl _)

end EliminationOrder

/-- A direction ends at a component: it is one there, and zero at every component behind. -/
structure Assignment.EndsAt (order : EliminationOrder) (dims : Table ℕ) (x : Assignment) (key : Key)
    (j : ℕ) : Prop where
  one : x key j = 1
  zero : ∀ other ∈ order.keys, ∀ i < dims.dimOf other, order.Beyond key j other i → x other i = 0

/-- **A problem is steep** by a bound: along every direction that ends at a component, it curves more
    than the square of the bound. -/
def IsSteep (order : EliminationOrder) (dims : Table ℕ) (M : Assignment → ℝ) (bound : ℝ) : Prop :=
  ∀ key ∈ order.keys, ∀ j < dims.dimOf key, ∀ x : Assignment, x.EndsAt order dims key j →
    bound ^ 2 < curvature M x

/-- The columns and the right-hand side of a problem are no longer than a bound. -/
structure IsScaled (order : EliminationOrder) (dims : Table ℕ) (M : Assignment → ℝ) (bound : ℝ) :
    Prop where
  rhs : M 0 ≤ bound ^ 2
  columns : ∀ key ∈ order.keys, ∀ j < dims.dimOf key, curvature M (.unit key j) ≤ bound ^ 2

/-- **An outcome gauges a problem**: where it is a result, the problem is steep by the tolerance, and
    where it is a failure, the problem is not steep by the tolerance at its scale. -/
structure Gauges {β : Type} (order : EliminationOrder) (dims : Table ℕ) (M : Assignment → ℝ)
    (outcome : Except Error β) : Prop where
  steep : ∀ b, outcome = .ok b → IsSteep order dims M Elimination.pivotTolerance
  flat : ∀ e, outcome = .error e → ∀ K, 1 ≤ K → IsScaled order dims M K →
    ¬ IsSteep order dims M (Elimination.pivotTolerance * K)

/-! ### One elimination -/

/-- Some variables come before all others of some factors, which fit their sizes. -/
structure Leads (order : EliminationOrder) (dims : Table ℕ) (frontals : List Key)
    (factors : List (LinearFactor ℝ)) : Prop where
  ascending : frontals.Pairwise fun a b => order.place a < order.place b
  listed : ∀ key ∈ frontals, key ∈ order.keys
  fits : ∀ f ∈ factors, f.Fits dims
  later : ∀ f ∈ factors, ∀ other ∈ f.keys, other ∉ frontals →
    other ∈ order.keys ∧ ∀ key ∈ frontals, order.place key < order.place other

namespace Leads

variable {frontals : List Key} {factors : List (LinearFactor ℝ)}

theorem nodup (h : Leads order dims frontals factors) : frontals.Nodup :=
  h.ascending.imp fun hlt heq => by
    rw [heq] at hlt
    exact lt_irrefl _ hlt

theorem fails (h : Leads order dims frontals factors)
    (hsized : ∀ key ∈ order.keys, ∃ n, dims.get? key = some n ∧ 0 < n) (hne : frontals ≠ []) {e : Error}
    (herror : Elimination.eliminate factors frontals dims order.positions = .error e) :
    ∃ (t : Elimination.Course ℝ) (column : ℕ) (key : Key),
      t.Formed factors frontals dims order.positions ∧ t.FailsAt column ∧ key ∈ frontals ∧
      Elimination.keyAtColumn dims frontals column = .ok key ∧ e = .indeterminate key := by
  refine Elimination.fails_of_listed herror hsized hne h.nodup h.listed (fun f hf key hkey => ?_) h.fits
  by_cases hfrontal : key ∈ frontals
  · exact h.listed key hfrontal
  · exact (h.later f hf key hkey hfrontal).1

end Leads

/-- A conditional as an elimination makes it from factors that its variables come before. -/
structure Conditional.IsMade (order : EliminationOrder) (dims : Table ℕ) (c : Conditional ℝ) :
    Prop where
  proper : c.IsProper dims
  before : ∀ key ∈ c.frontals, ∀ other ∈ c.separator, order.place key < order.place other
  steep : ∀ (x : Assignment), ∀ key ∈ c.frontals, ∀ j < dims.dimOf key, x.EndsAt order dims key j →
    Elimination.pivotTolerance ^ 2 < curvature c.misfit x

namespace Elimination

variable {frontals : List Key} {factors : List (LinearFactor ℝ)}

theorem isMade_of_eliminate (hleads : Leads order dims frontals factors) {c : Conditional ℝ}
    {u : Option (LinearFactor ℝ)}
    (h : eliminate factors frontals dims order.positions = .ok (c, u)) : c.IsMade order dims := by
  have hsized := eliminate_sized h
  obtain ⟨-, hdims, -⟩ := eliminate_keys h
  obtain ⟨t, ht, rfl, -⟩ := eliminate_eq_ok h
  have hexact := ht.isExact hleads.nodup hleads.fits
  have hseparator : ∀ other ∈ t.separator, other ∈ order.keys ∧
      ∀ key ∈ frontals, order.place key < order.place other := by
    intro other hother
    obtain ⟨hnot, f, hf, hkey⟩ := ((separatorOf_eq_ok ht.separator_eq).2.1 other).mp hother
    exact hleads.later f hf other hkey hnot
  refine ⟨⟨hexact.conditional_isSolvable, hdims, hsized⟩,
    fun key hkey other hother => (hseparator other hother).2 key hkey, fun x key hkey j hj hx => ?_⟩
  change key ∈ frontals at hkey
  have hroom := Table.columnOf_add_dimOf_le dims hkey
  have hwidth := hexact.frontWidth
  have hplace : dims.columnOf frontals key + j < t.frontWidth := by omega
  refine hexact.sq_lt_curvature pivotTolerance_nonneg (fun pivot hp => ht.tolerance_lt hp)
    hplace ?_ fun i hi => ?_
  · rw [padded, Table.widthOf_append, if_pos (by omega), Assignment.along_append, if_pos (by omega),
      Assignment.along_columnOf x hkey hj]
    exact hx.one
  · rw [padded]
    split
    · next hlt =>
      rw [Assignment.along_append]
      split
      · next hfront =>
        obtain ⟨other, hother, i', hi', rfl⟩ := Table.exists_columnOf hleads.nodup hfront
        rw [Assignment.along_columnOf x hother hi']
        exact hx.zero other (hleads.listed other hother) i' hi'
          ((EliminationOrder.columnOf_lt_iff hleads.ascending hleads.listed hkey hother hj hi').mp hi)
      · next hfront =>
        have hback : i - dims.widthOf frontals < dims.widthOf t.separator := by
          rw [Table.widthOf_append] at hlt
          omega
        obtain ⟨other, hother, i', hi', hcolumn⟩ :=
          Table.exists_columnOf (List.nodup_append.mp hexact.nodup).2.1 hback
        rw [hcolumn, Assignment.along_columnOf x hother hi']
        obtain ⟨hlisted, hlater⟩ := hseparator other hother
        exact hx.zero other hlisted i' hi' (.inl (hlater key hkey))
    · rfl

/-- A sequence is read as a direction in which only some variables change. -/
theorem exists_direction {frontals separator : List Key} (hnodup : (frontals ++ separator).Nodup)
    {v : ℕ → ℝ} (hv : ∀ j, dims.widthOf frontals ≤ j → v j = 0) :
    ∃ x : Assignment, (∀ key ∉ frontals, x key = 0) ∧
      (∀ key ∈ frontals, ∀ j < dims.dimOf key, x key j = v (dims.columnOf frontals key + j)) ∧
      padded dims x (frontals ++ separator) = v := by
  obtain ⟨hfrontals, -, hdisjoint⟩ := List.nodup_append.mp hnodup
  obtain ⟨xs, hxs⟩ : ∃ xs : Vec ℝ, xs = List.ofFn fun i : Fin (dims.widthOf frontals) => v i := ⟨_, rfl⟩
  have hlength : xs.length = dims.widthOf frontals := by rw [hxs, List.length_ofFn]
  have hentry : ∀ j < dims.widthOf frontals, xs.entry j = v j := by
    intro j hj
    simp [hxs, entry, List.getD_eq_getElem?_getD, hj]
  obtain ⟨x, hx⟩ : ∃ x : Assignment, x = Delta.assignment ⟨Delta.pieces dims frontals xs⟩ := ⟨_, rfl⟩
  have halong : ∀ j < dims.widthOf frontals, x.along dims frontals j = v j := fun j hj => by
    rw [hx, Delta.along_pieces hfrontals hlength hj, hentry j hj]
  have hothers : ∀ key ∉ frontals, x key = 0 := by
    intro key hkey
    have hnone : Table.get? (Delta.pieces dims frontals xs) key = none :=
      Table.get?_eq_none_iff.mpr (by rwa [Delta.keys_pieces])
    rw [hx, Delta.assignment, hnone]
    rfl
  refine ⟨x, hothers, fun key hkey j hj => ?_, funext fun j => ?_⟩
  · have hroom := Table.columnOf_add_dimOf_le dims hkey
    rw [← halong _ (by omega), Assignment.along_columnOf x hkey hj]
  · rw [padded, Table.widthOf_append, Assignment.along_append]
    split
    · split
      · next hlt => exact halong j hlt
      · next hge hfront =>
        have hzero : ∀ key ∈ separator, ∀ i < dims.dimOf key, x key i = (0 : Assignment) key i :=
          fun key hkey i _ => by rw [hothers key fun hmem => hdisjoint key hmem key hkey rfl]; rfl
        rw [Assignment.along_congr hzero _ (by omega), Assignment.along_zero, hv j (by omega)]
    · exact (hv j (by omega)).symm

/-- **A failing elimination has met a flat direction**, which changes nothing but the eliminated
    variables and ends at a component of one of them. -/
theorem Course.FailsAt.exists_flat {t : Course ℝ} {column : ℕ} (hfails : t.FailsAt column)
    (hstacks : t.Stacks factors frontals dims) (hleads : Leads order dims frontals factors) {K : ℝ}
    (hK : 1 ≤ K) (hentries : ∀ row ∈ t.stacked.flatten, ∀ a ∈ row, |a| ≤ K) :
    ∃ x : Assignment, (∀ key ∉ frontals, x key = 0) ∧
      curvature (fun x => (factors.map (LinearFactor.misfit x)).sum) x ≤ (pivotTolerance * K) ^ 2 ∧
      ∃ key ∈ frontals, ∃ j < dims.dimOf key, x.EndsAt order dims key j := by
  obtain ⟨place, hplace, v, hone, hbehind, hvalue⟩ := hfails.exists_unseen hstacks hK hentries
  rw [hstacks.frontWidth] at hplace
  obtain ⟨x, hothers, hfrontals, hpadded⟩ := exists_direction hstacks.nodup
    fun j hj => hbehind j (hplace.trans_le hj)
  obtain ⟨key, hkey, j, hj, hat⟩ := Table.exists_columnOf hleads.nodup hplace
  refine ⟨x, hothers, ?_, key, hkey, j, hj, ?_, fun other _ i hi hbeyond => ?_⟩
  · rw [hstacks.curvature_eq, hpadded]
    exact hvalue
  · rw [hfrontals key hkey j hj, ← hat, hone]
  · by_cases hother : other ∈ frontals
    · rw [hfrontals other hother i hi]
      refine hbehind _ ?_
      rw [hat]
      exact (EliminationOrder.columnOf_lt_iff hleads.ascending hleads.listed hkey hother hj hi).mpr hbeyond
    · rw [hothers other hother]
      rfl

end Elimination

/-! ### Eliminated variables follow the others -/

namespace Conditional

/-- What ends at a component on the known variables ends there on the others as well, when no
    conditional of a schedule sees it. -/
theorem Scheduled.zero_beyond {known : List Key} {cs : List (Conditional ℝ)} (h : Scheduled known cs)
    (hmade : ∀ c ∈ cs, c.IsMade order dims) {y : Assignment} (hy : ∀ c ∈ cs, c.homogeneous.misfit y = 0)
    {key : Key} {j : ℕ}
    (hknown : ∀ other ∈ known, ∀ i < dims.dimOf other, order.Beyond key j other i → y other i = 0) :
    ∀ other ∈ known ++ cs.flatMap (·.frontals), ∀ i < dims.dimOf other,
      order.Beyond key j other i → y other i = 0 := by
  induction h with
  | nil known => simpa using hknown
  | @cons known c cs _ _ hseparator _ ih =>
    obtain ⟨hproper, hbefore, -⟩ := hmade c (by simp)
    obtain ⟨hsolvable, hdims, -⟩ := hproper.homogeneous
    have hzero : c.homogeneous.misfit 0 = 0 := by
      rw [← curvature_misfit hproper.solvable, curvature_zero]
    have hfrontals : ∀ other ∈ c.frontals, ∀ i < dims.dimOf other, order.Beyond key j other i →
        y other i = 0 := by
      intro other hother i hi hbeyond
      have hle : order.place key ≤ order.place other := by
        rcases hbeyond with hlt | ⟨rfl, -⟩
        · exact hlt.le
        · exact le_rfl
      rw [← hdims] at hi
      refine Conditional.eq_of_misfit_eq_zero hsolvable (hy c (by simp)) hzero (fun s hs i' hi' => ?_)
        hother hi
      rw [hdims] at hi'
      exact hknown s (hseparator s hs) i' hi' (.inl (hle.trans_lt (hbefore other hother s hs)))
    rw [List.flatMap_cons, ← List.append_assoc]
    exact ih (fun c hc => hmade c (List.mem_cons_of_mem _ hc))
      (fun c hc => hy c (List.mem_cons_of_mem _ hc))
      fun other hother => (List.mem_append.mp hother).elim (hknown other) (hfrontals other)

/-- **A direction on the known variables is extended** to the others of a schedule so that no conditional
    sees it. -/
theorem Scheduled.exists_unseen {known : List Key} {cs : List (Conditional ℝ)} (h : Scheduled known cs)
    (hproper : ∀ c ∈ cs, c.IsProper dims) (hnodup : known.Nodup) (x : Assignment) :
    ∃ y : Assignment, (∀ key ∈ known, ∀ j < dims.dimOf key, y key j = x key j) ∧
      ∀ c ∈ cs, c.homogeneous.misfit y = 0 := by
  obtain ⟨d, hd, hx⟩ := Delta.exists_lists dims hnodup x
  obtain ⟨d', -, -, -, hsame, hzero⟩ := h.homogeneous.solve_spec
    (List.forall_mem_map.mpr fun c hc => (hproper c hc).homogeneous) hd.keys_eq hd.sized
  refine ⟨d'.assignment, fun key hkey j hj => ?_, List.forall_mem_map.mp hzero⟩
  rw [hsame key hkey, hx key hkey j hj]

end Conditional

/-! ### Problems that are being eliminated -/

/-- **A problem that is being eliminated.**  Its misfit is what the conditionals so far and the factors
    that are left miss, up to a constant; the factors that are left are about the variables that are
    left, from which the conditionals can be solved, the latest first. -/
structure Underway (order : EliminationOrder) (dims : Table ℕ) (M : Assignment → ℝ) (known : List Key)
    (cs : List (Conditional ℝ)) (left : List (LinearFactor ℝ)) : Prop where
  nodup : known.Nodup
  covers : ∀ key ∈ order.keys, key ∈ known ++ cs.flatMap (·.frontals)
  made : ∀ c ∈ cs, c.IsMade order dims
  scheduled : Conditional.Scheduled known cs
  fits : ∀ f ∈ left, f.Fits dims
  about : ∀ f ∈ left, ∀ key ∈ f.keys, key ∈ known
  split : ∃ rest : ℝ, 0 ≤ rest ∧ ∀ x, M x =
    (cs.map (Conditional.misfit · x)).sum + (left.map (LinearFactor.misfit x)).sum + rest

namespace Underway

variable {M : Assignment → ℝ} {known frontals : List Key} {cs : List (Conditional ℝ)}
  {left mine others : List (LinearFactor ℝ)}

theorem curvature_eq (h : Underway order dims M known cs left) (x : Assignment) :
    curvature M x = (cs.map fun c => curvature c.misfit x).sum +
      (left.map fun f => curvature f.misfit x).sum := by
  obtain ⟨rest, -, hsplit⟩ := h.split
  rw [show M = fun x => (cs.map (Conditional.misfit · x)).sum + (left.map (LinearFactor.misfit x)).sum +
    rest from funext hsplit, curvature_add, curvature_const, add_zero, curvature_add, curvature_sum,
    curvature_sum left fun f x => f.misfit x]

/-- **One step**: the factors that some next variables lead are replaced by what their elimination
    leaves. -/
theorem step (h : Underway order dims M (known ++ frontals) cs left) (hperm : left.Perm (mine ++ others))
    (hleads : Leads order dims frontals mine) (hothers : ∀ f ∈ others, ∀ key ∈ f.keys, key ∉ frontals)
    {c : Conditional ℝ} {u : Option (LinearFactor ℝ)}
    (heliminate : Elimination.eliminate mine frontals dims order.positions = .ok (c, u)) :
    Underway order dims M known (c :: cs) (others ++ u.toList) := by
  obtain ⟨hfrontals, -, hseparator, hleft⟩ := Elimination.eliminate_keys heliminate
  obtain ⟨-, hufits, rest, hrest, -, hsplit⟩ :=
    Elimination.eliminate_split heliminate hleads.nodup hleads.fits
  obtain ⟨hknown, -, hdisjoint⟩ := List.nodup_append.mp h.nodup
  have hmine : ∀ f ∈ mine, f ∈ left := fun f hf => hperm.symm.subset (List.mem_append_left _ hf)
  have hlater : ∀ key ∈ c.separator, key ∈ known := by
    intro key hkey
    obtain ⟨hnot, f, hf, hkeyF⟩ := ((Elimination.separatorOf_eq_ok hseparator).2.1 key).mp hkey
    exact (List.mem_append.mp (h.about f (hmine f hf) key hkeyF)).resolve_right hnot
  have hcases : ∀ f ∈ others ++ u.toList, f ∈ others ∨ u = some f := by
    intro f hf
    rwa [List.mem_append, Option.mem_toList] at hf
  constructor
  · exact hknown
  · intro key hkey
    have := h.covers key hkey
    rwa [List.flatMap_cons, hfrontals, ← List.append_assoc]
  · intro c' hc'
    rcases List.mem_cons.mp hc' with rfl | hc'
    · exact Elimination.isMade_of_eliminate hleads heliminate
    · exact h.made c' hc'
  · refine .cons (hfrontals ▸ hleads.nodup) (fun key hkey hmem => ?_) hlater (hfrontals ▸ h.scheduled)
    exact hdisjoint key hmem key (hfrontals ▸ hkey) rfl
  · intro f hf
    rcases hcases f hf with hf | hf
    · exact h.fits f (hperm.symm.subset (List.mem_append_right _ hf))
    · exact hufits f hf
  · intro f hf key hkey
    rcases hcases f hf with hf | hf
    · have hmem := h.about f (hperm.symm.subset (List.mem_append_right _ hf)) key hkey
      exact (List.mem_append.mp hmem).resolve_right (hothers f hf key hkey)
    · exact hlater key ((hleft f hf).2 ▸ hkey)
  · obtain ⟨rest', hrest', hsplit'⟩ := h.split
    refine ⟨rest + rest', add_nonneg hrest hrest', fun x => ?_⟩
    have hsum : (u.toList.map (LinearFactor.misfit x)).sum = Elimination.leftMisfit u x := by
      cases u <;> simp [Elimination.leftMisfit]
    rw [hsplit', (hperm.map _).sum_eq, List.map_append, List.sum_append, hsplit, List.map_cons,
      List.sum_cons, List.map_append, List.sum_append, hsum]
    ring

/-- **When all variables are eliminated, the problem is steep.** -/
theorem isSteep (h : Underway order dims M [] cs left) :
    IsSteep order dims M Elimination.pivotTolerance := by
  intro key hkey j hj x hx
  obtain ⟨c, hc, hkey⟩ := List.mem_flatMap.mp (h.covers key hkey)
  have hcs : ∀ c ∈ cs, 0 ≤ curvature c.misfit x := fun c hc =>
    Conditional.curvature_nonneg (h.made c hc).proper.solvable x
  have hleft : 0 ≤ (left.map fun f => curvature f.misfit x).sum :=
    List.sum_nonneg (List.forall_mem_map.mpr fun f hf => LinearFactor.curvature_nonneg (h.fits f hf) x)
  have hsingle : curvature c.misfit x ≤ (cs.map fun c => curvature c.misfit x).sum :=
    List.single_le_sum (List.forall_mem_map.mpr hcs) _ (List.mem_map_of_mem hc)
  have hsteep := (h.made c hc).steep x key hkey j hj hx
  rw [h.curvature_eq]
  linarith

/-- The factors that are eliminated next miss no more than the problem, and curve no more. -/
theorem next_le (h : Underway order dims M known cs left) (hperm : left.Perm (mine ++ others))
    (x : Assignment) : (mine.map (LinearFactor.misfit x)).sum ≤ M x ∧
      curvature (fun x => (mine.map (LinearFactor.misfit x)).sum) x ≤ curvature M x := by
  have hcs : ∀ c ∈ cs, 0 ≤ curvature c.misfit x := fun c hc =>
    Conditional.curvature_nonneg (h.made c hc).proper.solvable x
  have hothers : ∀ f ∈ others, 0 ≤ curvature f.misfit x := fun f hf =>
    LinearFactor.curvature_nonneg (h.fits f (hperm.symm.subset (List.mem_append_right _ hf))) x
  constructor
  · obtain ⟨rest, hrest, hsplit⟩ := h.split
    rw [hsplit, (hperm.map _).sum_eq, List.map_append, List.sum_append]
    have hmissed : 0 ≤ (cs.map (Conditional.misfit · x)).sum :=
      List.sum_nonneg (List.forall_mem_map.mpr fun c _ => squares_nonneg _)
    have hleft : 0 ≤ (others.map (LinearFactor.misfit x)).sum :=
      List.sum_nonneg (List.forall_mem_map.mpr fun f _ => squares_nonneg _)
    linarith
  · rw [h.curvature_eq, (hperm.map _).sum_eq, List.map_append, List.sum_append,
      curvature_sum mine fun f x => f.misfit x]
    have hmade := List.sum_nonneg (List.forall_mem_map.mpr hcs)
    have hleft := List.sum_nonneg (List.forall_mem_map.mpr hothers)
    linarith

/-- What changes only the next variables, and is extended so that no conditional sees it, is seen by
    the next factors alone. -/
theorem curvature_of_unseen (h : Underway order dims M (known ++ frontals) cs left)
    (hperm : left.Perm (mine ++ others)) (hothers : ∀ f ∈ others, ∀ key ∈ f.keys, key ∉ frontals)
    {x y : Assignment} (hx : ∀ key ∉ frontals, x key = 0)
    (hy : ∀ key ∈ known ++ frontals, ∀ j < dims.dimOf key, y key j = x key j)
    (hunseen : ∀ c ∈ cs, c.homogeneous.misfit y = 0) :
    curvature M y = curvature (fun x => (mine.map (LinearFactor.misfit x)).sum) x := by
  have hcs : ∀ c ∈ cs, curvature c.misfit y = 0 := fun c hc => by
    rw [Conditional.curvature_misfit (h.made c hc).proper.solvable, hunseen c hc]
  have hmine : ∀ f ∈ mine, curvature f.misfit y = curvature f.misfit x := fun f hf => by
    have hf := hperm.symm.subset (List.mem_append_left _ hf)
    exact LinearFactor.curvature_congr (h.fits f hf) fun key hkey => hy key (h.about f hf key hkey)
  -- the other factors are about known variables, which do not change
  have hrest : ∀ f ∈ others, curvature f.misfit y = 0 := fun f hf => by
    have hmem := hperm.symm.subset (List.mem_append_right _ hf)
    rw [← curvature_zero f.misfit]
    refine LinearFactor.curvature_congr (h.fits f hmem) fun key hkey j hj => ?_
    rw [hy key (h.about f hmem key hkey) j hj, hx key (hothers f hf key hkey)]
    rfl
  rw [h.curvature_eq, (hperm.map _).sum_eq, List.map_append, List.sum_append, List.map_congr_left hmine,
    List.sum_eq_zero (List.forall_mem_map.mpr hcs), List.sum_eq_zero (List.forall_mem_map.mpr hrest),
    curvature_sum mine fun f x => f.misfit x, zero_add, add_zero]

/-- **When an elimination fails, the problem is not steep.** -/
theorem not_isSteep (h : Underway order dims M (known ++ frontals) cs left)
    (hperm : left.Perm (mine ++ others)) (hleads : Leads order dims frontals mine)
    (hothers : ∀ f ∈ others, ∀ key ∈ f.keys, key ∉ frontals) {t : Elimination.Course ℝ}
    (hstacks : t.Stacks mine frontals dims) {column : ℕ} (hfails : t.FailsAt column) {K : ℝ} (hK : 1 ≤ K)
    (hscaled : IsScaled order dims M K) : ¬ IsSteep order dims M (Elimination.pivotTolerance * K) := by
  have hlisted : ∀ key ∈ frontals ++ t.separator, key ∈ order.keys := by
    intro key hkey
    rcases List.mem_append.mp hkey with hkey | hkey
    · exact hleads.listed key hkey
    · obtain ⟨hnot, f, hf, hkeyF⟩ := hstacks.touched key hkey
      exact (hleads.later f hf key hkeyF hnot).1
  have hentries := hstacks.abs_le (zero_le_one.trans hK) ((h.next_le hperm 0).1.trans hscaled.rhs)
    fun key hkey j hj => (h.next_le hperm _).2.trans (hscaled.columns key (hlisted key hkey) j hj)
  obtain ⟨x, hothersX, hcurvature, key, hkey, j, hj, hone, hzero⟩ :=
    hfails.exists_flat hstacks hleads hK hentries
  obtain ⟨y, hy, hunseen⟩ := h.scheduled.exists_unseen (fun c hc => (h.made c hc).proper) h.nodup x
  have hends : y.EndsAt order dims key j := by
    refine ⟨by rw [hy key (List.mem_append_right _ hkey) j hj, hone], fun other hother => ?_⟩
    refine h.scheduled.zero_beyond h.made hunseen (fun other hother i hi hbeyond => ?_) other
      (h.covers other hother)
    rw [hy other hother i hi]
    by_cases hfrontal : other ∈ frontals
    · exact hzero other (hleads.listed other hfrontal) i hi hbeyond
    · rw [hothersX other hfrontal]
      rfl
  rw [← h.curvature_of_unseen hperm hothers hothersX hy hunseen] at hcurvature
  exact fun hsteep => absurd (hsteep key (hleads.listed key hkey) j hj y hends) (not_lt.mpr hcurvature)

end Underway

end LeastSquares
