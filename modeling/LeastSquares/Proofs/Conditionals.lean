/-
  LeastSquares/Proofs/Conditionals.lean
  =====================================
  **Conditionals solved one after another.**

  When the separator of each conditional is solved before it, the conditionals can all be solved,
  and what is found is the only assignment of their variables that misses nothing in any of them.
  The order in which elimination produced the conditionals does not matter for this, so the same
  law serves a chain that is solved backwards and a tree that is solved from its roots.
-/
import LeastSquares.Proofs.DenseElimination
import LeastSquares.Proofs.Pieces

namespace LeastSquares

open Vec

namespace Delta

/-- The assignment that a step holds; it is zero where the step says nothing. -/
noncomputable def assignment (d : Delta ℝ) : Assignment := fun key =>
  entry ((d.blocks.get? key).getD [])

/-- Every block has the size of its variable. -/
def IsSized (dims : Table ℕ) (d : Delta ℝ) : Prop :=
  ∀ key block, d.blocks.get? key = some block → block.length = dims.dimOf key

variable {dims : Table ℕ} {d : Delta ℝ}

/-- A step gives each of some variables a block of its size. -/
def Covers (d : Delta ℝ) (keys : List Key) (dims : Table ℕ) : Prop :=
  ∀ key ∈ keys, ∃ block, d.blocks.get? key = some block ∧ block.length = dims.dimOf key

theorem IsSized.covers (hsized : d.IsSized dims) {keys : List Key} (h : ∀ key ∈ keys, key ∈ d.keys) :
    d.Covers keys dims := by
  intro key hkey
  obtain ⟨block, hblock⟩ := Table.exists_get?_of_mem_keys (h key hkey)
  exact ⟨block, hblock, hsized key block hblock⟩

theorem Covers.vectorOf_eq_ok {keys : List Key} (h : d.Covers keys dims) :
    ∃ xs, d.vectorOf keys = .ok xs ∧ xs.length = dims.widthOf keys ∧
      ∀ j < dims.widthOf keys, xs.entry j = d.assignment.along dims keys j := by
  have hkeys : ∀ key ∈ keys, key ∈ d.keys := by
    intro key hkey
    obtain ⟨block, hblock, -⟩ := h key hkey
    exact Table.mem_keys_of_get? hblock
  refine ⟨_, vectorOf_eq hkeys, ?_⟩
  clear hkeys
  rw [vector_restricted]
  induction keys with
  | nil => exact ⟨rfl, fun j hj => by simp at hj⟩
  | cons key keys ih =>
    obtain ⟨hlength, hentries⟩ := ih fun k hk => h k (List.mem_cons_of_mem _ hk)
    obtain ⟨block, hblock, hsize⟩ := h key (by simp)
    rw [List.map_cons, List.flatten_cons, Table.widthOf_cons, hblock, Option.getD_some]
    refine ⟨by rw [List.length_append, hlength, hsize], fun j hj => ?_⟩
    rw [Assignment.along]
    split
    · next hlt =>
      rw [entry_append_left (by omega), assignment, hblock, Option.getD_some]
    · next hge =>
      obtain ⟨i, rfl⟩ := Nat.exists_eq_add_of_le (not_lt.mp hge)
      rw [← hsize, entry_append_right, hentries i (by omega), Nat.add_sub_cancel_left]

theorem along_pieces {keys : List Key} (hnodup : keys.Nodup) {xs : Vec ℝ}
    (hlength : xs.length = dims.widthOf keys) {j : ℕ} (hj : j < dims.widthOf keys) :
    (assignment ⟨pieces dims keys xs⟩).along dims keys j = xs.entry j := by
  induction keys generalizing xs j with
  | nil => simp at hj
  | cons key keys ih =>
    obtain ⟨hkey, hnodup⟩ := List.nodup_cons.mp hnodup
    rw [Table.widthOf_cons] at hlength hj
    have hfirst : assignment ⟨pieces dims (key :: keys) xs⟩ key =
        entry (xs.take (dims.dimOf key)) := by
      rw [assignment, pieces, Table.get?_cons, if_pos rfl, Option.getD_some]
    have hothers : ∀ k ∈ keys, assignment ⟨pieces dims (key :: keys) xs⟩ k =
        assignment ⟨pieces dims keys (xs.drop (dims.dimOf key))⟩ k := by
      intro k hk
      have hne : k ≠ key := fun heq => hkey (heq ▸ hk)
      rw [assignment, assignment, pieces, Table.get?_cons, if_neg hne]
    rw [Assignment.along]
    split
    · next hlt =>
      rw [hfirst, entry, entry, List.getD_eq_getElem?_getD, List.getD_eq_getElem?_getD,
        List.getElem?_take_of_lt hlt]
    · next hge =>
      rw [Assignment.along_congr (fun k hk i _ => congrFun (hothers k hk) i) _ (by omega),
        ih hnodup (by rw [List.length_drop]; omega) (by omega), entry, entry,
        List.getD_eq_getElem?_getD, List.getD_eq_getElem?_getD, List.getElem?_drop]
      congr 2
      omega

theorem along_append_pieces {keys : List Key} (hnodup : keys.Nodup) {xs : Vec ℝ}
    (hlength : xs.length = dims.widthOf keys) (hnew : ∀ key ∈ keys, key ∉ d.keys) {j : ℕ}
    (hj : j < dims.widthOf keys) :
    (assignment ⟨d.blocks ++ pieces dims keys xs⟩).along dims keys j = xs.entry j := by
  rw [← along_pieces hnodup hlength hj]
  refine Assignment.along_congr (fun key hkey i _ => ?_) j hj
  have hnone : d.blocks.get? key = none := Table.get?_eq_none_iff.mpr (hnew key hkey)
  rw [assignment, assignment, get?_append, hnone, Option.none_or]

theorem assignment_append_pieces {keys : List Key} (hnew : ∀ key ∈ keys, key ∉ d.keys) (xs : Vec ℝ)
    {key : Key} (hkey : key ∈ d.keys) :
    assignment ⟨d.blocks ++ pieces dims keys xs⟩ key = d.assignment key := by
  rw [assignment, get?_append_pieces hnew, if_neg fun hmem => hnew key hmem hkey]
  rfl

end Delta

namespace Conditional

variable {dims : Table ℕ} {c : Conditional ℝ}

theorem missed_congr (hc : c.IsSolvable) {x y : Assignment}
    (h : ∀ key ∈ c.frontals ++ c.separator, ∀ j < c.dims.dimOf key, x key j = y key j) :
    c.missed x = c.missed y := by
  have htriangle : c.triangle.rows.map (form · (x.along c.dims c.frontals)) =
      c.triangle.rows.map (form · (y.along c.dims c.frontals)) := by
    refine List.map_congr_left fun row hrow => form_congr fun j hj => ?_
    obtain ⟨i, hi⟩ := List.mem_iff_getElem?.mp hrow
    rw [(hc.triangular.2 i row hi).1, hc.triangle_width] at hj
    exact Assignment.along_congr (fun key hkey => h key (List.mem_append_left _ hkey)) j hj
  have hcoupling : c.coupling.rows.map (form · (x.along c.dims c.separator)) =
      c.coupling.rows.map (form · (y.along c.dims c.separator)) := by
    refine List.map_congr_left fun row hrow => form_congr fun j hj => ?_
    rw [hc.coupling_rect row hrow, hc.coupling_width] at hj
    exact Assignment.along_congr (fun key hkey => h key (List.mem_append_right _ hkey)) j hj
  rw [missed, missed, htriangle, hcoupling]

theorem misfit_eq_zero_iff (hc : c.IsSolvable) (x : Assignment) : c.misfit x = 0 ↔
    c.triangle.rows.map (form · (x.along c.dims c.frontals)) =
      Vec.sub c.rhs (c.coupling.rows.map (form · (x.along c.dims c.separator))) := by
  obtain ⟨us, hus⟩ : ∃ us, us = c.triangle.rows.map (form · (x.along c.dims c.frontals)) := ⟨_, rfl⟩
  obtain ⟨ws, hws⟩ : ∃ ws, ws = c.coupling.rows.map (form · (x.along c.dims c.separator)) :=
    ⟨_, rfl⟩
  have hw : ws.length = us.length := by rw [hws, hus, List.length_map, List.length_map, hc.coupling_height]
  have hd : c.rhs.length = us.length := by rw [hus, List.length_map, hc.rhs_length]
  rw [misfit, missed, ← hus, ← hws, squares_eq_zero_iff]
  generalize c.rhs = ds at hd
  clear hus hws
  induction us generalizing ws ds with
  | nil =>
    rw [List.length_eq_zero_iff.mp hw, List.length_eq_zero_iff.mp hd]
    simp [Vec.add, Vec.sub]
  | cons u us ih =>
    cases ws with
    | nil => simp at hw
    | cons w ws =>
      cases ds with
      | nil => simp at hd
      | cons e ds =>
        have htail := ih ws (by simpa using hw) ds (by simpa using hd)
        simp only [Vec.add, Vec.sub] at htail
        simp only [Vec.add, Vec.sub, List.zipWith_cons_cons, List.mem_cons, forall_eq_or_imp, htail,
          List.cons.injEq]
        constructor
        · rintro ⟨h1, h2⟩
          exact ⟨by linarith, h2⟩
        · rintro ⟨h1, h2⟩
          exact ⟨by linarith, h2⟩

theorem eq_of_misfit_eq_zero (hc : c.IsSolvable) {x y : Assignment} (hx : c.misfit x = 0)
    (hy : c.misfit y = 0)
    (h : ∀ key ∈ c.separator, ∀ j < c.dims.dimOf key, x key j = y key j) {key : Key}
    (hkey : key ∈ c.frontals) {j : ℕ} (hj : j < c.dims.dimOf key) : x key j = y key j := by
  rw [misfit_eq_zero_iff hc] at hx hy
  have hcoupling : c.coupling.rows.map (form · (x.along c.dims c.separator)) =
      c.coupling.rows.map (form · (y.along c.dims c.separator)) := by
    refine List.map_congr_left fun row hrow => form_congr fun j hj => ?_
    rw [hc.coupling_rect row hrow, hc.coupling_width] at hj
    exact Assignment.along_congr h j hj
  rw [hcoupling, ← hy] at hx
  have hall := Triangular.eq_of_map_form_eq hc.triangular hx
  have hwidth : c.triangle.rows.length = c.dims.widthOf c.frontals := by
    rw [← hc.triangle_width]
    simpa using hc.triangular.1
  refine Assignment.eq_of_along_eq (fun i hi => ?_) hkey hj
  have := hall i (hwidth.symm ▸ hi)
  rwa [Nat.zero_add] at this

/-- What is left of the right-hand side when the separator is known. -/
theorem reducedRhs_spec (hc : c.IsSolvable) {d : Delta ℝ} (hsized : d.IsSized c.dims)
    (hknown : ∀ key ∈ c.separator, key ∈ d.keys) :
    (if c.separator.isEmpty then .ok c.rhs
      else do
        let known ← d.vectorOf c.separator
        let product ← c.coupling.mulVec? known
        return Vec.sub c.rhs product : Except Error (Vec ℝ)) =
      .ok (Vec.sub c.rhs
        (c.coupling.rows.map (form · (d.assignment.along c.dims c.separator)))) := by
  split
  · next hempty =>
    have hnil : c.separator = [] := List.isEmpty_iff.mp hempty
    have hzero : c.coupling.rows.map (form · (d.assignment.along c.dims c.separator)) =
        c.rhs.map fun _ => 0 := by
      have hcount : c.coupling.rows.length = c.rhs.length :=
        hc.coupling_height.trans hc.rhs_length.symm
      have hall : ∀ row ∈ c.coupling.rows,
          form row (d.assignment.along c.dims c.separator) = 0 := by
        intro row hrow
        have hlength := hc.coupling_rect row hrow
        rw [hc.coupling_width, hnil, Table.widthOf_nil] at hlength
        rw [List.length_eq_zero_iff.mp hlength]
        rfl
      rw [List.map_congr_left hall, List.map_const', List.map_const', hcount]
    rw [hzero, Vec.sub, List.zipWith_map_right, List.zipWith_self]
    simp
  · obtain ⟨xs, hxs, hlength, hentries⟩ := (hsized.covers hknown).vectorOf_eq_ok
    have happly := Mat.mulVec?_eq_ok hc.coupling_rect (hlength.trans hc.coupling_width.symm)
    have hproduct : c.coupling.rows.map (form · xs.entry) =
        c.coupling.rows.map (form · (d.assignment.along c.dims c.separator)) := by
      refine List.map_congr_left fun row hrow => form_congr fun j hj => hentries j ?_
      rwa [hc.coupling_rect row hrow, hc.coupling_width] at hj
    simp only [hxs, bind, Except.bind, happly, hproduct]
    rfl

/-- **A conditional is solved** once its separator is known: its variables are written behind the
    others, and then it misses nothing. -/
theorem solve_spec (hc : c.IsSolvable) {d : Delta ℝ} (hsized : d.IsSized c.dims)
    (hnodup : c.frontals.Nodup) (hdims : ∀ key ∈ c.frontals, ∃ n, c.dims.get? key = some n)
    (hnew : ∀ key ∈ c.frontals, key ∉ d.keys) (hknown : ∀ key ∈ c.separator, key ∈ d.keys) :
    ∃ d', c.solve d = .ok d' ∧ d'.keys = d.keys ++ c.frontals ∧ d'.IsSized c.dims ∧
      (∀ key ∈ d.keys, d'.assignment key = d.assignment key) ∧ c.misfit d'.assignment = 0 := by
  have hrhs := reducedRhs_spec hc hsized hknown
  obtain ⟨ys, hys⟩ : ∃ ys, ys = Vec.sub c.rhs
      (c.coupling.rows.map (form · (d.assignment.along c.dims c.separator))) := ⟨_, rfl⟩
  rw [← hys] at hrhs
  have hlength : ys.length = c.triangle.rows.length := by
    rw [hys, Vec.sub, List.length_zipWith, List.length_map, hc.rhs_length, hc.coupling_height,
      min_self]
  obtain ⟨xs, hsolve, hwidth, hforms, -⟩ := Triangular.solve_eq_ok hc.triangular hlength
  rw [hc.triangle_width] at hwidth
  have hwrite := Delta.writeBlocks_eq hdims hnodup xs d hnew
  have hfrontals := fun j hj => Delta.along_append_pieces (d := d) (j := j) hnodup hwidth hnew hj
  have hothers : ∀ key ∈ d.keys, Delta.assignment ⟨d.blocks ++ Delta.pieces c.dims c.frontals xs⟩
      key = d.assignment key := fun key hkey => Delta.assignment_append_pieces hnew xs hkey
  refine ⟨⟨d.blocks ++ Delta.pieces c.dims c.frontals xs⟩, ?_, ?_, ?_, ?_, ?_⟩
  · unfold solve
    rw [hrhs]
    simp only [bind, Except.bind, hsolve, hwrite]
  · rw [Delta.keys, Table.keys, List.map_append]
    exact congrArg _ (Delta.keys_pieces _ _)
  · intro key block hblock
    rw [Delta.get?_append_pieces hnew xs key] at hblock
    split at hblock
    · next hkey =>
      have hroom := Table.columnOf_add_dimOf_le c.dims hkey
      rw [← Option.some.inj hblock, List.length_take, List.length_drop]
      omega
    · exact hsized key block hblock
  · exact hothers
  · rw [misfit_eq_zero_iff hc]
    have hseparator : ∀ row ∈ c.coupling.rows,
        form row ((Delta.assignment ⟨d.blocks ++ Delta.pieces c.dims c.frontals xs⟩).along c.dims
          c.separator) = form row (d.assignment.along c.dims c.separator) := by
      intro row hrow
      refine form_congr fun j hj => ?_
      rw [hc.coupling_rect row hrow, hc.coupling_width] at hj
      refine Assignment.along_congr (fun key hkey j _ => ?_) j hj
      rw [hothers key (hknown key hkey)]
    have hsolved : ∀ row ∈ c.triangle.rows,
        form row ((Delta.assignment ⟨d.blocks ++ Delta.pieces c.dims c.frontals xs⟩).along c.dims
          c.frontals) = form row xs.entry := by
      intro row hrow
      obtain ⟨i, hi⟩ := List.mem_iff_getElem?.mp hrow
      refine form_congr fun j hj => hfrontals j ?_
      rwa [(hc.triangular.2 i row hi).1, hc.triangle_width] at hj
    rw [List.map_congr_left hsolved, List.map_congr_left hseparator, hforms, hys]

theorem solve_equation (key : Key) (a b : ℝ) :
    solve ⟨[key], [], [(key, 1)], ⟨1, [[a]]⟩, ⟨0, [[]]⟩, [b]⟩ Delta.empty =
      .ok ⟨[(key, [b / a])]⟩ := by
  simp [solve, Triangular.solve, Triangular.solveFrom, Vec.isFinite_real, writeBlocks, Delta.write,
    Delta.empty, Table.set, Table.find, Table.get?, Vec.dot, Vec.sum_real, bind, Except.bind]

/-! ### Schedules -/

/-- A conditional as elimination leaves it, in which every variable that is solved for has a
    size. -/
structure IsProper (dims : Table ℕ) (c : Conditional ℝ) : Prop where
  solvable : c.IsSolvable
  dims_eq : c.dims = dims
  sized : ∀ key ∈ c.frontals, ∃ n, dims.get? key = some n

/-- **The conditionals of a schedule are solved**, and then nothing is missed in any of them. -/
theorem Scheduled.solve_spec {known : List Key} {cs : List (Conditional ℝ)}
    (h : Scheduled known cs) (hproper : ∀ c ∈ cs, c.IsProper dims) {d : Delta ℝ}
    (hkeys : d.keys = known) (hsized : d.IsSized dims) :
    ∃ d', cs.foldlM (fun d c => c.solve d) d = .ok d' ∧
      d'.keys = known ++ cs.flatMap (·.frontals) ∧ d'.IsSized dims ∧
      (∀ key ∈ known, d'.assignment key = d.assignment key) ∧
      ∀ c ∈ cs, c.misfit d'.assignment = 0 := by
  induction h generalizing d with
  | nil known => exact ⟨d, rfl, by simpa using hkeys, hsized, fun _ _ => rfl, by simp⟩
  | @cons known c cs hfrontals hnew hseparator _ ih =>
    subst hkeys
    obtain ⟨hsolvable, hdims, hsizes⟩ := hproper c (by simp)
    subst hdims
    obtain ⟨next, hsolve, hnext, hnextSized, hsame, hzero⟩ :=
      Conditional.solve_spec hsolvable hsized hfrontals hsizes hnew hseparator
    obtain ⟨last, hfold, hlast, hlastSized, hkept, hzeros⟩ :=
      ih (fun c hc => hproper c (List.mem_cons_of_mem _ hc)) hnext hnextSized
    refine ⟨last, ?_, ?_, hlastSized, ?_, ?_⟩
    · rw [foldlM_ok_cons hsolve, hfold]
    · rw [hlast, List.flatMap_cons, List.append_assoc]
    · intro key hkey
      rw [hkept key (List.mem_append_left _ hkey), hsame key hkey]
    · intro c' hc'
      rcases List.mem_cons.mp hc' with rfl | hc'
      · have hagree : ∀ key ∈ c'.frontals ++ c'.separator, ∀ j < c'.dims.dimOf key,
            last.assignment key j = next.assignment key j := by
          intro key hkey j _
          have hmem : key ∈ d.keys ++ c'.frontals := by
            rcases List.mem_append.mp hkey with hkey | hkey
            · exact List.mem_append_right _ hkey
            · exact List.mem_append_left _ (hseparator key hkey)
          rw [hkept key hmem]
        rw [misfit, missed_congr hsolvable hagree]
        exact hzero
      · exact hzeros c' hc'

/-- Assignments that agree on what is known and miss nothing in a schedule agree on all that is
    solved for. -/
theorem Scheduled.eq_of_misfit_eq_zero {known : List Key} {cs : List (Conditional ℝ)}
    (h : Scheduled known cs) (hproper : ∀ c ∈ cs, c.IsProper dims) {x y : Assignment}
    (hx : ∀ c ∈ cs, c.misfit x = 0) (hy : ∀ c ∈ cs, c.misfit y = 0)
    (hknown : ∀ key ∈ known, ∀ j < dims.dimOf key, x key j = y key j) :
    ∀ key ∈ cs.flatMap (·.frontals), ∀ j < dims.dimOf key, x key j = y key j := by
  induction h with
  | nil known => simp
  | @cons known c cs _ _ hseparator _ ih =>
    obtain ⟨hsolvable, hdims, -⟩ := hproper c (by simp)
    subst hdims
    have hfrontals : ∀ key ∈ c.frontals, ∀ j < c.dims.dimOf key, x key j = y key j :=
      fun key hkey j hj => Conditional.eq_of_misfit_eq_zero hsolvable (hx c (by simp))
        (hy c (by simp)) (fun key hkey => hknown key (hseparator key hkey)) hkey hj
    have hrest := ih (fun c hc => hproper c (List.mem_cons_of_mem _ hc))
      (fun c hc => hx c (List.mem_cons_of_mem _ hc)) (fun c hc => hy c (List.mem_cons_of_mem _ hc))
      fun key hkey => (List.mem_append.mp hkey).elim (hknown key) (hfrontals key)
    intro key hkey
    rw [List.flatMap_cons] at hkey
    exact (List.mem_append.mp hkey).elim (hfrontals key) (hrest key)

end Conditional

end LeastSquares
