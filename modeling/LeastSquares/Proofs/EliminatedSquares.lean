/-
  LeastSquares/Proofs/EliminatedSquares.lean
  ==========================================
  **What a dense elimination returns, checked against the residuals that are computed at steps.**

  The squared residuals of the given factors, of the conditional and of the factor that is left are
  values of the functions that compute them at a step.  At every step that gives the variables
  blocks of their sizes all of them return, and the squares of the given factors are those of the
  conditional and of what is left, up to one constant.
-/
import LeastSquares.Proofs.FrontElimination
import LeastSquares.Proofs.Solution

namespace LeastSquares

open Vec

variable {dims : Table ℕ} {d : Delta ℝ}

/-! ### Squared residuals -/

/-- The sum of the squares of what a factor leaves at a step. -/
def LinearFactor.squaredResidual {α : Type} [Scalar α] (f : LinearFactor α) (d : Delta α) :
    Except Error α := do
  let r ← f.residual d
  r.normSq

/-- The sum of the squares of what a conditional leaves at a step: its triangle applied to the
    variables that it solves for, and its coupling applied to its separator, beyond its right-hand
    side. -/
def Conditional.squaredResidual {α : Type} [Scalar α] (c : Conditional α) (d : Delta α) :
    Except Error α := do
  let solved ← d.vectorOf c.frontals
  let known ← d.vectorOf c.separator
  let product ← c.triangle.mulVec? solved
  let coupled ← c.coupling.mulVec? known
  return Vec.normSq (Vec.sub (Vec.add product coupled) c.rhs)

/-- The squared residual of a factor that may not be there. -/
def Elimination.squaredUpdate {α : Type} [Scalar α] (u : Option (LinearFactor α)) (d : Delta α) :
    Except Error α :=
  match u with
  | none => .ok 0
  | some f => f.squaredResidual d

theorem LinearFactor.squaredResidual_eq_ok {f : LinearFactor ℝ} (hfits : f.Fits dims)
    (h : d.Covers f.keys dims) : f.squaredResidual d = .ok (f.misfit d.assignment) := by
  have hsquares : (Tensor.ofVector (f.missed d.assignment)).normSq = .ok (f.misfit d.assignment) := by
    rw [misfit, ← normSq_real]
    rfl
  rw [squaredResidual, residual_of_covers hfits h]
  exact hsquares

theorem Delta.Covers.mono {keys others : List Key} (h : d.Covers others dims) (hsub : keys ⊆ others) :
    d.Covers keys dims := fun key hkey => h key (hsub hkey)

theorem Conditional.squaredResidual_eq_ok {c : Conditional ℝ} (hc : c.IsSolvable)
    (h : d.Covers (c.frontals ++ c.separator) c.dims) :
    c.squaredResidual d = .ok (c.misfit d.assignment) := by
  obtain ⟨xs, hxs, hxsLength, hxsEntry⟩ :=
    (h.mono (List.subset_append_left _ _)).vectorOf_eq_ok
  obtain ⟨ys, hys, hysLength, hysEntry⟩ :=
    (h.mono (List.subset_append_right _ _)).vectorOf_eq_ok
  have htriangle : c.triangle.IsRectangular := by
    intro row hrow
    obtain ⟨i, hi⟩ := List.mem_iff_getElem?.mp hrow
    exact (hc.triangular.2 i row hi).1
  have hsolved : c.triangle.rows.map (form · xs.entry) =
      c.triangle.rows.map (form · (d.assignment.along c.dims c.frontals)) := by
    refine List.map_congr_left fun row hrow => form_congr fun j hj => hxsEntry j ?_
    rwa [htriangle row hrow, hc.triangle_width] at hj
  have hknown : c.coupling.rows.map (form · ys.entry) =
      c.coupling.rows.map (form · (d.assignment.along c.dims c.separator)) := by
    refine List.map_congr_left fun row hrow => form_congr fun j hj => hysEntry j ?_
    rwa [hc.coupling_rect row hrow, hc.coupling_width] at hj
  have hproduct := Mat.mulVec?_eq_ok htriangle (hxsLength.trans hc.triangle_width.symm)
  have hcoupled := Mat.mulVec?_eq_ok hc.coupling_rect (hysLength.trans hc.coupling_width.symm)
  rw [hsolved] at hproduct
  rw [hknown] at hcoupled
  simp only [squaredResidual, hxs, hys, bind, Except.bind, hproduct, hcoupled, normSq_real]
  rfl

namespace Elimination

theorem squaredUpdate_eq_ok {u : Option (LinearFactor ℝ)} (hfits : ∀ f, u = some f → f.Fits dims)
    (h : ∀ f, u = some f → d.Covers f.keys dims) :
    squaredUpdate u d = .ok (leftMisfit u d.assignment) := by
  cases u with
  | none => rfl
  | some f => exact LinearFactor.squaredResidual_eq_ok (hfits f rfl) (h f rfl)

/-! ### The split -/

variable {factors : List (LinearFactor ℝ)} {frontals : List Key} {position : Table ℕ}
  {c : Conditional ℝ} {u : Option (LinearFactor ℝ)}

/-- **What an elimination may return.**  The conditional is a triangular system for the eliminated
    variables; its separator holds, once and by position, the other variables of the factors; what
    is left is a factor on the separator; and the squared residuals of the factors are split. -/
structure Splits (factors : List (LinearFactor ℝ)) (frontals : List Key) (dims position : Table ℕ)
    (c : Conditional ℝ) (u : Option (LinearFactor ℝ)) : Prop where
  frontals_eq : c.frontals = frontals
  triangular : Triangular.IsTriangular c.triangle
  triangle_width : c.triangle.width = dims.widthOf frontals
  separator_nodup : c.separator.Nodup
  mem_separator : ∀ key, key ∈ c.separator ↔ key ∉ frontals ∧ ∃ f ∈ factors, key ∈ f.keys
  separator_sorted : c.separator.Pairwise fun a b =>
    ∃ i j, position.get? a = some i ∧ position.get? b = some j ∧ i ≤ j
  update : ∀ f, u = some f → f.Fits dims ∧ f.keys = c.separator
  squares : ∃ rest : ℝ, 0 ≤ rest ∧ (c.separator ≠ [] → rest = 0) ∧ (u ≠ none → rest = 0) ∧
    ∀ d : Delta ℝ, d.Covers (frontals ++ c.separator) dims → ∃ given solved left,
      factors.mapM (LinearFactor.squaredResidual · d) = .ok given ∧
        c.squaredResidual d = .ok solved ∧ squaredUpdate u d = .ok left ∧
        given.sum = solved + left + rest

/-- **A dense elimination splits the squared residuals of its factors** at every step. -/
theorem eliminate_splits_squares (h : eliminate factors frontals dims position = .ok (c, u))
    (hnodup : frontals.Nodup) (hfits : ∀ f ∈ factors, f.Fits dims) :
    Splits factors frontals dims position c u := by
  obtain ⟨hsolvable, hleft, rest, hrest, hseparator, hsplit⟩ := eliminate_split h hnodup hfits
  obtain ⟨rfl, rfl, hkeys, hupdate⟩ := eliminate_keys h
  obtain ⟨hsepNodup, hsepMem, hsepSorted⟩ := separatorOf_eq_ok hkeys
  obtain ⟨-, hcovered⟩ := separatorOf_covers hkeys hnodup
  refine ⟨rfl, hsolvable.triangular, hsolvable.triangle_width, hsepNodup, hsepMem, hsepSorted,
    fun f hf => ⟨hleft f hf, (hupdate f hf).2⟩, rest, hrest, hseparator, ?_, fun d hd => ?_⟩
  · intro hu
    obtain ⟨f, hf⟩ := Option.ne_none_iff_exists'.mp hu
    exact hseparator (hupdate f hf).1
  · have hgiven : ∀ f ∈ factors, f.squaredResidual d = .ok (f.misfit d.assignment) := fun f hf =>
      LinearFactor.squaredResidual_eq_ok (hfits f hf) (hd.mono fun key => hcovered f hf key)
    refine ⟨_, _, _, mapM_eq_ok_map hgiven, Conditional.squaredResidual_eq_ok hsolvable hd, ?_,
      hsplit d.assignment⟩
    refine squaredUpdate_eq_ok hleft fun f hf => ?_
    rw [(hupdate f hf).2]
    exact hd.mono (List.subset_append_right _ _)

/-- Of two equations for two numbers, one is left for the second number. -/
theorem meeting_splits_squares : Splits [Meeting.first] [.number 0] Meeting.sizes
    Meeting.inTurn.positions ⟨[.number 0], [.number 2], Meeting.sizes, ⟨1, [[1]]⟩, ⟨1, [[1]]⟩, [0]⟩
    (some (equation (.number 2) 2 4)) := by
  refine eliminate_splits_squares Meeting.eliminate_first (by decide) fun f hf => ?_
  obtain rfl := List.mem_singleton.mp hf
  simp [Meeting.first, LinearFactor.Fits, Table.keys, Meeting.sizes, Table.get?, Mat.height,
    Mat.IsRectangular]
  rfl

end Elimination

end LeastSquares
