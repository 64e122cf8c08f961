/-
  LeastSquares/Proofs/DerivativeChecks.lean
  =========================================
  **What a check of a given derivative says.**

  A derivative agrees with the difference quotients when every entry does, after both are repeated to a
  common shape.  For a matrix of the shape of the quotients nothing is repeated, and agreement is that of
  the entries at the same places; without tolerances the two matrices are then the same.  A derivative of
  another shape is not refused: it agrees when the quotients have a row, a column or an entry over and over.
-/
import LeastSquares.Proofs.DifferenceQuotients
import LeastSquares.Scalar.Double

namespace LeastSquares

variable {α β : Type}

theorem all_zipWith_iff {p : α → β → Bool} {xs : List α} {ys : List β} (h : xs.length = ys.length) :
    (List.zipWith p xs ys).all id = true ↔ List.Forall₂ (fun x y => p x y = true) xs ys := by
  induction xs generalizing ys with
  | nil =>
    obtain rfl : ys = [] := List.eq_nil_of_length_eq_zero h.symm
    simp
  | cons x xs ih =>
    obtain _ | ⟨y, ys⟩ := ys
    · cases h
    · simp [List.forall₂_cons, ih (Nat.succ.inj h)]

/-! ### Tolerances -/

namespace Scalar

/-- A number is near another one: off by the tolerances at most, or the same. -/
def Near [Scalar α] (a r p q : α) : Prop :=
  abs (p - q) ≤ a + r * abs q ∧ isFinite q = true ∨ p ≤ q ∧ q ≤ p

theorem close_iff [Scalar α] {a r p q : α} : close a r p q = true ↔ Near a r p q := by
  simp [close, Near, same]

theorem near_real {a r p q : ℝ} : Near a r p q ↔ |p - q| ≤ a + r * |q| ∨ p = q := by
  simp only [Near, abs_real, isFinite_real, and_true, le_antisymm_iff]

theorem le_of_near {a r p q : ℝ} (ha : 0 ≤ a) (hr : 0 ≤ r) (h : Near a r p q) : |p - q| ≤ a + r * |q| := by
  obtain hle | rfl := near_real.mp h
  · exact hle
  · rw [sub_self, abs_zero]
    positivity

end Scalar

namespace Tensor

/-! ### Arrays that agree -/

variable [Scalar α]

/-- A number that stands for itself is an array without axes. -/
theorem ofArguments_of_toArgument {given : Given α} {x : α} (h : given.toArgument = .ok x) :
    ofNested given = .ok ⟨[], [given]⟩ ∧ ofArguments given = .ok (single x) := by
  have hnested : ofNested given = .ok ⟨[], [given]⟩ := by
    cases given with
    | list items => cases h
    | _ => rfl
  refine ⟨hnested, ?_⟩
  simp only [ofArguments, ofLeaves, hnested, h, bind, Except.bind, List.mapM_cons, List.mapM_nil, pure, Except.pure]
  rfl

/-- **Arrays agree when they do at every place**, after both are repeated to their common shape. -/
theorem close_eq {absolute relative : Given α} {a r : α} (ha : absolute.toArgument = .ok a)
    (hr : relative.toArgument = .ok r) {s t : Tensor α} (hs : s.IsRegular) (ht : t.IsRegular) :
    close absolute relative s t = (commonShape s.shape t.shape).map fun shape =>
      (List.zipWith (Scalar.close a r) (s.spread shape) (t.spread shape)).all id := by
  obtain ⟨hnested, habsolute⟩ := ofArguments_of_toArgument ha
  obtain ⟨hnested', hrelative⟩ := ofArguments_of_toArgument hr
  have hbounds : Tensor.combine Prod.mk (single a) (single r) = .ok (single (a, r)) := rfl
  have hpairs := hs.combine_eq ht (Prod.mk (α := α) (β := α))
  simp only [close, hnested, hnested', habsolute, hrelative, hbounds, bind, Except.bind]
  cases hshape : commonShape s.shape t.shape with
  | error e =>
    rw [hshape] at hpairs
    rw [hpairs]
    rfl
  | ok shape =>
    rw [hshape] at hpairs
    rw [hpairs]
    simp only [Except.map, (hs.combine ht hpairs).combine_single, Tensor.map, List.map_zipWith]
    rfl

end Tensor

namespace Derivative

variable [Scalar α] {f : ArrayFunction α} {x : Tensor α} {h absolute relative : Given α} {a r : α}

/-- The difference quotients fill a matrix. -/
theorem isRectangular_of_ofFunction {name : String} {numeric : Mat α} (hm : ofFunction name f x h = .ok numeric) :
    numeric.IsRectangular := by
  obtain ⟨start, -, hm⟩ := bind_eq_ok.mp hm
  obtain ⟨side, -, hm⟩ := bind_eq_ok.mp hm
  obtain ⟨columns, hcolumns, hm⟩ := bind_eq_ok.mp hm
  cases hm
  have hlength := (mapM_eq_ok_iff.mp hcolumns).length_eq
  rw [List.length_range] at hlength
  intro row hrow
  obtain ⟨i, -, rfl⟩ := List.mem_map.mp hrow
  rw [List.length_map, ← hlength]

/-- What a check says about a derivative: whether each entry is near that of the quotients, after both are
    repeated to a common shape.  Nothing is repeated when the derivative has the shape of the quotients. -/
structure Check.IsOf (c : Check α) (a r : α) (analytic : Tensor α) (numeric : Mat α) : Prop where
  rectangular : numeric.IsRectangular
  agrees_iff : ∃ shape, Tensor.commonShape analytic.shape [numeric.height, numeric.width] = .ok shape ∧
    (c.agrees = true ↔
      List.Forall₂ (Scalar.Near a r) (analytic.spread shape) (numeric.toTensor.spread shape))
  agrees_iff_of_shape : analytic.shape = [numeric.height, numeric.width] →
    (c.agrees = true ↔ List.Forall₂ (Scalar.Near a r) analytic.data numeric.entries)

/-- **A check compares entries**, over doubles as over any carrier. -/
theorem exists_isOf_of_check {analytic : Tensor α} {c : Check α} (ha : absolute.toArgument = .ok a)
    (hr : relative.toArgument = .ok r) (hregular : analytic.IsRegular)
    (hc : check f (.ok analytic) x h absolute relative = .ok c) :
    ∃ numeric, ofFunction usual f x h = .ok numeric ∧ c.IsOf a r analytic numeric := by
  obtain ⟨_, ⟨⟩, hc⟩ := bind_eq_ok.mp hc
  obtain ⟨numeric, hnumeric, hc⟩ := bind_eq_ok.mp hc
  obtain ⟨errors, -, hc⟩ := bind_eq_ok.mp hc
  obtain ⟨agrees, hagrees, hc⟩ := bind_eq_ok.mp hc
  cases hc
  have hrectangular := isRectangular_of_ofFunction hnumeric
  have htensor : numeric.toTensor.IsRegular := hrectangular.toTensor
  rw [Tensor.close_eq ha hr hregular htensor] at hagrees
  obtain ⟨shape, hshape, rfl⟩ := map_eq_ok.mp hagrees
  obtain ⟨hspread, hspread'⟩ := Tensor.commonShape_eq_ok hshape
  have hlength : (analytic.spread shape).length = (numeric.toTensor.spread shape).length := by
    rw [Tensor.length_spread hregular hspread, Tensor.length_spread htensor hspread']
  have hentries := all_zipWith_iff (p := Scalar.close a r) hlength
  simp only [Scalar.close_iff] at hentries
  refine ⟨numeric, hnumeric, hrectangular, ⟨shape, hshape, hentries⟩, fun hsame => ?_⟩
  obtain rfl : numeric.toTensor.shape = shape := by
    rw [hsame] at hshape
    exact Except.ok.inj ((Tensor.commonShape_self _).symm.trans hshape)
  have hanalytic : analytic.spread numeric.toTensor.shape = analytic.data := by
    have hself := Tensor.spread_self hregular
    rwa [hsame] at hself
  have hquotients : numeric.toTensor.spread numeric.toTensor.shape = numeric.entries := Tensor.spread_self htensor
  simpa only [hanalytic, hquotients] using hentries

/-- A derivative of the shape of the quotients is never refused. -/
theorem exists_check_of_shape {analytic : Tensor α} {numeric : Mat α} (ha : absolute.toArgument = .ok a)
    (hr : relative.toArgument = .ok r) (hregular : analytic.IsRegular)
    (hnumeric : ofFunction usual f x h = .ok numeric) (hshape : analytic.shape = [numeric.height, numeric.width]) :
    ∃ c, check f (.ok analytic) x h absolute relative = .ok c := by
  have htensor : numeric.toTensor.IsRegular := (isRectangular_of_ofFunction hnumeric).toTensor
  have hcommon : Tensor.commonShape analytic.shape numeric.toTensor.shape = .ok numeric.toTensor.shape := by
    rw [hshape]
    exact Tensor.commonShape_self _
  simp only [check, hnumeric, compare, hregular.combine_eq htensor, Tensor.close_eq ha hr hregular htensor, hcommon,
    bind, Except.bind, Except.map]
  exact ⟨_, rfl⟩

/-- **A check is right about derivatives of the shape of the quotients.**  It tells whether each entry is near
    that of the quotients, where a derivative of another shape is repeated to theirs.  The entries of one that
    agrees and has their shape are off by the tolerances at most, if these are not below zero, and without
    tolerances it is the matrix of the quotients. -/
theorem check_sound {f : ArrayFunction ℝ} {analytic x : Tensor ℝ} {h absolute relative : Given ℝ} {a r : ℝ}
    {c : Check ℝ} (ha : absolute.toArgument = .ok a) (hr : relative.toArgument = .ok r)
    (hregular : analytic.IsRegular) (hc : check f (.ok analytic) x h absolute relative = .ok c) :
    ∃ numeric, ofFunction usual f x h = .ok numeric ∧ c.IsOf a r analytic numeric ∧
      (analytic.shape = [numeric.height, numeric.width] → c.agrees = true →
        (0 ≤ a → 0 ≤ r → List.Forall₂ (fun p q => |p - q| ≤ a + r * |q|) analytic.data numeric.entries) ∧
          (a = 0 → r = 0 → analytic = numeric.toTensor)) := by
  obtain ⟨numeric, hnumeric, hof⟩ := exists_isOf_of_check ha hr hregular hc
  refine ⟨numeric, hnumeric, hof, fun hshape hagrees => ?_⟩
  have hnear := (hof.agrees_iff_of_shape hshape).mp hagrees
  have hclose : 0 ≤ a → 0 ≤ r → List.Forall₂ (fun p q => |p - q| ≤ a + r * |q|) analytic.data numeric.entries :=
    fun hapos hrpos => hnear.imp fun _ _ => Scalar.le_of_near hapos hrpos
  refine ⟨hclose, ?_⟩
  rintro rfl rfl
  have hequal : List.Forall₂ (· = ·) analytic.data numeric.entries :=
    (hclose le_rfl le_rfl).imp fun p q hle => by
      rw [zero_mul, add_zero] at hle
      exact sub_eq_zero.mp (abs_nonpos_iff.mp hle)
  obtain ⟨shape, data⟩ := analytic
  rw [List.forall₂_eq_eq_eq] at hequal
  rw [Mat.toTensor, ← hshape, ← hequal]

/-! The derivative of a product of two numbers, each entry with its own tolerance. -/

namespace Product

def product : ArrayFunction ℝ := fun t => .ok (.ofVector [t.data.getD 0 0 * t.data.getD 1 0])

/-- The derivative by the first number is the second one, and the other way round. -/
theorem ofFunction_product : ofFunction usual product (.ofVector [2, 3]) (.real 1) = .ok ⟨2, [[3, 2]]⟩ := by
  have hname : Difference.named usual = .ok .central := by simp [Difference.named, usual]
  have hquotients := ofFunction_ofFn (m := 1) (n := 2) (g := fun u _ => u 0 * u 1) (f := product) hname
    (fun _ => rfl) ![2, 3] 1
  have hslope : Difference.central.slope (fun (u : Fin 2 → ℝ) (_ : Fin 1) => u 0 * u 1) ![2, 3] 1 =
      !![3, 2] := by
    refine Matrix.ext fun i => Fin.forall_fin_two.mpr ⟨?_, ?_⟩ <;>
      norm_num [Difference.slope, Fin.fin_one_eq_zero i]
  rw [hslope] at hquotients
  exact hquotients

def row (x y : ℝ) : Tensor ℝ := ⟨[1, 2], [x, y]⟩

/-- The second entry is off by as much as it may be: by one quarter, and one eighth of two. -/
theorem check_sound_product : ∃ c,
    check product (.ok (row 3 (5 / 2))) (.ofVector [2, 3]) (.real 1) (.real (1 / 4)) (.real (1 / 8)) =
      .ok c ∧ c.agrees = true ∧
    ∃ numeric, ofFunction usual product (.ofVector [2, 3]) (.real 1) = .ok numeric ∧
      c.IsOf (1 / 4) (1 / 8) (row 3 (5 / 2)) numeric ∧ row 3 (5 / 2) ≠ numeric.toTensor ∧
      List.Forall₂ (fun p q => |p - q| ≤ 1 / 4 + 1 / 8 * |q|) (row 3 (5 / 2)).data numeric.entries := by
  have habsolute : (.real (1 / 4) : Given ℝ).toArgument = .ok (1 / 4) := rfl
  have hrelative : (.real (1 / 8) : Given ℝ).toArgument = .ok (1 / 8) := rfl
  have hregular : (row 3 (5 / 2)).IsRegular := rfl
  obtain ⟨c, hc⟩ := exists_check_of_shape habsolute hrelative hregular ofFunction_product rfl
  obtain ⟨numeric, hnumeric, hof, hentries⟩ := check_sound habsolute hrelative hregular hc
  obtain rfl : ⟨2, [[3, 2]]⟩ = numeric := Except.ok.inj (ofFunction_product.symm.trans hnumeric)
  have hagrees : c.agrees = true := by
    refine (hof.agrees_iff_of_shape rfl).mpr (.cons ?_ (.cons ?_ .nil)) <;>
      norm_num [Scalar.near_real]
  have hoff : row 3 (5 / 2) ≠ (⟨2, [[3, 2]]⟩ : Mat ℝ).toTensor := by
    intro hequal
    have hdata : [3, 5 / 2] = [3, (2 : ℝ)] := congrArg Tensor.data hequal
    norm_num at hdata
  exact ⟨c, hc, hagrees, _, hnumeric, hof, hoff, (hentries rfl hagrees).1 (by norm_num) (by norm_num)⟩

end Product

/-! Sums of two numbers, twice over, and a derivative of one entry. -/

namespace OneEntry

def sums : ArrayFunction Float := fun t =>
  .ok (.ofVector [t.data.getD 0 0 + t.data.getD 1 0, t.data.getD 0 0 + t.data.getD 1 0])

def oneEntry : Tensor Float := ⟨[1, 1], [1]⟩

/-- One entry agrees with a matrix of four, without any tolerance. -/
theorem agrees_of_repeated :
    ((check sums (.ok oneEntry) (.ofVector [0, 0]) (.real 1e-6) (.real 0) (.real 0)).toOption.map (·.agrees)) =
        some true ∧
      ((ofFunction usual sums (.ofVector [0, 0]) (.real 1e-6)).toOption.map fun m => [m.height, m.width]) =
        some [2, 2] := by
  decide +kernel

end OneEntry

end Derivative

end LeastSquares
