/-
  LeastSquares/Proofs/HeadingDerivatives.lean
  ===========================================
  **The difference quotients of a measured relative pose, heading and all.**

  What two poses miss a measured relative pose by is differenced as it stands, with its heading already
  reduced.  A quotient of reduced headings is that of the headings themselves, unless the seam at half a
  turn lies between the point a step ahead and the point a step back: then a whole turn is divided by the
  length of the two steps.  In the positions the residual is affine and its quotients are exact.
-/
import LeastSquares.Factor
import LeastSquares.Proofs.PoseGroup
import LeastSquares.Proofs.Steps
import LeastSquares.Values
import Mathlib.Analysis.Real.Pi.Bounds

namespace LeastSquares

open Real

/-! ### Headings across the seam -/

namespace Pose2

theorem wrapAngle_wrapAngle_add (x t : ℝ) : wrapAngle (wrapAngle x + t) = wrapAngle (x + t) := by
  apply wrapAngle_congr
  rw [Angle.coe_add, coe_wrapAngle, Angle.coe_add]

theorem wrapAngle_add_two_pi (x : ℝ) : wrapAngle (x + 2 * π) = wrapAngle x := by
  apply wrapAngle_congr
  rw [Angle.coe_add, Angle.coe_two_pi, add_zero]

theorem wrapAngle_sub_two_pi (x : ℝ) : wrapAngle (x - 2 * π) = wrapAngle x := by
  rw [← wrapAngle_add_two_pi, sub_add_cancel]

/-- The slope that steps of length `h` to either side of a reduced heading find for it. -/
noncomputable def headingSlope (h x : ℝ) : ℝ :=
  if x ∈ Set.Ico (-π + h) (π - h) then 1 else 1 - π / h

theorem headingSlope_eq_one_iff {h : ℝ} (hpos : 0 < h) (x : ℝ) :
    headingSlope h x = 1 ↔ x ∈ Set.Ico (-π + h) (π - h) := by
  have hne : 1 - π / h ≠ 1 := by
    rw [Ne, sub_eq_self]
    exact div_ne_zero pi_ne_zero hpos.ne'
  unfold headingSlope
  split
  · next hmem => exact iff_of_true rfl hmem
  · next hmem => exact iff_of_false hne hmem

/-- A quotient of reduced headings is off by a turn when the seam lies between them. -/
theorem wrapAngle_quotient {h : ℝ} (hpos : 0 < h) (hle : h ≤ π) (x : ℝ) :
    (wrapAngle (x + h) - wrapAngle (x + -h)) / (2 * h) = headingSlope h (wrapAngle x) := by
  rw [← wrapAngle_wrapAngle_add x h, ← wrapAngle_wrapAngle_add x (-h)]
  obtain ⟨hlow, hhigh⟩ := wrapAngle_mem x
  generalize wrapAngle x = y at hlow hhigh ⊢
  have inside : ∀ {t : ℝ}, -π ≤ t → t < π → wrapAngle t = t := fun h1 h2 =>
    wrapAngle_of_mem ⟨h1, h2⟩
  unfold headingSlope
  split
  · next hmem =>
    rw [inside (by linarith) (by linarith [hmem.2]), inside (by linarith [hmem.1]) (by linarith)]
    field_simp
    ring
  · next hmem =>
    rw [Set.mem_Ico, not_and_or, not_le, not_lt] at hmem
    rcases hmem with hmem | hmem
    · have hbehind : wrapAngle (y + -h) = y + -h + 2 * π := by
        rw [← wrapAngle_add_two_pi]
        exact inside (by linarith) (by linarith)
      rw [hbehind, inside (by linarith) (by linarith)]
      field_simp
      ring
    · have hahead : wrapAngle (y + h) = y + h - 2 * π := by
        rw [← wrapAngle_sub_two_pi]
        exact inside (by linarith) (by linarith)
      rw [hahead, inside (by linarith) (by linarith)]
      field_simp
      ring

/-! ### Functions of a pose -/

/-- The central quotients of a function with poses as values, from its values a step ahead and a step
    back, which lie a span apart. -/
noncomputable def quotients (ahead behind : Pose2 ℝ) (span : ℝ) : Pose2 ℝ :=
  ⟨(ahead.x - behind.x) / span, (ahead.y - behind.y) / span, (ahead.heading - behind.heading) / span⟩

end Pose2

open Pose2 in
/-- The matrix of difference quotients of a function from poses to poses. -/
theorem Derivative.jacobian_pose {f : VecFunction ℝ} {g : Pose2 ℝ → Pose2 ℝ}
    (hf : ∀ q : Pose2 ℝ, f q.toVec = .ok (g q).toVec) (p : Pose2 ℝ) (h : ℝ) :
    let u := quotients (g ⟨p.x + h, p.y, p.heading⟩) (g ⟨p.x + -h, p.y, p.heading⟩) (2 * h)
    let v := quotients (g ⟨p.x, p.y + h, p.heading⟩) (g ⟨p.x, p.y + -h, p.heading⟩) (2 * h)
    let w := quotients (g ⟨p.x, p.y, p.heading + h⟩) (g ⟨p.x, p.y, p.heading + -h⟩) (2 * h)
    jacobian .central f p.toVec h =
      .ok ⟨3, [[u.x, v.x, w.x], [u.y, v.y, w.y], [u.heading, v.heading, w.heading]]⟩ := by
  intro u v w
  have hcolumn : ∀ place ahead behind, Vec.addAt p.toVec place h = ahead.toVec →
      Vec.addAt p.toVec place (-h) = behind.toVec →
      (do
        let entries ← Difference.central.quotient f (g p).toVec p.toVec h place
        column (g p).toVec.length entries) = .ok (quotients (g ahead) (g behind) (2 * h)).toVec := by
    intro place ahead behind hahead hbehind
    have two : (2.0 : ℝ) = 2 := by norm_num
    simp only [Difference.quotient, hahead, hbehind, hf, bind, Except.bind, two]
    rfl
  have hx := hcolumn 0 ⟨p.x + h, p.y, p.heading⟩ ⟨p.x + -h, p.y, p.heading⟩ rfl rfl
  have hy := hcolumn 1 ⟨p.x, p.y + h, p.heading⟩ ⟨p.x, p.y + -h, p.heading⟩ rfl rfl
  have hheading := hcolumn 2 ⟨p.x, p.y, p.heading + h⟩ ⟨p.x, p.y, p.heading + -h⟩ rfl rfl
  have hcolumns : (List.range p.toVec.length).mapM (fun place => do
        let entries ← Difference.central.quotient f (g p).toVec p.toVec h place
        column (g p).toVec.length entries) = .ok [u.toVec, v.toVec, w.toVec] := by
    have hrange : List.range p.toVec.length = [0, 1, 2] := rfl
    rw [hrange, List.mapM_cons, List.mapM_cons, List.mapM_cons, hx, hy, hheading]
    rfl
  simp only [bind, Except.bind] at hcolumns
  simp only [jacobian, hf, bind, Except.bind, hcolumns]
  rfl

/-! ### Quotients of a missed relative pose -/

namespace Pose2

theorem displacement_between (z a b : Pose2 ℝ) :
    displacement z (between a b) =
      ⟨Real.cos a.heading * (b.x - a.x) + Real.sin a.heading * (b.y - a.y) - z.x,
        -Real.sin a.heading * (b.x - a.x) + Real.cos a.heading * (b.y - a.y) - z.y,
        wrapAngle (b.heading - a.heading - z.heading)⟩ := by
  have hheading : wrapAngle (wrapAngle (b.heading - a.heading) - z.heading) =
      wrapAngle (b.heading - a.heading - z.heading) := wrapAngle_wrapAngle_add _ _
  rw [between_real, displacement, hheading]

variable {h : ℝ} (z a b : Pose2 ℝ)

theorem quotients_first_x (hpos : 0 < h) :
    quotients (displacement z (between ⟨a.x + h, a.y, a.heading⟩ b))
      (displacement z (between ⟨a.x + -h, a.y, a.heading⟩ b)) (2 * h) =
      ⟨-Real.cos a.heading, Real.sin a.heading, 0⟩ := by
  simp only [quotients, displacement_between, mk.injEq]
  refine ⟨?_, ?_, ?_⟩ <;> field_simp <;> ring

theorem quotients_first_y (hpos : 0 < h) :
    quotients (displacement z (between ⟨a.x, a.y + h, a.heading⟩ b))
      (displacement z (between ⟨a.x, a.y + -h, a.heading⟩ b)) (2 * h) =
      ⟨-Real.sin a.heading, -Real.cos a.heading, 0⟩ := by
  simp only [quotients, displacement_between, mk.injEq]
  refine ⟨?_, ?_, ?_⟩ <;> field_simp <;> ring

/-- Turning the first pose turns the view of the second about it; the quotient of a rotation is short
    by the factor `sin h / h`. -/
theorem quotients_first_heading (hpos : 0 < h) (hle : h ≤ π) :
    quotients (displacement z (between ⟨a.x, a.y, a.heading + h⟩ b))
      (displacement z (between ⟨a.x, a.y, a.heading + -h⟩ b)) (2 * h) =
      ⟨Real.sin h / h * (between a b).y, -(Real.sin h / h * (between a b).x),
        -headingSlope h (displacement z (between a b)).heading⟩ := by
  have hheading : headingSlope h (displacement z (between a b)).heading =
      (wrapAngle (b.heading - a.heading - z.heading + h) -
        wrapAngle (b.heading - a.heading - z.heading + -h)) / (2 * h) := by
    rw [wrapAngle_quotient hpos hle, displacement_between]
  rw [hheading, between_real a b]
  simp only [quotients, displacement_between, Real.cos_add, Real.sin_add, Real.cos_neg, Real.sin_neg,
    mk.injEq]
  refine ⟨?_, ?_, ?_⟩
  · field_simp
    ring
  · field_simp
    ring
  · rw [neg_div', neg_sub]
    ring_nf

theorem quotients_second_x (hpos : 0 < h) :
    quotients (displacement z (between a ⟨b.x + h, b.y, b.heading⟩))
      (displacement z (between a ⟨b.x + -h, b.y, b.heading⟩)) (2 * h) =
      ⟨Real.cos a.heading, -Real.sin a.heading, 0⟩ := by
  simp only [quotients, displacement_between, mk.injEq]
  refine ⟨?_, ?_, ?_⟩ <;> field_simp <;> ring

theorem quotients_second_y (hpos : 0 < h) :
    quotients (displacement z (between a ⟨b.x, b.y + h, b.heading⟩))
      (displacement z (between a ⟨b.x, b.y + -h, b.heading⟩)) (2 * h) =
      ⟨Real.sin a.heading, Real.cos a.heading, 0⟩ := by
  simp only [quotients, displacement_between, mk.injEq]
  refine ⟨?_, ?_, ?_⟩ <;> field_simp <;> ring

theorem quotients_second_heading (hpos : 0 < h) (hle : h ≤ π) :
    quotients (displacement z (between a ⟨b.x, b.y, b.heading + h⟩))
      (displacement z (between a ⟨b.x, b.y, b.heading + -h⟩)) (2 * h) =
      ⟨0, 0, headingSlope h (displacement z (between a b)).heading⟩ := by
  have hheading : headingSlope h (displacement z (between a b)).heading =
      (wrapAngle (b.heading - a.heading - z.heading + h) -
        wrapAngle (b.heading - a.heading - z.heading + -h)) / (2 * h) := by
    rw [wrapAngle_quotient hpos hle, displacement_between]
  rw [hheading]
  simp only [quotients, displacement_between, sub_self, zero_div, mk.injEq, true_and]
  ring_nf

end Pose2

/-! ### Derivatives of a measured relative pose -/

namespace Measurement

variable {first second : Key} {pose : Tensor ℝ} {point : Table (Vec ℝ)} {z a b : Pose2 ℝ} {h : ℝ}

theorem poseResidual_eq (hz : Pose2.ofTensor "a" pose = .ok z)
    (ha : point.find first = .ok a.toVec) (hb : point.find second = .ok b.toVec) :
    poseResidual first second pose point = .ok (Pose2.displacement z (a.between b)).toVec := by
  have hread : ∀ (role : String) (p : Pose2 ℝ), Pose2.ofVec role p.toVec = .ok p := fun _ _ => rfl
  simp only [poseResidual, ha, hb, hz, hread, bind, Except.bind]
  rfl

/-- The quotients of the residual in the first pose: the second as it is seen from it, and the slope
    of the heading. -/
noncomputable def firstBlock (h : ℝ) (a view : Pose2 ℝ) (slope : ℝ) : Mat ℝ :=
  let c := Real.cos a.heading
  let s := Real.sin a.heading
  ⟨3, [[-c, -s, Real.sin h / h * view.y], [s, -c, -(Real.sin h / h * view.x)], [0, 0, -slope]]⟩

/-- The quotients of the residual in the second pose. -/
noncomputable def secondBlock (a : Pose2 ℝ) (slope : ℝ) : Mat ℝ :=
  let c := Real.cos a.heading
  let s := Real.sin a.heading
  ⟨3, [[c, s, 0], [-s, c, 0], [0, 0, slope]]⟩

theorem firstBlock_heading (a view : Pose2 ℝ) (slope : ℝ) :
    (firstBlock h a view slope).rows[2]? = some [0, 0, -slope] := rfl

theorem secondBlock_heading (a : Pose2 ℝ) (slope : ℝ) :
    (secondBlock a slope).rows[2]? = some [0, 0, slope] := rfl

theorem block_first (hpos : 0 < h) (hle : h ≤ π) (hne : first ≠ second)
    (hz : Pose2.ofTensor "a" pose = .ok z) (hb : point.find second = .ok b.toVec) :
    Derivative.block (poseResidual first second pose) point first a.toVec h =
      .ok (firstBlock h a (a.between b)
        (Pose2.headingSlope h (Pose2.displacement z (a.between b)).heading)) := by
  have hf : ∀ q : Pose2 ℝ, poseResidual first second pose (point.set first q.toVec) =
      .ok (Pose2.displacement z (q.between b)).toVec := fun q =>
    poseResidual_eq hz (by rw [Table.find_eq_ok, Table.get?_set, if_pos rfl])
      (by rw [Table.find_eq_ok, Table.get?_set, if_neg hne.symm, ← Table.find_eq_ok, hb])
  rw [Derivative.block, Derivative.jacobian_pose hf, Pose2.quotients_first_x z a b hpos,
    Pose2.quotients_first_y z a b hpos, Pose2.quotients_first_heading z a b hpos hle]
  rfl

theorem block_second (hpos : 0 < h) (hle : h ≤ π) (hne : first ≠ second)
    (hz : Pose2.ofTensor "a" pose = .ok z) (ha : point.find first = .ok a.toVec) :
    Derivative.block (poseResidual first second pose) point second b.toVec h =
      .ok (secondBlock a (Pose2.headingSlope h (Pose2.displacement z (a.between b)).heading)) := by
  have hf : ∀ q : Pose2 ℝ, poseResidual first second pose (point.set second q.toVec) =
      .ok (Pose2.displacement z (a.between q)).toVec := fun q =>
    poseResidual_eq hz
      (by rw [Table.find_eq_ok, Table.get?_set, if_neg hne, ← Table.find_eq_ok, ha])
      (by rw [Table.find_eq_ok, Table.get?_set, if_pos rfl])
  rw [Derivative.block, Derivative.jacobian_pose hf, Pose2.quotients_second_x z a b hpos,
    Pose2.quotients_second_y z a b hpos, Pose2.quotients_second_heading z a b hpos hle]
  rfl

theorem blocks_poseResidual (hpos : 0 < h) (hle : h ≤ π) (hne : first ≠ second)
    (hz : Pose2.ofTensor "a" pose = .ok z) (ha : point.find first = .ok a.toVec)
    (hb : point.find second = .ok b.toVec) :
    let slope := Pose2.headingSlope h (Pose2.displacement z (a.between b)).heading
    Derivative.blocks (poseResidual first second pose) point [first, second] h =
      .ok [(first, firstBlock h a (a.between b) slope), (second, secondBlock a slope)] := by
  intro slope
  have hnodup : ([(first, firstBlock h a (a.between b) slope), (second, secondBlock a slope)].map
      Prod.fst).Nodup := by simpa using hne
  simp only [Derivative.blocks, List.mapM_cons, List.mapM_nil, ha, hb, bind, Except.bind,
    block_first hpos hle hne hz hb, block_second hpos hle hne hz ha]
  exact congrArg Except.ok (Table.ofRows_of_nodup hnodup)

theorem differenceStep_pos : (0 : ℝ) < differenceStep := by norm_num [differenceStep]

theorem differenceStep_le_pi : (differenceStep : ℝ) ≤ π := by
  have hstep : (differenceStep : ℝ) ≤ 1 := by norm_num [differenceStep]
  linarith [pi_gt_three]

end Measurement

namespace Factor

theorem of_poseBetween {first second : Key} {given : Given ℝ} {noise : Option (Noise ℝ)}
    {id : Option String} {f : Factor ℝ} (hf : poseBetween first second given noise id = .ok f) :
    first ≠ second ∧ ∃ pose, Tensor.ofGiven given = .ok pose ∧
      f.measurement = .poseBetween first second pose := by
  obtain ⟨noise', -, hf⟩ := bind_eq_ok.mp hf
  obtain ⟨u, hkeys, hf⟩ := bind_eq_ok.mp hf
  obtain ⟨pose, hpose, hf⟩ := bind_eq_ok.mp hf
  cases hf
  refine ⟨?_, pose, hpose, rfl⟩
  rintro rfl
  simp [checkKeys, distinct] at hkeys

/-- **The derivative of a measured relative pose**, as a factor is linearized with it.  With steps of
    length `h` it is exact in the positions, short by the factor `sin h / h` where the first pose turns,
    and its heading row is that of the headings exactly when the missed heading keeps a distance of `h`
    from the seam: from `-π + h`, included, to `π - h`, excluded. -/
theorem poseBetween_derivative {first second : Key} {given : Given ℝ} {z a b : Pose2 ℝ}
    {noise : Option (Noise ℝ)} {id : Option String} {f : Factor ℝ} {values : Values ℝ}
    (hf : poseBetween first second given noise id = .ok f)
    (hz : Tensor.ofGiven given = .ok (.ofVector z.toVec))
    (ha : values.get first = .ok a.toVec) (hb : values.get second = .ok b.toVec) :
    let h : ℝ := Measurement.differenceStep
    let missed := (Pose2.displacement z (a.between b)).heading
    let slope := Pose2.headingSlope h missed
    f.measurement.derivative values.entries =
      .ok [(first, Measurement.firstBlock h a (a.between b) slope),
        (second, Measurement.secondBlock a slope)] ∧
      (slope = 1 ↔ missed ∈ Set.Ico (-π + h) (π - h)) := by
  intro h missed slope
  obtain ⟨hne, pose, hpose, hmeasurement⟩ := of_poseBetween hf
  rw [hz] at hpose
  cases hpose
  rw [hmeasurement]
  exact ⟨Measurement.blocks_poseResidual Measurement.differenceStep_pos
    Measurement.differenceStep_le_pi hne rfl ha hb,
    Pose2.headingSlope_eq_one_iff Measurement.differenceStep_pos _⟩

end Factor

/-! ### A turn about -/

namespace TurnAbout

/-- A second pose, measured where a first stands and looking the other way. -/
noncomputable def measured : Pose2 ℝ := ⟨0, 0, π⟩

noncomputable def factor : Factor ℝ :=
  ⟨.poseBetween (.number 0) (.number 1) (.ofVector measured.toVec), some ⟨[1, 1, 1], .none⟩, none⟩

/-- An estimate where both look ahead. -/
def estimate : Values ℝ := ⟨[(.number 0, [0, 0, 0]), (.number 1, [0, 0, 0])]⟩

theorem poseBetween_eq :
    Factor.poseBetween (.number 0) (.number 1) (.ofVector measured.toVec)
      (some ⟨[1, 1, 1], .none⟩) none = .ok factor := by
  rw [Factor.poseBetween, Tensor.ofGiven_ofVector]
  rfl

/-- The slope of the heading where each pose stands at the origin. -/
noncomputable def slope : ℝ :=
  Pose2.headingSlope Measurement.differenceStep
    (Pose2.displacement measured (Pose2.origin.between Pose2.origin)).heading

/-- The missed heading lies on the seam. -/
theorem slope_eq : slope = 1 - π / Measurement.differenceStep := by
  have hseam : -π ∈ Set.Ico (-π) π := ⟨le_rfl, by linarith [pi_pos]⟩
  have hmissed : (Pose2.displacement measured (Pose2.origin.between Pose2.origin)).heading = -π := by
    rw [Pose2.displacement_between]
    simpa [measured, Pose2.origin] using Pose2.wrapAngle_of_mem hseam
  rw [slope, hmissed]
  exact if_neg fun hmem => by linarith [hmem.1, Measurement.differenceStep_pos]

/-- On the seam neither heading row is that of the headings. -/
theorem heading_rows :
    ∃ A B, factor.measurement.derivative estimate.entries =
        .ok [(.number 0, A), (.number 1, B)] ∧
      A.rows[2]? ≠ some ([0, 0, -1] : Vec ℝ) ∧ B.rows[2]? ≠ some ([0, 0, 1] : Vec ℝ) := by
  have hderivative : factor.measurement.derivative estimate.entries = .ok
      [(.number 0, Measurement.firstBlock Measurement.differenceStep Pose2.origin
        (Pose2.origin.between Pose2.origin) slope),
        (.number 1, Measurement.secondBlock Pose2.origin slope)] :=
    Measurement.blocks_poseResidual Measurement.differenceStep_pos Measurement.differenceStep_le_pi
      (by decide) rfl rfl rfl
  have hslope : slope ≠ 1 := by
    rw [slope_eq, Ne, sub_eq_self]
    exact div_ne_zero pi_ne_zero Measurement.differenceStep_pos.ne'
  refine ⟨_, _, hderivative, ?_, ?_⟩
  · rw [Measurement.firstBlock_heading]
    simpa using hslope
  · rw [Measurement.secondBlock_heading]
    simpa using hslope

end TurnAbout

theorem Factor.poseBetween_derivative_turnAbout :
    ∃ A B, TurnAbout.factor.measurement.derivative TurnAbout.estimate.entries =
        .ok [(.number 0, A), (.number 1, B)] ∧
      B.rows[2]? = some [0, 0, 1 - π / Measurement.differenceStep] := by
  have h := poseBetween_derivative TurnAbout.poseBetween_eq (Tensor.ofGiven_ofVector _)
    (show TurnAbout.estimate.get (.number 0) = .ok Pose2.origin.toVec from rfl)
    (show TurnAbout.estimate.get (.number 1) = .ok Pose2.origin.toVec from rfl)
  refine ⟨_, _, h.1, ?_⟩
  rw [Measurement.secondBlock_heading, ← TurnAbout.slope_eq]
  rfl

end LeastSquares
