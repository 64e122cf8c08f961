/-
  LeastSquares/Proofs/ClosedDerivatives.lean
  ==========================================
  **The derivatives in closed form are the derivatives.**

  Known values, differences, distances and known poses come with a matrix for each of their variables.  It
  is the Fréchet derivative of what the variables miss the measurement by: at all variables of the size of
  what is measured, for distances wherever the points are far enough apart to have a direction, and for
  poses wherever the missed heading is no half turn.  Where a single number is repeated to the size of the
  other operand the residual has a derivative too, but the matrix is that of variables of the measured size.
-/
import LeastSquares.Factor
import LeastSquares.Proofs.FrechetDerivatives
import LeastSquares.Proofs.HeadingDerivatives
import LeastSquares.Proofs.RegularGraphs

namespace LeastSquares

/-! ### Headings -/

namespace Pose2

open Real

/-- Away from half a turn a reduced heading grows as the heading does. -/
theorem hasDerivAt_wrapAngle {x : ℝ} (h : (x : Angle) ≠ π) : HasDerivAt (wrapAngle : ℝ → ℝ) 1 x := by
  obtain ⟨hlow, hhigh⟩ := wrapAngle_mem x
  have hne : wrapAngle x ≠ -π := by
    intro hseam
    apply h
    rw [← coe_wrapAngle x, hseam, Angle.coe_neg, Angle.neg_coe_pi]
  have hinside : -π < wrapAngle x := lt_of_le_of_ne hlow hne.symm
  -- close by, the headings are reduced by the same turns
  have hnear : ∀ᶠ y in nhds x, wrapAngle y = wrapAngle x + (y - x) := by
    have hopen : ∀ᶠ y in nhds x, wrapAngle x + (y - x) ∈ Set.Ioo (-π) π := by
      have hcontinuous : ContinuousAt (fun y => wrapAngle x + (y - x)) x := by fun_prop
      refine hcontinuous.eventually_mem (Ioo_mem_nhds ?_ ?_) <;> simpa
    filter_upwards [hopen] with y hy
    have hsame : wrapAngle (wrapAngle x + (y - x)) = wrapAngle y := by
      rw [wrapAngle_wrapAngle_add, add_sub_cancel]
    rw [← hsame, wrapAngle_of_mem ⟨hy.1.le, hy.2⟩]
  have hshift : HasDerivAt (fun y => wrapAngle x + (y - x)) 1 x :=
    ((hasDerivAt_id x).sub_const x).const_add (wrapAngle x)
  exact hshift.congr_of_eventuallyEq hnear

end Pose2

/-! ### Measurements -/

namespace Measurement

variable {n : ℕ} {point : Table (Vec ℝ)} {first second key : Key}

/-- **The derivative of a measurement is that of its residual**: it has a matrix for each variable in turn,
    the derivative of the residual in this variable, with the others held where they are. -/
def HasTrueDerivative (m : Measurement ℝ) (point : Table (Vec ℝ)) : Prop :=
  ∃ blocks, m.derivative point = .ok blocks ∧ blocks.keys = m.keys ∧ ∀ entry ∈ blocks,
    ∃ x, point.find entry.1 = .ok x ∧
      entry.2.IsDerivativeAt (fun u => m.residual (point.set entry.1 u)) x

/-- What is missed of vectors of one size, entry by entry. -/
theorem sub_ofFn (u z : Fin n → ℝ) :
    Tensor.combine (· - ·) (.ofVector (List.ofFn u)) (.ofVector (List.ofFn z)) =
      .ok (.ofVector (List.ofFn fun i => u i - z i)) := by
  rw [Tensor.combine_ofVector, Vec.combine_sub_ofFn]
  rfl

theorem hasFDerivAt_coordinate (i : Fin n) (c : ℝ) (y : Fin n → ℝ) :
    HasFDerivAt (fun u : Fin n → ℝ => u i - c) (gradientForm ((1 : Matrix (Fin n) (Fin n) ℝ) i)) y := by
  rw [gradientForm_one]
  exact (hasFDerivAt_apply i y).sub_const c

theorem hasFDerivAt_sub_const (z y : Fin n → ℝ) :
    HasFDerivAt (fun u i => u i - z i)
      (Matrix.toLin' (1 : Matrix (Fin n) (Fin n) ℝ)).toContinuousLinearMap y :=
  hasFDerivAt_of_rows fun i => hasFDerivAt_coordinate i (z i) y

theorem hasFDerivAt_const_sub (z y : Fin n → ℝ) :
    HasFDerivAt (fun u i => z i - u i)
      (Matrix.toLin' (-1 : Matrix (Fin n) (Fin n) ℝ)).toContinuousLinearMap y :=
  hasFDerivAt_of_rows fun i => by
    have hrow : (-1 : Matrix (Fin n) (Fin n) ℝ) i = -((1 : Matrix (Fin n) (Fin n) ℝ) i) := rfl
    rw [hrow, gradientForm_neg, gradientForm_one]
    exact (hasFDerivAt_apply i y).const_sub (z i)

theorem prior_isDerivativeAt (z y : Fin n → ℝ) :
    (Mat.identity n).IsDerivativeAt
      (fun u => (prior key (.ofVector (List.ofFn z))).residual (point.set key u)) (List.ofFn y) := by
  refine ⟨n, n, fun u i => u i - z i, y, 1, Mat.identity_eq n, rfl, fun u => ?_,
    hasFDerivAt_sub_const z y⟩
  simp only [residual, Table.find_set_self, bind, Except.bind, sub_ofFn]

/-- A known value is a measurement of a variable of its size. -/
theorem prior_hasTrueDerivative {x z : Vec ℝ} (hx : point.find key = .ok x)
    (hsize : x.length = z.length) : (prior key (.ofVector z)).HasTrueDerivative point := by
  obtain ⟨n, z, rfl⟩ := Vec.eq_ofFn z
  obtain ⟨y, rfl⟩ := Vec.exists_ofFn (hsize.trans List.length_ofFn)
  refine ⟨[(key, Mat.identity (List.ofFn z).length)], rfl, rfl,
    List.forall_mem_singleton.mpr ⟨_, hx, ?_⟩⟩
  rw [List.length_ofFn]
  exact prior_isDerivativeAt z y

/-! A difference is measured from the first of two variables to the second. -/

theorem residual_between (z : Fin n → ℝ) {a b : Fin n → ℝ} (ha : point.find first = .ok (List.ofFn a))
    (hb : point.find second = .ok (List.ofFn b)) :
    (between first second (.ofVector (List.ofFn z))).residual point =
      .ok (.ofVector (List.ofFn fun i => b i - a i - z i)) := by
  simp only [residual, ha, hb, bind, Except.bind, Vec.combine_sub_ofFn, sub_ofFn]
  rfl

theorem between_first_isDerivativeAt (hne : first ≠ second) (z a : Fin n → ℝ) {b : Fin n → ℝ}
    (hb : point.find second = .ok (List.ofFn b)) :
    (Mat.identity n).neg.IsDerivativeAt
      (fun u => (between first second (.ofVector (List.ofFn z))).residual (point.set first u))
      (List.ofFn a) := by
  have hneg : (Mat.identity n : Mat ℝ).neg = .ofMatrix (-1 : Matrix (Fin n) (Fin n) ℝ) := by
    rw [Mat.identity_eq, Mat.neg_ofMatrix]
  refine ⟨n, n, fun u i => b i - z i - u i, a, -1, hneg, rfl, fun u => ?_,
    hasFDerivAt_const_sub (fun i => b i - z i) a⟩
  have hvalue := residual_between z (Table.find_set_self point first (List.ofFn u))
    ((Table.find_set_of_ne point hne.symm (List.ofFn u)).trans hb)
  simpa only [sub_right_comm] using hvalue

theorem between_second_isDerivativeAt (hne : first ≠ second) (z b : Fin n → ℝ) {a : Fin n → ℝ}
    (ha : point.find first = .ok (List.ofFn a)) :
    (Mat.identity n).IsDerivativeAt
      (fun u => (between first second (.ofVector (List.ofFn z))).residual (point.set second u))
      (List.ofFn b) := by
  refine ⟨n, n, fun u i => u i - (a i + z i), b, 1, Mat.identity_eq n, rfl, fun u => ?_,
    hasFDerivAt_sub_const (fun i => a i + z i) b⟩
  have hvalue := residual_between z ((Table.find_set_of_ne point hne (List.ofFn u)).trans ha)
    (Table.find_set_self point second (List.ofFn u))
  simpa only [sub_sub] using hvalue

theorem between_hasTrueDerivative {a b z : Vec ℝ} (hne : first ≠ second)
    (ha : point.find first = .ok a) (hb : point.find second = .ok b) (hsize : a.length = z.length)
    (hsize' : b.length = z.length) : (between first second (.ofVector z)).HasTrueDerivative point := by
  obtain ⟨n, z, rfl⟩ := Vec.eq_ofFn z
  obtain ⟨a, rfl⟩ := Vec.exists_ofFn (hsize.trans List.length_ofFn)
  obtain ⟨b, rfl⟩ := Vec.exists_ofFn (hsize'.trans List.length_ofFn)
  refine ⟨[(first, (Mat.identity (List.ofFn z).length).neg), (second, Mat.identity (List.ofFn z).length)],
    rfl, rfl, List.forall_mem_cons.mpr ⟨⟨_, ha, ?_⟩, List.forall_mem_singleton.mpr ⟨_, hb, ?_⟩⟩⟩
  · rw [List.length_ofFn]
    exact between_first_isDerivativeAt hne z a hb
  · rw [List.length_ofFn]
    exact between_second_isDerivativeAt hne z b ha

/-! A distance grows along the direction from one point to the other. -/

theorem residual_range (d : ℝ) {a b : Fin n → ℝ} (ha : point.find first = .ok (List.ofFn a))
    (hb : point.find second = .ok (List.ofFn b)) :
    (range first second d).residual point =
      .ok (.ofVector [Real.sqrt (∑ i, (b i - a i) ^ 2) - d]) := by
  simp only [residual, ha, hb, bind, Except.bind, Vec.combine_sub_ofFn, Vec.norm_eq_sqrt_sum]
  rfl

/-- The gradient of a distance is the matrix of one row. -/
theorem hasFDerivAt_distance_sub (c : Fin n → ℝ) (d : ℝ) {y : Fin n → ℝ}
    (h : ∑ j, (y j - c j) ^ 2 ≠ 0) :
    HasFDerivAt (fun (u : Fin n → ℝ) (_ : Fin 1) => Real.sqrt (∑ j, (u j - c j) ^ 2) - d)
      (Matrix.toLin' fun (_ : Fin 1) j =>
        (y j - c j) / Real.sqrt (∑ j, (y j - c j) ^ 2)).toContinuousLinearMap y :=
  hasFDerivAt_of_rows fun _ => (hasFDerivAt_distance h).sub_const d

theorem row_eq (v : Fin n → ℝ) :
    (⟨(List.ofFn v).length, [List.ofFn v]⟩ : Mat ℝ) = .ofMatrix fun (_ : Fin 1) => v := by
  simp [Mat.ofMatrix]

theorem coincidence_pos : (0 : ℝ) < coincidence := by norm_num [coincidence]

theorem direction_ofFn {v : Fin n → ℝ} (h : coincidence ≤ Real.sqrt (∑ i, v i ^ 2)) :
    direction (List.ofFn v) = List.ofFn fun j => v j / Real.sqrt (∑ i, v i ^ 2) := by
  simp only [direction, Vec.norm_eq_sqrt_sum, if_neg h.not_gt, List.map_ofFn, Function.comp_def]

theorem sum_sq_ne_zero {v : Fin n → ℝ} (h : coincidence ≤ Real.sqrt (∑ i, v i ^ 2)) :
    ∑ i, v i ^ 2 ≠ 0 := fun hzero => by
  rw [hzero, Real.sqrt_zero] at h
  exact h.not_gt coincidence_pos

theorem range_first_isDerivativeAt (hne : first ≠ second) (d : ℝ) {a b : Fin n → ℝ}
    (hb : point.find second = .ok (List.ofFn b))
    (hfar : coincidence ≤ Real.sqrt (∑ i, (b i - a i) ^ 2)) :
    let unit := direction (List.ofFn fun i => b i - a i)
    (⟨unit.length, [Vec.neg unit]⟩ : Mat ℝ).IsDerivativeAt
      (fun u => (range first second d).residual (point.set first u)) (List.ofFn a) := by
  intro unit
  have hflip : ∀ u : Fin n → ℝ, ∑ j, (b j - u j) ^ 2 = ∑ j, (u j - b j) ^ 2 := fun u =>
    Finset.sum_congr rfl fun j _ => sub_sq_comm (b j) (u j)
  have hne' : ∑ j, (a j - b j) ^ 2 ≠ 0 := by
    rw [← hflip]
    exact sum_sq_ne_zero hfar
  have hunit : (⟨unit.length, [Vec.neg unit]⟩ : Mat ℝ) = .ofMatrix fun (_ : Fin 1) j =>
      (a j - b j) / Real.sqrt (∑ j, (a j - b j) ^ 2) := by
    rw [← row_eq]
    simp only [unit, direction_ofFn hfar, hflip, Vec.neg, List.map_ofFn, Function.comp_def,
      List.length_ofFn, ← neg_div, neg_sub]
  refine ⟨1, n, _, a, _, hunit, rfl, fun u => ?_, hasFDerivAt_distance_sub b d hne'⟩
  have hvalue := residual_range d (Table.find_set_self point first (List.ofFn u))
    ((Table.find_set_of_ne point hne.symm (List.ofFn u)).trans hb)
  simpa [hflip] using hvalue

theorem range_second_isDerivativeAt (hne : first ≠ second) (d : ℝ) {a b : Fin n → ℝ}
    (ha : point.find first = .ok (List.ofFn a))
    (hfar : coincidence ≤ Real.sqrt (∑ i, (b i - a i) ^ 2)) :
    let unit := direction (List.ofFn fun i => b i - a i)
    (⟨unit.length, [unit]⟩ : Mat ℝ).IsDerivativeAt
      (fun u => (range first second d).residual (point.set second u)) (List.ofFn b) := by
  intro unit
  have hunit : (⟨unit.length, [unit]⟩ : Mat ℝ) = .ofMatrix fun (_ : Fin 1) j =>
      (b j - a j) / Real.sqrt (∑ j, (b j - a j) ^ 2) := by
    rw [← row_eq]
    simp only [unit, direction_ofFn hfar]
  refine ⟨1, n, _, b, _, hunit, rfl, fun u => ?_, hasFDerivAt_distance_sub a d (sum_sq_ne_zero hfar)⟩
  have hvalue := residual_range d ((Table.find_set_of_ne point hne (List.ofFn u)).trans ha)
    (Table.find_set_self point second (List.ofFn u))
  simpa using hvalue

/-- A distance is a measurement of two points of one size that do not coincide. -/
theorem range_hasTrueDerivative {d : ℝ} {a b : Vec ℝ} (hne : first ≠ second)
    (ha : point.find first = .ok a) (hb : point.find second = .ok b) (hsize : a.length = b.length)
    (hfar : coincidence ≤ Vec.norm (Vec.sub b a)) : (range first second d).HasTrueDerivative point := by
  obtain ⟨n, b, rfl⟩ := Vec.eq_ofFn b
  obtain ⟨a, rfl⟩ := Vec.exists_ofFn (hsize.trans List.length_ofFn)
  rw [Vec.sub_ofFn, Vec.norm_eq_sqrt_sum] at hfar
  let unit := direction (List.ofFn fun i => b i - a i)
  have hblocks : (range first second d).derivative point =
      .ok [(first, ⟨unit.length, [Vec.neg unit]⟩), (second, ⟨unit.length, [unit]⟩)] := by
    simp only [derivative, ha, hb, bind, Except.bind, Vec.combine_sub_ofFn]
    rfl
  exact ⟨_, hblocks, rfl, List.forall_mem_cons.mpr ⟨⟨_, ha, range_first_isDerivativeAt hne d hb hfar⟩,
    List.forall_mem_singleton.mpr ⟨_, hb, range_second_isDerivativeAt hne d ha hfar⟩⟩⟩

/-! A known pose misses a pose by the differences of the positions and by the reduced heading. -/

theorem posePrior_isDerivativeAt {pose : Tensor ℝ} {z p : Pose2 ℝ}
    (hz : Pose2.ofTensor "a" pose = .ok z)
    (hhalf : ((p.heading - z.heading : ℝ) : Real.Angle) ≠ Real.pi) :
    (Mat.identity 3).IsDerivativeAt (fun u => (posePrior key pose).residual (point.set key u)) p.toVec := by
  have hp : p.toVec = List.ofFn ![p.x, p.y, p.heading] := rfl
  refine ⟨3, 3, fun u => ![u 0 - z.x, u 1 - z.y, Pose2.wrapAngle (u 2 - z.heading)], _, 1,
    Mat.identity_eq 3, hp, fun u => ?_, hasFDerivAt_of_rows fun i => ?_⟩
  · have hread : Pose2.ofVec "b" (List.ofFn u) = .ok ⟨u 0, u 1, u 2⟩ := rfl
    simp only [residual, Table.find_set_self, hz, hread, bind, Except.bind]
    rfl
  · fin_cases i
    · exact hasFDerivAt_coordinate 0 z.x _
    · exact hasFDerivAt_coordinate 1 z.y _
    · have hwrap := (Pose2.hasDerivAt_wrapAngle hhalf).comp_hasFDerivAt ![p.x, p.y, p.heading]
        (hasFDerivAt_coordinate 2 z.heading _)
      rw [one_smul] at hwrap
      exact hwrap

theorem posePrior_hasTrueDerivative {pose : Tensor ℝ} {z p : Pose2 ℝ}
    (hz : Pose2.ofTensor "a" pose = .ok z) (hp : point.find key = .ok p.toVec)
    (hhalf : ((p.heading - z.heading : ℝ) : Real.Angle) ≠ Real.pi) :
    (posePrior key pose).HasTrueDerivative point :=
  ⟨[(key, Mat.identity 3)], rfl, rfl,
    List.forall_mem_singleton.mpr ⟨_, hp, posePrior_isDerivativeAt hz hhalf⟩⟩

end Measurement

/-! ### Factors -/

namespace Factor

variable {point : Table (Vec ℝ)} {f : Factor ℝ}

/-- The factors whose derivative has a closed form, as they are built, where they are differentiable:
    vectors have the size of what is measured, points have a direction from one to the other, and no
    heading is missed by half a turn. -/
inductive IsSmoothAt (point : Table (Vec ℝ)) : Factor ℝ → Prop
  | prior {key : Key} {value : Tensor ℝ} {noise : Option (Noise ℝ)} {id : Option String} {f : Factor ℝ}
      {x z : Vec ℝ} (hf : Factor.prior key value noise id = .ok f)
      (hvalue : value.atLeastVector = .ofVector z) (hx : point.find key = .ok x)
      (hsize : x.length = z.length) : IsSmoothAt point f
  | between {first second : Key} {value : Tensor ℝ} {noise : Option (Noise ℝ)} {id : Option String}
      {f : Factor ℝ} {a b z : Vec ℝ} (hf : Factor.between first second value noise id = .ok f)
      (hvalue : value.atLeastVector = .ofVector z) (ha : point.find first = .ok a)
      (hb : point.find second = .ok b) (hsize : a.length = z.length) (hsize' : b.length = z.length) :
      IsSmoothAt point f
  | range {first second : Key} {distance : Given ℝ} {noise : Option (Noise ℝ)} {id : Option String}
      {f : Factor ℝ} {a b : Vec ℝ} (hf : Factor.range first second distance noise id = .ok f)
      (ha : point.find first = .ok a) (hb : point.find second = .ok b) (hsize : a.length = b.length)
      (hfar : 1e-12 ≤ Vec.norm (Vec.sub b a)) : IsSmoothAt point f
  | posePrior {key : Key} {given : Given ℝ} {noise : Option (Noise ℝ)} {id : Option String}
      {f : Factor ℝ} {z p : Pose2 ℝ} (hf : Factor.posePrior key given noise id = .ok f)
      (hz : Tensor.ofGiven given = .ok (.ofVector z.toVec)) (hp : point.find key = .ok p.toVec)
      (hhalf : ((p.heading - z.heading : ℝ) : Real.Angle) ≠ Real.pi) : IsSmoothAt point f

theorem of_measuredArray {value given : Tensor ℝ} {noise : Option (Noise ℝ)} {refusal : ℕ → ℕ → Error}
    (h : measuredArray value noise refusal = .ok given) : given = value.atLeastVector := by
  obtain ⟨noise, -, h⟩ := bind_eq_ok.mp h
  split at h
  · cases h
    rfl
  · cases h

theorem of_prior {key : Key} {value : Tensor ℝ} {noise : Option (Noise ℝ)} {id : Option String}
    (hf : prior key value noise id = .ok f) : f.measurement = .prior key value.atLeastVector := by
  obtain ⟨given, hgiven, hf⟩ := bind_eq_ok.mp hf
  cases hf
  rw [of_measuredArray hgiven]

theorem of_between {first second : Key} {value : Tensor ℝ} {noise : Option (Noise ℝ)}
    {id : Option String} (hf : between first second value noise id = .ok f) :
    first ≠ second ∧ f.measurement = .between first second value.atLeastVector := by
  obtain ⟨_, hkeys, hf⟩ := bind_eq_ok.mp hf
  obtain ⟨given, hgiven, hf⟩ := bind_eq_ok.mp hf
  cases hf
  exact ⟨by simpa using nodup_of_checkKeys hkeys, by rw [of_measuredArray hgiven]⟩

theorem of_range {first second : Key} {distance : Given ℝ} {noise : Option (Noise ℝ)}
    {id : Option String} (hf : range first second distance noise id = .ok f) :
    first ≠ second ∧ ∃ d, f.measurement = .range first second d := by
  obtain ⟨_, -, hf⟩ := bind_eq_ok.mp hf
  obtain ⟨_, hkeys, hf⟩ := bind_eq_ok.mp hf
  obtain ⟨d, -, hf⟩ := bind_eq_ok.mp hf
  cases hf
  exact ⟨by simpa using nodup_of_checkKeys hkeys, d, rfl⟩

theorem of_posePrior {key : Key} {given : Given ℝ} {noise : Option (Noise ℝ)} {id : Option String}
    (hf : posePrior key given noise id = .ok f) :
    ∃ pose, Tensor.ofGiven given = .ok pose ∧ f.measurement = .posePrior key pose := by
  obtain ⟨_, -, hf⟩ := bind_eq_ok.mp hf
  obtain ⟨pose, hpose, hf⟩ := bind_eq_ok.mp hf
  cases hf
  exact ⟨pose, hpose, rfl⟩

/-- **The matrices in closed form are the derivatives of the residual**, one for each variable of a factor. -/
theorem closed_derivative (h : f.IsSmoothAt point) : f.measurement.HasTrueDerivative point := by
  cases h with
  | prior hf hvalue hx hsize =>
    rw [of_prior hf, hvalue]
    exact Measurement.prior_hasTrueDerivative hx hsize
  | between hf hvalue ha hb hsize hsize' =>
    obtain ⟨hne, hmeasurement⟩ := of_between hf
    rw [hmeasurement, hvalue]
    exact Measurement.between_hasTrueDerivative hne ha hb hsize hsize'
  | range hf ha hb hsize hfar =>
    obtain ⟨hne, d, hmeasurement⟩ := of_range hf
    rw [hmeasurement]
    exact Measurement.range_hasTrueDerivative hne ha hb hsize hfar
  | posePrior hf hz hp hhalf =>
    obtain ⟨pose, hpose, hmeasurement⟩ := of_posePrior hf
    rw [hz] at hpose
    cases hpose
    rw [hmeasurement]
    exact Measurement.posePrior_hasTrueDerivative rfl hp hhalf

end Factor

/-- The distance of two points of the plane, five apart. -/
theorem Factor.closed_derivative_distance :
    ∃ f : Factor ℝ,
      Factor.range (.number 0) (.number 1) (.real (2 : ℝ)) (some ⟨[(1 : ℝ)], .none⟩) none = .ok f ∧
        f.measurement.HasTrueDerivative [(.number 0, [0, 0]), (.number 1, [3, 4])] := by
  have hfar : (1e-12 : ℝ) ≤ Vec.norm (Vec.sub [3, 4] [0, 0]) := by
    rw [Vec.norm, Vec.normSq_real, Scalar.sqrt_real]
    refine Real.le_sqrt_of_sq_le ?_
    norm_num [Vec.sub]
  have hf : Factor.range (.number 0) (.number 1) (.real (2 : ℝ)) (some ⟨[(1 : ℝ)], .none⟩) none =
      .ok ⟨.range (.number 0) (.number 1) 2, some ⟨[1], .none⟩, none⟩ := rfl
  have ha : Table.find [(.number 0, [0, 0]), (.number 1, [3, 4])] (.number 0) = .ok ([0, 0] : Vec ℝ) := rfl
  have hb : Table.find [(.number 0, [0, 0]), (.number 1, [3, 4])] (.number 1) = .ok ([3, 4] : Vec ℝ) := rfl
  exact ⟨_, hf, closed_derivative (.range hf ha hb rfl hfar)⟩

/-! ### A value that is repeated -/

namespace Repeated

/-- Three numbers that are known of a variable that is one number. -/
noncomputable def factor : Factor ℝ :=
  ⟨.prior (.number 0) (.ofVector [0, 1, -1]), some ⟨[1, 1, 1], .none⟩, none⟩

def point : Table (Vec ℝ) := [(.number 0, [1])]

/-- The residual grows in each of its entries as the variable does. -/
theorem isDerivativeAt_ones :
    (.ofMatrix fun (_ : Fin 3) (_ : Fin 1) => 1 : Mat ℝ).IsDerivativeAt
      (fun u => factor.residual (point.set (.number 0) u)) [1] := by
  refine ⟨3, 1, fun u => ![u 0 - 0, u 0 - 1, u 0 - -1], ![1], _, rfl, rfl, fun u => rfl,
    hasFDerivAt_of_rows fun i => ?_⟩
  have hrow : (fun _ : Fin 1 => (1 : ℝ)) = (1 : Matrix (Fin 1) (Fin 1) ℝ) 0 := by
    ext j
    fin_cases j
    rfl
  rw [hrow]
  fin_cases i
  · exact Measurement.hasFDerivAt_coordinate 0 0 _
  · exact Measurement.hasFDerivAt_coordinate 0 1 _
  · exact Measurement.hasFDerivAt_coordinate 0 (-1) _

/-- **Where the variable is repeated the matrix is not the derivative**: it is the unit matrix of the
    measured size, and the derivative is a column of ones. -/
theorem prior_not_hasTrueDerivative :
    Factor.prior (.number 0) (.ofVector [0, 1, -1]) (some ⟨[1, 1, 1], .none⟩) none = .ok factor ∧
      factor.residual point = .ok (.ofVector [1 - 0, 1 - 1, 1 - -1]) ∧
      factor.measurement.derivative point = .ok [(.number 0, Mat.identity 3)] ∧
      ¬ factor.measurement.HasTrueDerivative point := by
  refine ⟨rfl, rfl, rfl, ?_⟩
  rintro ⟨blocks, hblocks, -, htrue⟩
  cases hblocks
  obtain ⟨x, hx, hderivative⟩ := List.forall_mem_singleton.mp htrue
  cases hx
  have hwidth : 3 = 1 := congrArg Mat.width (hderivative.unique isDerivativeAt_ones)
  omega

end Repeated

end LeastSquares
