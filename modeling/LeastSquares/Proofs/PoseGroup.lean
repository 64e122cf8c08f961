/-
  LeastSquares/Proofs/PoseGroup.lean
  ==================================
  **Planar poses are the direct motions of the plane.**

  A pose turns the plane by its heading and then shifts it by its position.  Composition is carrying out
  one motion after another, and a motion determines its pose up to whole turns of the heading.  So every
  law of poses with reduced headings is read off the motions, where nothing is reduced.
-/
import Mathlib.Analysis.SpecialFunctions.Complex.Arg
import LeastSquares.Proofs.PlanarPoses

namespace LeastSquares.Pose2

open Real

/-! ### Reduced headings -/

theorem wrapAngle_mem (x : ℝ) : wrapAngle x ∈ Set.Ico (-π) π := by
  have hmem := toIcoMod_mem_Ico two_pi_pos (-π) x
  have hend : -π + 2 * π = π := by ring
  rwa [← wrapAngle_real, hend] at hmem

/-- A heading in the interval is reduced to itself. -/
theorem wrapAngle_of_mem {x : ℝ} (h : x ∈ Set.Ico (-π) π) : wrapAngle x = x := by
  rw [wrapAngle_real, toIcoMod_eq_self]
  exact ⟨h.1, by linarith [h.2]⟩

/-- Reduction changes a heading by whole turns. -/
theorem exists_wrapAngle_eq (x : ℝ) : ∃ n : ℤ, wrapAngle x = x + n * (2 * π) := by
  refine ⟨-toIcoDiv two_pi_pos (-π) x, ?_⟩
  rw [wrapAngle_real, toIcoMod, zsmul_eq_mul]
  push_cast
  ring

/-- The heading of a pose is reduced. -/
def IsReduced (p : Pose2 ℝ) : Prop := p.heading ∈ Set.Ico (-π) π

/-- The pose with its heading reduced. -/
noncomputable def reduced (p : Pose2 ℝ) : Pose2 ℝ := ⟨p.x, p.y, wrapAngle p.heading⟩

theorem isReduced_reduced (p : Pose2 ℝ) : p.reduced.IsReduced := wrapAngle_mem _

theorem isReduced_compose (a b : Pose2 ℝ) : (compose a b).IsReduced := wrapAngle_mem _

theorem isReduced_origin : (origin : Pose2 ℝ).IsReduced := by
  rw [IsReduced, origin, Set.mem_Ico]
  constructor <;> linarith [pi_pos]

/-! ### Motions -/

/-- Where a pose moves a point of the plane. -/
noncomputable def act (p : Pose2 ℝ) (v : ℝ × ℝ) : ℝ × ℝ :=
  (p.x + (Real.cos p.heading * v.1 - Real.sin p.heading * v.2),
    p.y + (Real.sin p.heading * v.1 + Real.cos p.heading * v.2))

/-- A direct motion of the plane: a rotation, then a shift. -/
def IsDirectMotion (f : ℝ × ℝ → ℝ × ℝ) : Prop :=
  ∃ c s x y : ℝ, c ^ 2 + s ^ 2 = 1 ∧ ∀ v, f v = (x + (c * v.1 - s * v.2), y + (s * v.1 + c * v.2))

theorem act_reduced (p : Pose2 ℝ) : p.reduced.act = p.act := by
  have hc : Real.cos (wrapAngle p.heading) = Real.cos p.heading := cos_wrapAngle _
  have hs : Real.sin (wrapAngle p.heading) = Real.sin p.heading := sin_wrapAngle _
  funext v
  rw [act, act, reduced, hc, hs]

theorem act_origin : (origin : Pose2 ℝ).act = id := by
  funext v
  simp [act, origin]

/-- **Composition carries out the second motion and then the first.** -/
theorem act_compose (a b : Pose2 ℝ) : (compose a b).act = a.act ∘ b.act := by
  have hc : Real.cos (compose a b).heading = Real.cos (a.heading + b.heading) := cos_wrapAngle _
  have hs : Real.sin (compose a b).heading = Real.sin (a.heading + b.heading) := sin_wrapAngle _
  have hx : (compose a b).x = a.x + (Real.cos a.heading * b.x + -Real.sin a.heading * b.y) := rfl
  have hy : (compose a b).y = a.y + (Real.sin a.heading * b.x + Real.cos a.heading * b.y) := rfl
  funext v
  rw [act, hc, hs, hx, hy, Real.cos_add, Real.sin_add]
  simp only [Function.comp_apply, act, Prod.mk.injEq]
  constructor <;> ring

theorem act_invert_comp (p : Pose2 ℝ) : (invert p).act ∘ p.act = id := by
  have hc : Real.cos (invert p).heading = Real.cos p.heading :=
    (cos_wrapAngle _).trans (Real.cos_neg _)
  have hs : Real.sin (invert p).heading = -Real.sin p.heading :=
    (sin_wrapAngle _).trans (Real.sin_neg _)
  have hx : (invert p).x = -Real.cos p.heading * p.x + -Real.sin p.heading * p.y := rfl
  have hy : (invert p).y = Real.sin p.heading * p.x + -Real.cos p.heading * p.y := rfl
  have turn := Real.sin_sq_add_cos_sq p.heading
  funext v
  simp only [Function.comp_apply, act, hc, hs, hx, hy, id_eq, Prod.ext_iff]
  constructor
  · linear_combination v.1 * turn
  · linear_combination v.2 * turn

theorem act_comp_invert (p : Pose2 ℝ) : p.act ∘ (invert p).act = id := by
  have hleft : Function.LeftInverse (invert p).act p.act := congrFun (act_invert_comp p)
  have hinjective : Function.Injective (invert p).act := by
    intro v w h
    have hc : Real.cos (invert p).heading ^ 2 + Real.sin (invert p).heading ^ 2 = 1 :=
      Real.cos_sq_add_sin_sq _
    simp only [act, Prod.mk.injEq, add_right_inj] at h
    obtain ⟨h1, h2⟩ := h
    refine Prod.ext ?_ ?_
    · linear_combination
        Real.cos (invert p).heading * h1 + Real.sin (invert p).heading * h2 - (v.1 - w.1) * hc
    · linear_combination
        -Real.sin (invert p).heading * h1 + Real.cos (invert p).heading * h2 - (v.2 - w.2) * hc
  exact funext (hleft.rightInverse_of_injective hinjective)

/-- **A motion determines its pose** when headings are reduced. -/
theorem eq_of_act_eq {a b : Pose2 ℝ} (ha : a.IsReduced) (hb : b.IsReduced) (h : a.act = b.act) :
    a = b := by
  have hposition := congrFun h (0, 0)
  have hdirection := congrFun h (1, 0)
  simp only [act, mul_zero, mul_one, sub_zero, add_zero, Prod.mk.injEq] at hposition hdirection
  obtain ⟨hx, hy⟩ := hposition
  obtain ⟨hcos, hsin⟩ := hdirection
  have hangle : (a.heading : Angle) = b.heading :=
    Angle.cos_sin_inj (by linarith) (by linarith)
  have hheading : a.heading = b.heading := by
    rw [← wrapAngle_of_mem ha, ← wrapAngle_of_mem hb, wrapAngle_congr hangle]
  obtain ⟨x, y, heading⟩ := a
  obtain ⟨x', y', heading'⟩ := b
  simp only at hx hy hheading
  rw [hx, hy, hheading]

/-- Every direct motion is that of a pose. -/
theorem exists_act_eq {f : ℝ × ℝ → ℝ × ℝ} (hf : IsDirectMotion f) :
    ∃ p : Pose2 ℝ, p.IsReduced ∧ p.act = f := by
  obtain ⟨c, s, x, y, hunit, hvalue⟩ := hf
  have hnorm : ‖(⟨c, s⟩ : ℂ)‖ = 1 := by
    rw [Complex.norm_def, Complex.normSq_mk, ← sq, ← sq, hunit, Real.sqrt_one]
  have hne : (⟨c, s⟩ : ℂ) ≠ 0 := by
    rw [← norm_ne_zero_iff, hnorm]
    exact one_ne_zero
  have hcos : Real.cos (Complex.arg ⟨c, s⟩) = c := by rw [Complex.cos_arg hne, hnorm, div_one]
  have hsin : Real.sin (Complex.arg ⟨c, s⟩) = s := by rw [Complex.sin_arg, hnorm, div_one]
  refine ⟨reduced ⟨x, y, Complex.arg ⟨c, s⟩⟩, isReduced_reduced _, ?_⟩
  rw [act_reduced]
  funext v
  rw [act, hvalue, hcos, hsin]

theorem isDirectMotion_act (p : Pose2 ℝ) : IsDirectMotion p.act :=
  ⟨Real.cos p.heading, Real.sin p.heading, p.x, p.y, Real.cos_sq_add_sin_sq _, fun _ => rfl⟩

/-! ### Laws of poses -/

theorem compose_assoc (a b c : Pose2 ℝ) : compose (compose a b) c = compose a (compose b c) := by
  refine eq_of_act_eq (isReduced_compose _ _) (isReduced_compose _ _) ?_
  simp only [act_compose, Function.comp_assoc]

theorem origin_compose (p : Pose2 ℝ) : compose origin p = p.reduced := by
  refine eq_of_act_eq (isReduced_compose _ _) (isReduced_reduced _) ?_
  rw [act_compose, act_origin, act_reduced, Function.id_comp]

theorem compose_origin (p : Pose2 ℝ) : compose p origin = p.reduced := by
  refine eq_of_act_eq (isReduced_compose _ _) (isReduced_reduced _) ?_
  rw [act_compose, act_origin, act_reduced, Function.comp_id]

theorem compose_invert (p : Pose2 ℝ) : compose p (invert p) = origin := by
  refine eq_of_act_eq (isReduced_compose _ _) isReduced_origin ?_
  rw [act_compose, act_comp_invert, act_origin]

theorem invert_compose (p : Pose2 ℝ) : compose (invert p) p = origin := by
  refine eq_of_act_eq (isReduced_compose _ _) isReduced_origin ?_
  rw [act_compose, act_invert_comp, act_origin]

/-- A pose that is put in front of another is seen from it where it was. -/
theorem between_self_compose (a b : Pose2 ℝ) : between a (compose a b) = b.reduced := by
  rw [between, ← compose_assoc, invert_compose, origin_compose]

theorem compose_between (a b : Pose2 ℝ) : compose a (between a b) = b.reduced := by
  rw [between, ← compose_assoc, compose_invert, origin_compose]

/-- **The poses are the group of direct motions of the plane, with reduced headings.**  Composition is
    associative, the origin is its identity up to reduction, inverses are inverse on both sides, and
    relative poses undo composition.  Reduction moves every number into the interval from `-π` to `π`, by
    whole turns, and leaves what it has reduced.  A pose acts on the plane, composition as one motion
    after another, and each direct motion is that of exactly one pose with a reduced heading. -/
theorem motions_group :
    (∀ a b c : Pose2 ℝ, compose (compose a b) c = compose a (compose b c)) ∧
    (∀ p : Pose2 ℝ, compose origin p = p.reduced ∧ compose p origin = p.reduced) ∧
    (∀ p : Pose2 ℝ, compose p (invert p) = origin ∧ compose (invert p) p = origin) ∧
    (∀ a b : Pose2 ℝ, between a (compose a b) = b.reduced ∧ compose a (between a b) = b.reduced) ∧
    (∀ x : ℝ, wrapAngle x ∈ Set.Ico (-π) π ∧ wrapAngle (wrapAngle x) = wrapAngle x ∧
      ∃ n : ℤ, wrapAngle x = x + n * (2 * π)) ∧
    (∀ a b : Pose2 ℝ, (compose a b).act = a.act ∘ b.act) ∧
    ∀ f, IsDirectMotion f ↔ ∃! p : Pose2 ℝ, p.IsReduced ∧ p.act = f := by
  refine ⟨compose_assoc, fun p => ⟨origin_compose p, compose_origin p⟩,
    fun p => ⟨compose_invert p, invert_compose p⟩,
    fun a b => ⟨between_self_compose a b, compose_between a b⟩,
    fun x => ⟨wrapAngle_mem x, wrapAngle_of_mem (wrapAngle_mem x), exists_wrapAngle_eq x⟩,
    act_compose, fun f => ⟨fun hf => ?_, ?_⟩⟩
  · obtain ⟨p, hp, hact⟩ := exists_act_eq hf
    refine ⟨p, ⟨hp, hact⟩, ?_⟩
    rintro q ⟨hq, hsame⟩
    exact eq_of_act_eq hq hp (hsame.trans hact.symm)
  · rintro ⟨p, ⟨-, rfl⟩, -⟩
    exact isDirectMotion_act p

end LeastSquares.Pose2
