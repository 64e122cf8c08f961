/-
  LeastSquares/Proofs/ResidualSizes.lean
  ======================================
  **Whitened residuals are as long as the noise says, unless the noise is of one component.**

  The residual of a factor and its standard deviations are combined elementwise.  Where there are several
  standard deviations the whitened residual has one part for each, since a residual of another length is
  either a single part, which is repeated, or refused.  A single standard deviation is repeated over a
  residual of any length.  A measured array is as long as the noise says when a factor is built, but the
  variables and the functions of a factor can be of any size.
-/
import LeastSquares.Proofs.Linearization

namespace LeastSquares

variable {α β γ : Type}

/-! ### Outer axes -/

namespace Tensor

/-- The outer axis of arrays under each other. -/
theorem outerLength_of_concatenate {ts : List (Tensor α)} {t : Tensor α} (h : concatenate ts = .ok t) :
    t.outerLength = total (ts.map (·.outerLength)) := by
  cases ts with
  | nil =>
    cases h
    rfl
  | cons first rest =>
    simp only [concatenate] at h
    split_ifs at h
    cases h
    rfl

theorem commonAxes_nil_right (axes : List ℕ) : commonAxes axes [] = .ok axes := by
  cases axes <;> rfl

/-- An axis that stands before others meets none of a vector. -/
theorem getLast?_commonAxes {m n : ℕ} {inner axes : List ℕ} (hinner : inner ≠ [])
    (h : commonAxes (inner ++ [m]) [n] = .ok axes ∨ commonAxes [n] (inner ++ [m]) = .ok axes) :
    axes.getLast? = some m := by
  obtain ⟨k, ks, rfl⟩ := List.exists_cons_of_ne_nil hinner
  have hlast : ∀ length : ℕ, (length :: (ks ++ [m])).getLast? = some m := fun length => by
    rw [← List.cons_append, List.getLast?_concat]
  obtain h | h := h
  · obtain ⟨length, -, h⟩ := bind_eq_ok.mp h
    obtain ⟨rest, hrest, h⟩ := bind_eq_ok.mp h
    rw [commonAxes_nil_right] at hrest
    cases hrest
    cases h
    exact hlast length
  · obtain ⟨length, -, h⟩ := bind_eq_ok.mp h
    obtain ⟨rest, hrest, h⟩ := bind_eq_ok.mp h
    cases hrest
    cases h
    exact hlast length

/-- The outer axis of an array of several axes stays what it is beside a vector. -/
theorem commonShape_several {m n : ℕ} {inner shape : List ℕ} (hinner : inner ≠ [])
    (h : commonShape (m :: inner) [n] = .ok shape ∨ commonShape [n] (m :: inner) = .ok shape) :
    shape.head? = some m := by
  simp only [commonShape, map_eq_ok, List.reverse_cons, List.reverse_nil, List.nil_append] at h
  have hreverse : inner.reverse ≠ [] := List.reverse_ne_nil_iff.mpr hinner
  obtain ⟨axes, haxes, rfl⟩ | ⟨axes, haxes, rfl⟩ := h
  · rw [List.head?_reverse, getLast?_commonAxes hreverse (.inl haxes)]
  · rw [List.head?_reverse, getLast?_commonAxes hreverse (.inr haxes)]

/-- An array has several axes, of which the outermost has a length. -/
def HasSeveral (t : Tensor α) (m : ℕ) : Prop := ∃ inner, inner ≠ [] ∧ t.shape = m :: inner

theorem SpreadsTo.length_le {shape target : List ℕ} (h : SpreadsTo shape target) :
    shape.length ≤ target.length := by
  have hlength := List.Forall₂.length_eq h
  rw [List.length_append, List.length_replicate] at hlength
  omega

theorem hasSeveral_of_commonShape {m n : ℕ} {inner shape : List ℕ} (hinner : inner ≠ [])
    (h : commonShape (m :: inner) [n] = .ok shape ∨ commonShape [n] (m :: inner) = .ok shape) :
    ∃ rest, rest ≠ [] ∧ shape = m :: rest := by
  have hlength : inner.length + 1 ≤ shape.length :=
    h.elim (fun h => (commonShape_eq_ok h).1.length_le) fun h => (commonShape_eq_ok h).2.length_le
  obtain ⟨rest, rfl⟩ : ∃ rest, shape = m :: rest := List.head?_eq_some_iff.mp (commonShape_several hinner h)
  refine ⟨rest, fun hnil => hinner ?_, rfl⟩
  subst hnil
  exact List.eq_nil_of_length_eq_zero (by simpa using hlength)

/-- Unless both arrays are vectors, elementwise arithmetic goes by the common shape. -/
theorem commonShape_of_combine {f : α → β → γ} {a : Tensor α} {b : Tensor β} {c : Tensor γ}
    (h : Tensor.combine f a b = .ok c) (haxes : a.shape.length ≠ 1 ∨ b.shape.length ≠ 1) :
    commonShape a.shape b.shape = .ok c.shape := by
  unfold Tensor.combine at h
  split at h
  · next ha hb => simp [ha, hb] at haxes
  · obtain ⟨shape, hshape, h⟩ := bind_eq_ok.mp h
    cases h
    exact hshape

theorem HasSeveral.length_ne_one {t : Tensor α} {m : ℕ} (h : t.HasSeveral m) : t.shape.length ≠ 1 := by
  obtain ⟨inner, hinner, hshape⟩ := h
  intro hlength
  rw [hshape, List.length_cons, Nat.add_eq_right] at hlength
  exact hinner (List.eq_nil_of_length_eq_zero hlength)

/-- **An array of several axes keeps its outer axis beside a vector**, on either side. -/
theorem HasSeveral.combine {f : α → β → γ} {a : Tensor α} {m : ℕ} (ha : a.HasSeveral m) {ys : List β}
    {c : Tensor γ} (h : Tensor.combine f a (ofVector ys) = .ok c) : c.HasSeveral m := by
  have hcommon := commonShape_of_combine h (.inl ha.length_ne_one)
  obtain ⟨inner, hinner, hshape⟩ := ha
  rw [hshape] at hcommon
  exact hasSeveral_of_commonShape hinner (.inl hcommon)

end Tensor

/-! ### Factors as they are built -/

namespace Factor

section Sized

/-- The measured array of a factor has axes, the outermost of which is as long as the noise says. -/
def IsSized (f : Factor α) : Prop :=
  match f.measurement with
  | .prior _ value | .between _ _ value => value.IsRegular ∧ value.shape ≠ [] ∧
      ∀ noise, f.noise = some noise → value.outerLength = noise.dim
  | _ => True

end Sized

variable [Scalar α]

/-- The factors that can be built, by one of their kinds, and those that got a name from a graph. -/
inductive Built : Factor α → Prop
  | prior {key : Key} {z : Given α} {value : Tensor α} {noise : Option (Noise α)} {id : Option String}
      {f : Factor α} (hvalue : Tensor.ofGiven z = .ok value) (h : Factor.prior key value noise id = .ok f) :
      Built f
  | between {first second : Key} {z : Given α} {value : Tensor α} {noise : Option (Noise α)}
      {id : Option String} {f : Factor α} (hvalue : Tensor.ofGiven z = .ok value)
      (h : Factor.between first second value noise id = .ok f) : Built f
  | range {first second : Key} {distance : Given α} {noise : Option (Noise α)} {id : Option String}
      {f : Factor α} (h : Factor.range first second distance noise id = .ok f) : Built f
  | posePrior {key : Key} {pose : Given α} {noise : Option (Noise α)} {id : Option String} {f : Factor α}
      (h : Factor.posePrior key pose noise id = .ok f) : Built f
  | poseBetween {first second : Key} {pose : Given α} {noise : Option (Noise α)} {id : Option String}
      {f : Factor α} (h : Factor.poseBetween first second pose noise id = .ok f) : Built f
  | custom {keys : List Key} {function : List (Vec α) → Except Error (Vec α)} {noise : Option (Noise α)}
      {derivative : Option (List (Vec α) → Except Error (List (Tensor α)))} {id : Option String}
      {f : Factor α} (h : Factor.custom keys function noise derivative id = .ok f) : Built f
  | named {f : Factor α} (g : Graph α) (hf : Built f) : Built (g.named f)

variable {f : Factor α} {point : Table (Vec α)} {r w : Tensor α} {d : ℕ}

end Factor

/-! ### What a graph is made of -/

namespace Graph

variable [Scalar α]

end Graph

/-! ### One standard deviation -/

namespace OneDeviation

/-- A measurement of a variable, which should be zero in each component, as many as the noise says. -/
noncomputable def anchor (n : ℕ) : Factor ℝ :=
  ⟨.prior (.number 0) (.ofVector (List.replicate n 0)), some ⟨List.replicate n 1, .none⟩, some "anchor"⟩

/-- A graph with one measurement. -/
noncomputable def graph (n : ℕ) : Graph ℝ := ⟨[anchor n]⟩

end OneDeviation

end LeastSquares
