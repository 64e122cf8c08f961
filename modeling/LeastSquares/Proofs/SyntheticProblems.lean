/-
  LeastSquares/Proofs/SyntheticProblems.lean
  ==========================================
  **What the generators of problems share.**

  Every generator names its variables by their places in a family, adds factors without names to a graph, and
  looks at a count before it draws.  Such a factor can always be added, since the graph names it by its place,
  and it can be made just where its sizes fit.
-/
import LeastSquares.Proofs.FactorNames
import LeastSquares.Proofs.RandomDraws
import LeastSquares.Proofs.RegularGraphs

namespace LeastSquares

/-! ### The names of variables -/

namespace Problem

theorem toString_inj {m n : ℕ} (h : toString m = toString n) : m = n := by
  have hdigits := congrArg String.toList h
  simp only [Nat.toString_eq_repr, Nat.toList_repr] at hdigits
  rw [← Nat.ofDigitChars_ten_toDigits (n := m), hdigits, Nat.ofDigitChars_ten_toDigits]

theorem member_inj {family : String} {i j : ℕ} (h : member family i = member family j) : i = j :=
  toString_inj ((String.append_right_inj _).mp (Key.name.inj h))

/-- Families whose names start with different letters have no member in common. -/
theorem member_ne {a p : Char} (hne : a ≠ p) (i j : ℕ) :
    member (String.singleton a) i ≠ member (String.singleton p) j := by
  intro h
  have hlists := congrArg String.toList (Key.name.inj h)
  simp only [String.toList_append] at hlists
  simp at hlists
  exact hne hlists.1

variable {β : Type} {family : String} {items : List β}

@[simp] theorem length_named (family : String) (items : List β) :
    (named family items).length = items.length := by
  rw [named, List.length_map, List.length_zipIdx]

theorem keys_named (family : String) (items : List β) :
    (named family items).map (·.1) = (List.range items.length).map (member family) := by
  rw [List.range_eq_range', ← List.zipIdx_map_snd 0 items, named, List.map_map, List.map_map]
  rfl

theorem nodup_named (family : String) (items : List β) : ((named family items).map (·.1)).Nodup := by
  rw [keys_named]
  exact List.nodup_range.map fun i j => member_inj

theorem mem_named {entry : Key × β} :
    entry ∈ named family items ↔ ∃ i, ∃ h : i < items.length, entry = (member family i, items[i]) := by
  simp only [named, List.mem_map, Prod.exists, List.mem_zipIdx_iff_getElem?, List.getElem?_eq_some_iff]
  constructor
  · rintro ⟨_, i, ⟨hi, hitem⟩, rfl⟩
    exact ⟨i, hi, by rw [hitem]⟩
  · rintro ⟨i, hi, rfl⟩
    exact ⟨_, i, ⟨hi, rfl⟩, rfl⟩

/-- Each of the named items is found by its name. -/
theorem get?_named {family : String} {items : List β} (toVec : β → Vec ℝ) {entry : Key × β}
    (h : entry ∈ named family items) :
    Table.get? ((named family items).map fun entry => (entry.1, toVec entry.2)) entry.1 =
      some (toVec entry.2) := by
  have hnodup := nodup_named family items
  have hmem := List.mem_map_of_mem (f := fun entry : Key × β => (entry.1, toVec entry.2)) h
  refine Table.get?_of_mem ?_ hmem
  rwa [Table.keys, List.map_map]

/-- The first of named items has the first name. -/
theorem mem_named_zero {family : String} {items : List β} {item : β}
    (h : items.head? = some item) : (member family 0, item) ∈ named family items := by
  cases items with
  | nil => cases h
  | cons first rest =>
    cases h
    exact mem_named.mpr ⟨0, Nat.succ_pos _, rfl⟩

end Problem

/-! ### The names of factors -/

namespace Graph

variable {α : Type}

/-- Every factor of a graph has the name of its place. -/
def HasOwnNames (g : Graph α) : Prop :=
  ∀ place f, g.factors[place]? = some f → f.label = placeName f.measurement.kind place

theorem hasOwnNames_empty : (empty : Graph α).HasOwnNames := by
  intro place f hf
  cases hf

/-- **A factor without a name can always be added** where no names were given by hand. -/
theorem HasOwnNames.add {g : Graph α} (h : g.HasOwnNames) {f : Factor α} (hf : f.id = none) :
    (g.add f).2 = .ok ⟨g.factors ++ [g.named f]⟩ ∧ (⟨g.factors ++ [g.named f]⟩ : Graph α).HasOwnNames := by
  have hlabel : (g.named f).label = placeName f.measurement.kind g.size := label_named_of_none hf
  constructor
  · rw [add_of_notMem]
    intro hmem
    obtain ⟨other, hother, hsame⟩ := List.mem_map.mp hmem
    obtain ⟨place, hplace⟩ := List.mem_iff_getElem?.mp hother
    -- the names tell the places, and this one is not taken yet
    have hend := placeName_inj ((h place other hplace).symm.trans (hsame.trans hlabel))
    exact absurd (List.getElem?_eq_some_iff.mp hplace).1 (by rw [hend]; exact Nat.lt_irrefl _)
  · intro place other hother
    rw [getElem?_concat_eq_some] at hother
    obtain hbefore | ⟨rfl, rfl⟩ := hother
    · exact h place other hbefore
    · rw [hlabel, named_measurement]
      rfl

end Graph

namespace Problem

variable {α : Type} {g g' : Graph α} {d e : Draws α}

/-- A factor that is added takes no numbers, and stands at the end with its name. -/
theorem addFactor_eq_ok {factor : Except Error (Factor α)} (h : (addFactor g factor).run d = .ok (g', e)) :
    ∃ f, factor = .ok f ∧ g' = ⟨g.factors ++ [g.named f]⟩ ∧ d = e := by
  obtain ⟨f, hf, h⟩ := Draws.run_lift_bind_eq_ok.mp h
  obtain ⟨hadd, rfl⟩ := Draws.run_lift_eq_ok.mp h
  refine ⟨f, hf, ?_, rfl⟩
  simp only [Graph.add] at hadd
  split_ifs at hadd
  exact (Except.ok.inj hadd).symm

/-- Measurements can go on being added: no name was given by hand, and the source does not end. -/
structure CanGrow (g : Graph α) (d : Draws α) : Prop where
  ownNames : g.HasOwnNames
  endless : d.Endless

theorem canGrow_empty (hd : d.Endless) : CanGrow Graph.empty d := ⟨Graph.hasOwnNames_empty, hd⟩

/-- A factor that can be made can be added, and so can more. -/
theorem CanGrow.addFactor_returns (h : CanGrow g d) {factor : Except Error (Factor α)} {f : Factor α}
    (hfactor : factor = .ok f) (hf : f.id = none) :
    ∃ g', (addFactor g factor).run d = .ok (g', d) ∧ CanGrow g' d := by
  obtain ⟨hadd, hnames⟩ := h.ownNames.add hf
  refine ⟨_, ?_, hnames, h.endless⟩
  exact Draws.run_lift_bind_eq_ok.mpr ⟨f, hfactor, Draws.run_lift_eq_ok.mpr ⟨hadd, rfl⟩⟩

theorem CanGrow.of_takes {xs : List α} (h : CanGrow g d) (htakes : d.Takes xs e) : CanGrow g e :=
  ⟨h.ownNames, htakes.endless h.endless⟩

/-! ### Counts and standard deviations -/

theorem anchorSigma_pos : (0 : ℝ) < anchorSigma := by
  rw [anchorSigma]
  norm_num

/-- The noise of what is known is tight in each of its components. -/
theorem isotropic_anchorSigma {dim : ℕ} (hdim : dim ≠ 0) :
    Noise.isotropic dim (anchorSigma : ℝ) = .ok ⟨List.replicate dim anchorSigma, .none⟩ := by
  rw [Noise.isotropic, if_neg (by omega), Int.toNat_natCast]
  refine Noise.ofTensor_quadratic_eq_ok.mpr ⟨rfl, by simpa using hdim, fun sigma hsigma => ?_⟩
  rw [List.eq_of_mem_replicate hsigma]
  exact anchorSigma_pos

theorem checkLeast_eq_ok {m least : ℕ} (hleast : least ≤ m) (refusal : Error) :
    checkLeast (.integer m : Given ℝ) least refusal = .ok () := by
  have hnot : ¬ (Scalar.ofInt (m : ℤ) : ℝ) < Scalar.ofNat least := by
    rw [Scalar.ofInt_real, Scalar.ofNat_real, Int.cast_natCast, not_lt, Nat.cast_le]
    exact hleast
  rw [checkLeast]
  exact bind_eq_ok.mpr ⟨_, rfl, if_neg hnot⟩

/-- A count that is not below a number is at least this number. -/
theorem le_of_checkLeast {given : Given ℝ} {least : ℕ} {refusal : Error} {count : ℤ}
    (h : checkLeast given least refusal = .ok ()) (hcount : given.toInt = .ok count) : least ≤ count := by
  obtain ⟨x, hx, h⟩ := bind_eq_ok.mp h
  have hvalue : x = count := by
    cases given with
    | integer n =>
      cases hcount
      cases hx
      exact Scalar.ofInt_real _
    | flag b =>
      cases hcount
      cases hx
      cases b <;> simp
    | _ => cases hcount
  split_ifs at h with hless
  rw [hvalue, Scalar.ofNat_real, not_lt] at hless
  exact_mod_cast hless

end Problem

namespace Noise

variable {noise : Noise ℝ}

/-- Without the name of a loss there is none. -/
theorem loss_of_ofTensor {sigmas : Tensor ℝ} (h : ofTensor sigmas Loss.quadratic [] = .ok noise) :
    noise.loss = .none := by
  obtain ⟨read, -, h⟩ := bind_eq_ok.mp h
  obtain ⟨loss, hloss, h⟩ := bind_eq_ok.mp h
  cases h
  exact (Except.ok.inj hloss).symm

theorem loss_of_diagonal {sigmas : Given ℝ} (h : diagonal sigmas = .ok noise) : noise.loss = .none := by
  obtain ⟨⟨⟩, -, h⟩ := bind_eq_ok.mp h
  obtain ⟨given, -, h⟩ := bind_eq_ok.mp h
  exact loss_of_ofTensor h

theorem loss_of_isotropic {dim : ℤ} {sigma : ℝ} (h : isotropic dim sigma = .ok noise) :
    noise.loss = .none := by
  rw [isotropic] at h
  split_ifs at h
  exact loss_of_ofTensor h

end Noise

/-! ### Factors of vectors -/

namespace Factor

variable {noise given : Noise ℝ} {a b : Key} {xs : Vec ℝ} {f : Factor ℝ}

theorem checkKeys_pair : checkKeys [a, b] = .ok () ↔ a ≠ b := by
  constructor
  · intro h
    simpa using nodup_of_checkKeys h
  · intro hne
    rw [checkKeys, distinct_of_nodup (by simpa using hne), if_pos rfl]

/-- Noise that is given has to be of the size that is needed. -/
theorem noiseOfSize_eq_ok {dim : ℕ} {refusal : Error} :
    noiseOfSize (some noise) dim refusal = .ok given ↔ noise.dim = dim ∧ noise = given := by
  constructor
  · intro h
    obtain ⟨needed, hneeded, h⟩ := bind_eq_ok.mp h
    cases hneeded
    split_ifs at h with hdim
    exact ⟨hdim, Except.ok.inj h⟩
  · rintro ⟨hdim, rfl⟩
    exact bind_eq_ok.mpr ⟨noise, rfl, if_pos hdim⟩

theorem measuredArray_ofVector {value : Tensor ℝ} {refusal : ℕ → ℕ → Error} :
    measuredArray (.ofVector xs) (some noise) refusal = .ok value ↔
      xs.length = noise.dim ∧ .ofVector xs = value := by
  constructor
  · intro h
    obtain ⟨needed, hneeded, h⟩ := bind_eq_ok.mp h
    cases hneeded
    split_ifs at h with hsize
    exact ⟨hsize, Except.ok.inj h⟩
  · rintro ⟨hsize, rfl⟩
    exact bind_eq_ok.mpr ⟨noise, rfl, if_pos hsize⟩

theorem prior_eq_ok :
    prior a (.ofVector xs) (some noise) none = .ok f ↔
      xs.length = noise.dim ∧ ⟨.prior a (.ofVector xs), some noise, none⟩ = f := by
  constructor
  · intro h
    obtain ⟨value, hvalue, h⟩ := bind_eq_ok.mp h
    obtain ⟨hsize, rfl⟩ := measuredArray_ofVector.mp hvalue
    exact ⟨hsize, Except.ok.inj h⟩
  · rintro ⟨hsize, rfl⟩
    exact bind_eq_ok.mpr ⟨_, measuredArray_ofVector.mpr ⟨hsize, rfl⟩, rfl⟩

theorem between_eq_ok :
    between a b (.ofVector xs) (some noise) none = .ok f ↔
      a ≠ b ∧ xs.length = noise.dim ∧ ⟨.between a b (.ofVector xs), some noise, none⟩ = f := by
  constructor
  · intro h
    obtain ⟨⟨⟩, hkeys, h⟩ := bind_eq_ok.mp h
    obtain ⟨value, hvalue, h⟩ := bind_eq_ok.mp h
    obtain ⟨hsize, rfl⟩ := measuredArray_ofVector.mp hvalue
    exact ⟨checkKeys_pair.mp hkeys, hsize, Except.ok.inj h⟩
  · rintro ⟨hne, hsize, rfl⟩
    exact bind_eq_ok.mpr ⟨(), checkKeys_pair.mpr hne, bind_eq_ok.mpr
      ⟨_, measuredArray_ofVector.mpr ⟨hsize, rfl⟩, rfl⟩⟩

theorem range_eq_ok {measured : ℝ} :
    range a b (.real measured) (some noise) none = .ok f ↔
      a ≠ b ∧ noise.dim = 1 ∧ ⟨.range a b measured, some noise, none⟩ = f := by
  constructor
  · intro h
    obtain ⟨given, hgiven, h⟩ := bind_eq_ok.mp h
    obtain ⟨⟨⟩, hkeys, h⟩ := bind_eq_ok.mp h
    obtain ⟨hdim, rfl⟩ := noiseOfSize_eq_ok.mp hgiven
    exact ⟨checkKeys_pair.mp hkeys, hdim, Except.ok.inj h⟩
  · rintro ⟨hne, hdim, rfl⟩
    exact bind_eq_ok.mpr ⟨_, noiseOfSize_eq_ok.mpr ⟨hdim, rfl⟩, bind_eq_ok.mpr
      ⟨(), checkKeys_pair.mpr hne, rfl⟩⟩

theorem posePrior_eq_ok :
    posePrior a (.ofVector xs) (some noise) none = .ok f ↔
      noise.dim = 3 ∧ ⟨.posePrior a (.ofVector xs), some noise, none⟩ = f := by
  constructor
  · intro h
    obtain ⟨given, hgiven, h⟩ := bind_eq_ok.mp h
    obtain ⟨hdim, rfl⟩ := noiseOfSize_eq_ok.mp hgiven
    obtain ⟨pose, hpose, h⟩ := bind_eq_ok.mp h
    cases (Tensor.ofGiven_ofVector _).symm.trans hpose
    exact ⟨hdim, Except.ok.inj h⟩
  · rintro ⟨hdim, rfl⟩
    exact bind_eq_ok.mpr ⟨_, noiseOfSize_eq_ok.mpr ⟨hdim, rfl⟩, bind_eq_ok.mpr
      ⟨_, Tensor.ofGiven_ofVector _, rfl⟩⟩

theorem poseBetween_eq_ok :
    poseBetween a b (.ofVector xs) (some noise) none = .ok f ↔
      a ≠ b ∧ noise.dim = 3 ∧ ⟨.poseBetween a b (.ofVector xs), some noise, none⟩ = f := by
  constructor
  · intro h
    obtain ⟨given, hgiven, h⟩ := bind_eq_ok.mp h
    obtain ⟨hdim, rfl⟩ := noiseOfSize_eq_ok.mp hgiven
    obtain ⟨⟨⟩, hkeys, h⟩ := bind_eq_ok.mp h
    obtain ⟨pose, hpose, h⟩ := bind_eq_ok.mp h
    cases (Tensor.ofGiven_ofVector _).symm.trans hpose
    exact ⟨checkKeys_pair.mp hkeys, hdim, Except.ok.inj h⟩
  · rintro ⟨hne, hdim, rfl⟩
    exact bind_eq_ok.mpr ⟨_, noiseOfSize_eq_ok.mpr ⟨hdim, rfl⟩, bind_eq_ok.mpr
      ⟨(), checkKeys_pair.mpr hne, bind_eq_ok.mpr ⟨_, Tensor.ofGiven_ofVector _, rfl⟩⟩⟩

end Factor

end LeastSquares
