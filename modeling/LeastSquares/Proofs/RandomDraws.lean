/-
  LeastSquares/Proofs/RandomDraws.lean
  ====================================
  **What is drawn is what stands next in the source, and every draw counts once.**

  A computation with draws takes some numbers of its source, one after another, and stands behind them
  afterwards.  So two computations take the numbers of the first and then those of the second, and what a
  whole generator takes is told from its parts.  Where the source gives a number for every draw, only what is
  done with the numbers can fail.
-/
import LeastSquares.Proofs.ArrayDerivatives
import LeastSquares.Proofs.NoiseModels
import LeastSquares.Synthetic.Problem

namespace LeastSquares

/-- A single entry stands beside every entry of a vector. -/
theorem Tensor.combine_single_left {α β γ : Type} (f : α → β → γ) (x : α) (ys : List β) :
    combine f (single x) (ofVector ys) = .ok (ofVector (ys.map (f x))) := by
  rw [(isRegular_ofVector ys).combine_single, Tensor.map, ofVector, ofVector, List.length_map]

namespace Draws

variable {α β γ : Type} {d e : Draws α}

/-! ### Runs -/

theorem run_bind_eq_ok {x : Drawing α β} {f : β → Drawing α γ} {r : γ × Draws α} :
    (x >>= f).run d = .ok r ↔ ∃ b e, x.run d = .ok (b, e) ∧ (f b).run e = .ok r := by
  constructor
  · intro h
    obtain ⟨⟨b, e⟩, hx, hf⟩ := bind_eq_ok.mp h
    exact ⟨b, e, hx, hf⟩
  · rintro ⟨b, e, hx, hf⟩
    exact bind_eq_ok.mpr ⟨(b, e), hx, hf⟩

/-- What needs no numbers takes none. -/
theorem run_lift_eq_ok {x : Except Error β} {b : β} :
    (liftM x : Drawing α β).run d = .ok (b, e) ↔ x = .ok b ∧ d = e := by
  cases x with
  | error error => exact iff_of_false (by rintro ⟨⟩) (by rintro ⟨⟨⟩, -⟩)
  | ok c =>
    constructor
    · rintro ⟨⟩
      exact ⟨rfl, rfl⟩
    · rintro ⟨⟨⟩, rfl⟩
      rfl

theorem run_pure_eq_ok {b c : β} : (pure b : Drawing α β).run d = .ok (c, e) ↔ b = c ∧ d = e := by
  constructor
  · rintro ⟨⟩
    exact ⟨rfl, rfl⟩
  · rintro ⟨rfl, rfl⟩
    rfl

theorem run_lift_bind_eq_ok {x : Except Error β} {f : β → Drawing α γ} {r : γ × Draws α} :
    ((liftM x : Drawing α β) >>= f).run d = .ok r ↔ ∃ b, x = .ok b ∧ (f b).run d = .ok r := by
  rw [run_bind_eq_ok]
  constructor
  · rintro ⟨b, e, hx, hf⟩
    obtain ⟨hb, rfl⟩ := run_lift_eq_ok.mp hx
    exact ⟨b, hb, hf⟩
  · rintro ⟨b, hb, hf⟩
    exact ⟨b, d, run_lift_eq_ok.mpr ⟨hb, rfl⟩, hf⟩

/-- A computation returns when its first part does, and the rest wherever this leads. -/
theorem bind_returns {x : Drawing α β} {f : β → Drawing α γ} {P : β → Draws α → Prop}
    (hx : ∃ b e, x.run d = .ok (b, e) ∧ P b e) (hf : ∀ b e, P b e → ∃ r, (f b).run e = .ok r) :
    ∃ r, (x >>= f).run d = .ok r := by
  obtain ⟨b, e, hx, hP⟩ := hx
  obtain ⟨r, hr⟩ := hf b e hP
  exact ⟨r, run_bind_eq_ok.mpr ⟨b, e, hx, hr⟩⟩

theorem lift_bind_returns {x : Except Error β} {f : β → Drawing α γ} {b : β} (hx : x = .ok b)
    (hf : ∃ r, (f b).run d = .ok r) : ∃ r, ((liftM x : Drawing α β) >>= f).run d = .ok r := by
  obtain ⟨r, hr⟩ := hf
  exact ⟨r, run_lift_bind_eq_ok.mpr ⟨b, hx, hr⟩⟩

/-- What holds before the first item, and after each item if it held before it, holds at the end.  It may
    speak of the items so far. -/
theorem foldlM_keeps {f : γ → β → Drawing α γ} {xs : List β} {P : List β → γ → Draws α → Prop}
    (hstep : ∀ before x after, xs = before ++ x :: after → ∀ c d c' d', P before c d →
      (f c x).run d = .ok (c', d') → P (before ++ [x]) c' d')
    {start final : γ} (hstart : P [] start d) (h : (xs.foldlM f start).run d = .ok (final, e)) :
    P xs final e := by
  suffices hrest : ∀ before after, xs = before ++ after → ∀ c d, P before c d →
      (after.foldlM f c).run d = .ok (final, e) → P xs final e from hrest [] xs rfl start d hstart h
  intro before after hsplit
  induction after generalizing before with
  | nil =>
    intro c d hP h
    obtain ⟨rfl, rfl⟩ := run_pure_eq_ok.mp h
    rwa [hsplit, List.append_nil]
  | cons x after ih =>
    intro c d hP h
    rw [List.foldlM_cons] at h
    obtain ⟨c', d', hx, h⟩ := run_bind_eq_ok.mp h
    exact ih (before ++ [x]) (by simp [hsplit]) c' d' (hstep before x after hsplit c d c' d' hP hx) h

/-- A fold returns when every step does where the ones before have led. -/
theorem foldlM_returns {f : γ → β → Drawing α γ} {xs : List β} {P : γ → Draws α → Prop}
    (hstep : ∀ x ∈ xs, ∀ c d, P c d → ∃ c' d', (f c x).run d = .ok (c', d') ∧ P c' d')
    {start : γ} (hstart : P start d) : ∃ final e, (xs.foldlM f start).run d = .ok (final, e) ∧ P final e := by
  induction xs generalizing start d with
  | nil => exact ⟨start, d, rfl, hstart⟩
  | cons x xs ih =>
    obtain ⟨c, e, hx, hP⟩ := hstep x List.mem_cons_self start d hstart
    obtain ⟨final, e', hrest, hfinal⟩ := ih (fun y hy => hstep y (List.mem_cons_of_mem _ hy)) hP
    exact ⟨final, e', run_bind_eq_ok.mpr ⟨c, e, hx, hrest⟩, hfinal⟩

/-! ### The numbers that are taken -/

/-- The numbers of a source from a place on. -/
def Gives (d : Draws α) (start : ℕ) (xs : List α) : Prop :=
  ∀ i (h : i < xs.length), d.source (start + i) = .ok xs[i]

/-- From one state to another the next numbers of the source are taken. -/
structure Takes (d : Draws α) (xs : List α) (e : Draws α) : Prop where
  given : d.Gives d.taken xs
  source_eq : e.source = d.source
  taken_eq : e.taken = d.taken + xs.length

/-- The source gives a number for every draw. -/
def Endless (d : Draws α) : Prop := ∀ place, ∃ x, d.source place = .ok x

variable {xs ys : List α} {d' : Draws α}

theorem Takes.nil (d : Draws α) : d.Takes [] d := ⟨fun i h => absurd h (Nat.not_lt_zero i), rfl, rfl⟩

theorem Takes.append (h : d.Takes xs d') (h' : d'.Takes ys e) : d.Takes (xs ++ ys) e := by
  refine ⟨fun i hi => ?_, h'.source_eq.trans h.source_eq, ?_⟩
  · by_cases hlt : i < xs.length
    · rw [List.getElem_append_left hlt]
      exact h.given i hlt
    · have hnext := h'.given (i - xs.length) (by rw [List.length_append] at hi; omega)
      rw [List.getElem_append_right (by omega), ← hnext, h.source_eq, h.taken_eq]
      congr 1
      omega
  · rw [h'.taken_eq, h.taken_eq, List.length_append, Nat.add_assoc]

theorem Gives.eq_map {stream : ℕ → α} (hd : ∀ place, d.source place = .ok (stream place)) {start : ℕ}
    (h : d.Gives start xs) : xs = (List.range xs.length).map fun i => stream (start + i) := by
  refine List.ext_getElem (by simp) fun i hi _ => ?_
  have hsame := (hd (start + i)).symm.trans (h i hi)
  rw [List.getElem_map, List.getElem_range]
  exact (Except.ok.inj hsame).symm

theorem Takes.endless (h : d.Takes xs e) (hd : d.Endless) : e.Endless := by
  intro place
  rw [h.source_eq]
  exact hd place

/-- A list of computations that can not fail is one. -/
theorem mapM_returns {β γ : Type} {f : β → Drawing α γ}
    (hf : ∀ x d, d.Endless → ∃ y e, (f x).run d = .ok (y, e) ∧ e.Endless) (xs : List β) (hd : d.Endless) :
    ∃ ys e, (xs.mapM f).run d = .ok (ys, e) := by
  induction xs generalizing d with
  | nil => exact ⟨[], d, rfl⟩
  | cons x xs ih =>
    obtain ⟨y, d', hx, hd'⟩ := hf x d hd
    obtain ⟨ys, e, hxs⟩ := ih hd'
    refine ⟨y :: ys, e, ?_⟩
    rw [List.mapM_cons]
    exact run_bind_eq_ok.mpr ⟨y, d', hx, run_bind_eq_ok.mpr ⟨ys, e, hxs, rfl⟩⟩

theorem next_takes {x : α} (h : next.run d = .ok (x, e)) : d.Takes [x] e := by
  obtain ⟨state, _, ⟨⟩, h⟩ := run_bind_eq_ok.mp h
  obtain ⟨y, hx, h⟩ := run_lift_bind_eq_ok.mp h
  cases h
  refine ⟨fun i hi => ?_, rfl, rfl⟩
  obtain rfl : i = 0 := by simpa using hi
  exact hx

theorem many_takes {count : ℕ} (h : (many count).run d = .ok (xs, e)) : xs.length = count ∧ d.Takes xs e := by
  induction count generalizing xs d with
  | zero =>
    cases h
    exact ⟨rfl, .nil _⟩
  | succ count ih =>
    rw [many, List.replicate_succ, List.mapM_cons] at h
    obtain ⟨x, d', hx, h⟩ := run_bind_eq_ok.mp h
    obtain ⟨xs', e', hxs, h⟩ := run_bind_eq_ok.mp h
    obtain ⟨rfl, rfl⟩ := run_pure_eq_ok.mp h
    obtain ⟨hlength, htakes⟩ := ih hxs
    exact ⟨congrArg (· + 1) hlength, (next_takes hx).append htakes⟩

/-- From an endless source any number of numbers can be taken. -/
theorem many_returns (hd : d.Endless) (count : ℕ) : ∃ xs e, (many count).run d = .ok (xs, e) := by
  induction count generalizing d with
  | zero => exact ⟨[], d, rfl⟩
  | succ count ih =>
    obtain ⟨x, hx⟩ := hd d.taken
    have hnext := next_run d x hx
    obtain ⟨xs, e, hxs⟩ := ih ((next_takes hnext).endless hd)
    refine ⟨x :: xs, e, ?_⟩
    rw [many, List.replicate_succ, List.mapM_cons]
    exact run_bind_eq_ok.mpr ⟨x, _, hnext, run_bind_eq_ok.mpr ⟨xs, e, hxs, rfl⟩⟩

end Draws

/-! ### Standard deviations that are numbers -/

/-- A number that is given: an integer, a real number or a truth value, but no text that spells one. -/
structure Given.IsNumber (g : Given ℝ) (x : ℝ) : Prop where
  value_eq : g.toNumber = .ok x
  not_text : g.isText = false

namespace Given.IsNumber

variable {g : Given ℝ} {x : ℝ}

theorem withNumbers_eq (h : g.IsNumber x) : g.withNumbers = g := by
  obtain ⟨hvalue, htext⟩ := h
  cases g with
  | text name => cases htext
  | list items => cases hvalue
  | record fields => cases hvalue
  | null => cases hvalue
  | _ => simp [withNumbers]

theorem ofNested_eq (h : g.IsNumber x) : Tensor.ofNested g = .ok ⟨[], [g]⟩ := by
  obtain ⟨hvalue, -⟩ := h
  cases g with
  | list items => cases hvalue
  | _ => rfl

/-- Multiplying by a number is reading it and multiplying every entry. -/
theorem scaled_eq (h : g.IsNumber x) (t : Tensor ℝ) :
    Tensor.scaled g t = (do
      let products ← Tensor.combine (fun (entry : Given ℝ) z => entry.toNumber.map fun c => c * z)
        (.single g) t
      let data ← products.data.mapM id
      return ⟨products.shape, data⟩ : Except Error (Tensor ℝ)) := by
  have hoperand : Tensor.operand g = .ok (.single g) := by
    rw [Tensor.operand, h.withNumbers_eq, h.ofNested_eq]
    simp [bind, Except.bind, h.not_text, pure, Except.pure, Tensor.single]
  rw [Tensor.scaled, hoperand]
  cases g with
  | integer n =>
    have hread : (Given.ofInteger n : Except Error ℝ) = .ok x := h.value_eq
    simp only [bind, Except.bind, hread]
  | _ => rfl

/-- A number is multiplied with every number of a vector. -/
theorem scaled_ofVector (h : g.IsNumber x) (zs : List ℝ) :
    Tensor.scaled g (.ofVector zs) = .ok (.ofVector (zs.map (x * ·))) := by
  have hread : ∀ z, g.toNumber.map (fun c => c * z) = .ok (x * z) := fun z => by
    rw [h.value_eq]
    rfl
  have hdata : (zs.map fun z => g.toNumber.map fun c => c * z).mapM id = .ok (zs.map (x * ·)) := by
    rw [List.mapM_map]
    exact mapM_eq_ok_map fun z _ => hread z
  rw [h.scaled_eq, Tensor.combine_single_left]
  refine bind_eq_ok.mpr ⟨_, rfl, bind_eq_ok.mpr ⟨_, hdata, ?_⟩⟩
  simp [Tensor.ofVector, pure, Except.pure]

theorem scaled_single (h : g.IsNumber x) (z : ℝ) : Tensor.scaled g (.single z) = .ok (.single (x * z)) := by
  rw [h.scaled_eq]
  refine bind_eq_ok.mpr ⟨.single (g.toNumber.map fun c => c * z), rfl, bind_eq_ok.mpr ⟨[x * z], ?_, rfl⟩⟩
  rw [h.value_eq]
  rfl

/-- As the part of an array a number is read alike. -/
theorem partOf_eq (h : g.IsNumber x) : Noise.partOf [g] g = .ok x := by
  obtain ⟨hvalue, htext⟩ := h
  rw [Noise.partOf, List.any_cons, htext, List.any_nil, Bool.or_false, Bool.and_false, Bool.false_and,
    if_neg Bool.false_ne_true]
  cases g with
  | null => cases hvalue
  | text name => cases htext
  | _ => exact hvalue

/-- One number is written to all places of a vector of standard deviations. -/
theorem filled_eq (h : g.IsNumber x) {n : ℕ} (hn : Tensor.checkShape [(n : ℤ)] = .ok [n]) :
    Noise.filled (.integer n) g = Noise.ofTensor (.ofVector (List.replicate n x)) Loss.quadratic [] := by
  have hwritten : (Tensor.single g).written [n] = .ok (List.replicate n g) := by
    have hspread : (Tensor.single g).spread [n] = List.replicate n g := by simp [Tensor.spread_single]
    rw [← hspread]
    exact if_pos rfl
  have hparts : (List.replicate n g).mapM (Noise.partOf [g]) = .ok (List.replicate n x) := by
    have hread : ∀ part ∈ List.replicate n g, Noise.partOf [g] part = .ok x := fun part hpart => by
      rw [List.eq_of_mem_replicate hpart]
      exact h.partOf_eq
    rw [mapM_eq_ok_map hread, List.map_const', List.length_replicate]
  have hvector : (⟨[n], List.replicate n x⟩ : Tensor ℝ) = .ofVector (List.replicate n x) := by
    rw [Tensor.ofVector, List.length_replicate]
  rw [Noise.filled, h.ofNested_eq]
  simp only [bind, Except.bind, Given.lengths, Given.toLength, Except.map, hn]
  rw [← Tensor.single, hwritten]
  simp only [hparts, hvector]

end Given.IsNumber

namespace Noise

variable {noise : Noise ℝ}

theorem ofTensor_quadratic_eq_ok {sigmas : Vec ℝ} :
    ofTensor (.ofVector sigmas) Loss.quadratic [] = .ok noise ↔
      noise = ⟨sigmas, .none⟩ ∧ sigmas ≠ [] ∧ ∀ sigma ∈ sigmas, 0 < sigma := by
  have hvector : (Tensor.ofVector sigmas).vector? = some sigmas := rfl
  constructor
  · intro h
    obtain ⟨read, hread, h⟩ := bind_eq_ok.mp h
    obtain ⟨loss, hloss, h⟩ := bind_eq_ok.mp h
    cases h
    cases hloss
    obtain ⟨hsame, hsigmas⟩ := checkSigmas_eq_ok.mp hread
    obtain rfl := Option.some.inj hsame
    exact ⟨rfl, hsigmas⟩
  · rintro ⟨rfl, hsigmas⟩
    exact ofTensor_eq_ok (checkSigmas_eq_ok.mpr ⟨hvector, hsigmas⟩) rfl

end Noise

/-- What is filled with one number has this number in all its places. -/
theorem Given.IsNumber.of_filled {g : Given ℝ} {x : ℝ} {n : ℕ} {noise : Noise ℝ} (hg : g.IsNumber x)
    (h : Noise.filled (.integer n) g = .ok noise) : noise = ⟨List.replicate n x, .none⟩ := by
  have hshape : Tensor.checkShape [(n : ℤ)] = .ok [n] := by
    obtain ⟨given, -, h⟩ := bind_eq_ok.mp h
    obtain ⟨lengths, hlengths, h⟩ := bind_eq_ok.mp h
    cases hlengths
    obtain ⟨shape, hshape, -⟩ := bind_eq_ok.mp h
    rw [hshape, (Tensor.checkShape_eq_ok hshape).1]
    rfl
  rw [hg.filled_eq hshape] at h
  exact (Noise.ofTensor_quadratic_eq_ok.mp h).1

namespace Draws

variable {d e : Draws ℝ} {t : Tensor ℝ} {sigma : Given ℝ} {x : ℝ}

/-! ### How many numbers are drawn -/

theorem wordProduct_pairs {n : ℕ} (hn : n < 2 ^ 63) :
    wordProduct [(n : ℤ), 2] = if n * 2 < 2 ^ 63 then (n * 2 : ℤ) else n * 2 - 2 ^ 64 := by
  have hhalf : Int.ofNat (Nat.pow 2 63) = 9223372036854775808 := rfl
  have hword : Int.ofNat (Nat.pow 2 64) = 18446744073709551616 := rfl
  unfold wordProduct
  rw [hhalf, hword, List.foldl_cons, List.foldl_cons, List.foldl_nil]
  split_ifs <;> omega

/-- A product of one number is this number, as long as it fits. -/
theorem wordProduct_single {n : ℤ} (hlow : -9223372036854775808 ≤ n) (hhigh : n < 9223372036854775808) :
    wordProduct [n] = n := by
  have hhalf : Int.ofNat (Nat.pow 2 63) = 9223372036854775808 := rfl
  have hword : Int.ofNat (Nat.pow 2 64) = 18446744073709551616 := rfl
  unfold wordProduct
  rw [hhalf, hword, List.foldl_cons, List.foldl_nil]
  omega

theorem fitting_natCast (n : ℕ) : fitting n = if n < 2 ^ 63 then .ok (n : ℤ) else .error .overflow := by
  have hhalf : Int.ofNat (Nat.pow 2 63) = 9223372036854775808 := rfl
  unfold fitting
  rw [hhalf]
  exact if_congr (by omega) rfl rfl

/-- The numbers for so many pairs, of which there may not be too many. -/
theorem countFor_pairs {n count : ℕ} :
    countFor (.list [.integer n, .integer 2] : Given ℝ) = .ok count ↔ n * 2 ≤ mostAtOnce ∧ n * 2 = count := by
  have hmost : mostAtOnce = 10000000 := rfl
  have hnested : Tensor.ofNested (.list [.integer n, .integer 2] : Given ℝ) =
      .ok ⟨[2], [.integer n, .integer 2]⟩ := rfl
  have hsizes : ([.integer n, .integer 2] : List (Given ℝ)).mapM axisSize =
      (fitting n).map fun size => [size, 2] := by
    have htwo : fitting 2 = .ok 2 := fitting_natCast 2
    simp only [List.mapM_cons, List.mapM_nil, axisSize, htwo]
    cases fitting n <;> rfl
  rw [fitting_natCast] at hsizes
  constructor
  · intro h
    obtain ⟨t, ht, h⟩ := bind_eq_ok.mp h
    obtain rfl := Except.ok.inj (hnested.symm.trans ht)
    obtain ⟨sizes, hread, h⟩ := bind_eq_ok.mp h
    rw [hsizes] at hread
    split_ifs at hread with hn
    · cases hread
      rw [wordProduct_pairs hn] at h
      simp only [hmost] at h
      split_ifs at h
      all_goals cases h
      all_goals omega
    · cases hread
  · rintro ⟨hn, rfl⟩
    rw [hmost] at hn
    rw [if_pos (by omega)] at hsizes
    refine bind_eq_ok.mpr ⟨_, hnested, bind_eq_ok.mpr ⟨_, hsizes, ?_⟩⟩
    have hcount : wordProduct [(n : ℤ), 2] = (n * 2 : ℕ) := by
      rw [wordProduct_pairs (by omega), if_pos (by omega)]
      push_cast
      rfl
    have hnonneg : ¬ ((n * 2 : ℕ) : ℤ) < 0 := by omega
    have hfew : ¬ mostAtOnce < n * 2 := by omega
    simp only [hcount, if_neg hnonneg, Int.toNat_natCast, if_neg hfew]
    rfl

/-- A single size is the number of draws, of which there may not be too many. -/
theorem countFor_integer {n : ℤ} {count : ℕ} :
    countFor (.integer n : Given ℝ) = .ok count ↔ n = count ∧ count ≤ mostAtOnce := by
  have hmost : mostAtOnce = 10000000 := rfl
  have hhalf : Int.ofNat (Nat.pow 2 63) = 9223372036854775808 := rfl
  have hnested : Tensor.ofNested (.integer n : Given ℝ) = .ok ⟨[], [.integer n]⟩ := rfl
  have hsize : axisSize (.integer n : Given ℝ) = fitting n := rfl
  rw [fitting, hhalf] at hsize
  constructor
  · intro h
    obtain ⟨t, ht, h⟩ := bind_eq_ok.mp h
    obtain rfl := Except.ok.inj (hnested.symm.trans ht)
    obtain ⟨sizes, hsizes, h⟩ := bind_eq_ok.mp h
    rw [mapM_eq_ok_iff] at hsizes
    obtain _ | ⟨hfirst, ⟨⟩⟩ := hsizes
    rw [hsize] at hfirst
    split_ifs at hfirst with hrange
    cases hfirst
    simp only at h
    split_ifs at h with hsign _ hfew
    all_goals cases h
    rw [wordProduct_single hrange.1 hrange.2] at hsign hfew ⊢
    omega
  · rintro ⟨rfl, hfew⟩
    rw [hmost] at hfew
    rw [if_pos (by omega)] at hsize
    refine bind_eq_ok.mpr ⟨_, hnested, bind_eq_ok.mpr ⟨[(count : ℤ)], ?_, ?_⟩⟩
    · exact mapM_eq_ok_iff.mpr (.cons hsize .nil)
    · have hsign : ¬ (count : ℤ) < 0 := by omega
      have hmany : ¬ mostAtOnce < count := by omega
      have hproduct : wordProduct [(count : ℤ)] = count := wordProduct_single (by omega) (by omega)
      simp only [hproduct, if_neg hsign, Int.toNat_natCast, if_neg hmany]
      rfl

/-! ### Arrays of numbers that are drawn -/

/-- The numbers of an array are those that are taken. -/
theorem ofSize_takes {size : Given ℝ} (h : (ofSize size).run d = .ok (t, e)) :
    d.Takes t.data e ∧ countFor size = .ok t.data.length ∧ Tensor.places t.shape = t.data.length ∧
      ∃ lengths, size.lengths = .ok lengths ∧ Tensor.fillLength t.data.length lengths = some t.shape := by
  obtain ⟨count, hcount, h⟩ := run_lift_bind_eq_ok.mp h
  obtain ⟨numbers, e', hnumbers, h⟩ := run_bind_eq_ok.mp h
  obtain ⟨lengths, hlengths, h⟩ := run_lift_bind_eq_ok.mp h
  obtain ⟨hreshape, rfl⟩ := run_lift_eq_ok.mp h
  rw [Tensor.reshape] at hreshape
  split at hreshape
  · next shape hshape =>
    split_ifs at hreshape with hplaces
    cases hreshape
    obtain ⟨rfl, htakes⟩ := many_takes hnumbers
    exact ⟨htakes, hcount, hplaces, lengths, hlengths, hshape⟩
  · cases hreshape

/-- Lengths that are known stay as they are, also where the first one is filled in. -/
theorem fillLength_cons {count : ℕ} {n : ℤ} {shape : List ℕ} (known : List ℕ)
    (h : Tensor.fillLength count (n :: known.map Nat.cast) = some shape) : ∃ k, shape = k :: known := by
  rw [Tensor.fillLength] at h
  split at h
  · cases h
    exact ⟨n.toNat, by simp [Function.comp_def]⟩
  · simp only at h
    split_ifs at h
    cases h
    refine ⟨_, congrArg (List.cons _) ?_⟩
    rw [List.map_map]
    refine (List.map_congr_left fun k _ => ?_).trans (List.map_id known)
    rw [Function.comp_apply, if_neg (by omega)]
    rfl
  · cases h

/-- An array of any shape can be drawn from an endless source. -/
theorem ofSize_returns {size : Given ℝ} {count : ℕ} {lengths : List ℤ} {shape : List ℕ}
    (hcount : countFor size = .ok count) (hlengths : size.lengths = .ok lengths)
    (hshape : Tensor.fillLength count lengths = some shape) (hplaces : Tensor.places shape = count)
    (hd : d.Endless) : ∃ t e, (ofSize size).run d = .ok (t, e) := by
  obtain ⟨zs, e, hzs⟩ := many_returns hd count
  obtain ⟨rfl, -⟩ := many_takes hzs
  have hreshape : Tensor.reshape (.ofVector zs) lengths = .ok ⟨shape, zs⟩ := by
    rw [Tensor.reshape, Tensor.ofVector, hshape]
    exact if_pos hplaces
  exact ⟨_, e, run_lift_bind_eq_ok.mpr ⟨_, hcount, run_bind_eq_ok.mpr ⟨zs, e, hzs,
    run_lift_bind_eq_ok.mpr ⟨_, hlengths, run_lift_eq_ok.mpr ⟨hreshape, rfl⟩⟩⟩⟩⟩

/-- An array of a single size is a vector of this size. -/
theorem ofSize_integer {n : ℤ} (h : (ofSize (.integer n)).run d = .ok (t, e)) :
    n = t.data.length ∧ t = .ofVector t.data ∧ d.Takes t.data e := by
  obtain ⟨htakes, hcount, hplaces, lengths, hlengths, hshape⟩ := ofSize_takes h
  obtain rfl : [n] = lengths := Except.ok.inj hlengths
  obtain ⟨k, hk⟩ := fillLength_cons [] hshape
  have hlength : t.data.length = k := by
    rw [← hplaces, hk, Tensor.places, List.foldl_cons, List.foldl_nil, Nat.one_mul]
  refine ⟨(countFor_integer.mp hcount).1, ?_, htakes⟩
  rw [Tensor.ofVector, hlength, ← hk]

theorem normalVec_takes {sigmas errors : Vec ℝ} (h : (normalVec sigmas).run d = .ok (errors, e)) :
    ∃ zs, zs.length = sigmas.length ∧ errors = List.zipWith (· * ·) sigmas zs ∧ d.Takes zs e := by
  obtain ⟨zs, e', hzs, h⟩ := run_bind_eq_ok.mp h
  obtain ⟨rfl, rfl⟩ := run_pure_eq_ok.mp h
  obtain ⟨hlength, htakes⟩ := many_takes hzs
  exact ⟨zs, hlength, rfl, htakes⟩

theorem normalVec_returns (sigmas : Vec ℝ) (hd : d.Endless) :
    ∃ errors e, (normalVec sigmas).run d = .ok (errors, e) := by
  obtain ⟨zs, e, hzs⟩ := many_returns hd sigmas.length
  exact ⟨_, e, run_bind_eq_ok.mpr ⟨zs, e, hzs, rfl⟩⟩

theorem normal_takes (hsigma : sigma.IsNumber x) {n : ℤ}
    (h : (normal sigma (.integer n)).run d = .ok (t, e)) :
    ∃ zs, n = zs.length ∧ t = .ofVector (zs.map (x * ·)) ∧ d.Takes zs e := by
  obtain ⟨z, e', hz, h⟩ := run_bind_eq_ok.mp h
  obtain ⟨hscaled, rfl⟩ := run_lift_eq_ok.mp h
  obtain ⟨hlength, hvector, htakes⟩ := ofSize_integer hz
  rw [hvector, hsigma.scaled_ofVector] at hscaled
  exact ⟨z.data, hlength, (Except.ok.inj hscaled).symm, htakes⟩

theorem normal_returns (hsigma : sigma.IsNumber x) {n : ℕ} (hn : n ≤ mostAtOnce) (hd : d.Endless) :
    ∃ t e, (normal sigma (.integer n)).run d = .ok (t, e) := by
  have hfill : Tensor.fillLength n [(n : ℤ)] = some [n] := by simp [Tensor.fillLength]
  have hplaces : Tensor.places [n] = n := by simp [Tensor.places]
  obtain ⟨z, e, hz⟩ := ofSize_returns (countFor_integer.mpr ⟨rfl, hn⟩) rfl hfill hplaces hd
  obtain ⟨-, hvector, -⟩ := ofSize_integer hz
  have hscaled := hsigma.scaled_ofVector z.data
  rw [← hvector] at hscaled
  exact ⟨_, e, run_bind_eq_ok.mpr ⟨z, e, hz, run_lift_eq_ok.mpr ⟨hscaled, rfl⟩⟩⟩

/-- Noise with a number as its standard deviation is a number. -/
theorem normalLike_takes (hsigma : sigma.IsNumber x) (h : (normalLike sigma).run d = .ok (t, e)) :
    ∃ z, t = .single (x * z) ∧ d.Takes [z] e := by
  obtain ⟨given, hgiven, h⟩ := run_lift_bind_eq_ok.mp h
  obtain rfl := Except.ok.inj (hsigma.ofNested_eq.symm.trans hgiven)
  obtain ⟨zs, e', hzs, h⟩ := run_bind_eq_ok.mp h
  obtain ⟨hscaled, rfl⟩ := run_lift_eq_ok.mp h
  obtain ⟨hlength, htakes⟩ := many_takes hzs
  obtain ⟨z, rfl⟩ := List.length_eq_one_iff.mp hlength
  exact ⟨z, (Except.ok.inj ((hsigma.scaled_single z).symm.trans hscaled)).symm, htakes⟩

theorem normalLike_returns (hsigma : sigma.IsNumber x) (hd : d.Endless) :
    ∃ t e, (normalLike sigma).run d = .ok (t, e) := by
  obtain ⟨zs, e, hzs⟩ := many_returns hd 1
  obtain ⟨z, rfl⟩ := List.length_eq_one_iff.mp (many_takes hzs).1
  exact ⟨_, e, run_bind_eq_ok.mpr ⟨_, d, run_lift_eq_ok.mpr ⟨hsigma.ofNested_eq, rfl⟩,
    run_bind_eq_ok.mpr ⟨[z], e, hzs, run_lift_eq_ok.mpr ⟨hsigma.scaled_single z, rfl⟩⟩⟩⟩

theorem floorMod_one (u : ℝ) : Scalar.floorMod u 1 = Int.fract u := by
  have hvalue : Scalar.floorMod u 1 = u - 1 * ⌊u / 1⌋ := rfl
  rw [hvalue, one_mul, div_one, Int.self_sub_floor]

/-- Points in a square take two numbers each, whose fractions are multiplied with the bound. -/
theorem uniformPoints_takes {bound count : Given ℝ} {points : List (Vec ℝ)}
    (h : (uniformPoints bound count).run d = .ok (points, e)) :
    ∃ zs b, d.Takes zs e ∧ countFor (.list [count, .integer 2]) = .ok zs.length ∧
      zs.length = points.length * 2 ∧ bound.toNumber = .ok b ∧
      points = (Tensor.cut 2 zs points.length).map (·.map fun u => b * Int.fract u) := by
  obtain ⟨t, e', ht, h⟩ := run_bind_eq_ok.mp h
  obtain ⟨b, hb, h⟩ := run_lift_bind_eq_ok.mp h
  obtain ⟨rfl, rfl⟩ := run_pure_eq_ok.mp h
  obtain ⟨htakes, hcount, hplaces, lengths, hlengths, hshape⟩ := ofSize_takes ht
  obtain ⟨n, rfl⟩ : ∃ n, [n, 2] = lengths := by
    obtain ⟨n, -, hlengths⟩ := bind_eq_ok.mp ((List.mapM_cons ..).symm.trans hlengths)
    exact ⟨n, Except.ok.inj hlengths⟩
  obtain ⟨k, hk⟩ := fillLength_cons [2] hshape
  obtain ⟨shape, data⟩ := t
  obtain rfl : shape = [k, 2] := hk
  have hlength : data.length = k * 2 := by
    rw [← hplaces]
    simp [Tensor.places]
  have hparts : (⟨[k, 2], data⟩ : Tensor ℝ).parts.map (fun point => point.data.map fun u =>
      b * Scalar.floorMod u 1) = (Tensor.cut 2 data k).map (·.map fun u => b * Int.fract u) := by
    have hrows : (⟨[k, 2], data⟩ : Tensor ℝ).parts = (Tensor.cut 2 data k).map fun row => ⟨[2], row⟩ := rfl
    simp only [hrows, List.map_map, Function.comp_def, floorMod_one]
  rw [hparts]
  refine ⟨data, b, htakes, hcount, ?_, hb, ?_⟩
  · rw [hlength, List.length_map, Tensor.length_cut]
  · rw [List.length_map, Tensor.length_cut]

/-- So many points are drawn as are asked for, unless these are too many. -/
theorem length_uniformPoints {bound : Given ℝ} {n : ℕ} {points : List (Vec ℝ)}
    (h : (uniformPoints bound (.integer n)).run d = .ok (points, e)) :
    points.length = n ∧ n * 2 ≤ mostAtOnce := by
  obtain ⟨zs, b, -, hcount, hlength, -⟩ := uniformPoints_takes h
  obtain ⟨hfew, hsame⟩ := countFor_pairs.mp hcount
  exact ⟨by omega, hfew⟩

theorem uniformPoints_returns {bound : Given ℝ} {b : ℝ} (hbound : bound.toNumber = .ok b) (hd : d.Endless)
    {n : ℕ} (hn : n * 2 ≤ mostAtOnce) :
    ∃ points e, (uniformPoints bound (.integer n)).run d = .ok (points, e) := by
  have hfill : Tensor.fillLength (n * 2) [(n : ℤ), 2] = some [n, 2] := by simp [Tensor.fillLength]
  have hplaces : Tensor.places [n, 2] = n * 2 := by simp [Tensor.places]
  obtain ⟨t, e, ht⟩ := ofSize_returns (countFor_pairs.mpr ⟨hn, rfl⟩) rfl hfill hplaces hd
  exact ⟨_, e, run_bind_eq_ok.mpr ⟨t, e, ht, run_lift_bind_eq_ok.mpr ⟨b, hbound, rfl⟩⟩⟩

/-- Moving an estimate by noise can not fail when the standard deviation is a number. -/
theorem perturb_returns (hsigma : sigma.IsNumber x) (values : Values ℝ) (hd : d.Endless) :
    ∃ moved e, (perturb values sigma).run d = .ok (moved, e) := by
  have hrows : ∀ row : Key × Vec ℝ, ∀ d : Draws ℝ, d.Endless → ∃ moved e, (do
      let z ← many row.2.length
      let noise ← Tensor.scaled sigma (.ofVector z)
      let moved ← Tensor.combine (· + ·) (.ofVector row.2) noise
      let xs ← moved.vectorFor row.1
      return (row.1, xs) : Drawing ℝ (Key × Vec ℝ)).run d = .ok (moved, e) ∧ e.Endless := by
    intro row d hd
    obtain ⟨zs, e, hzs⟩ := many_returns hd row.2.length
    obtain ⟨hlength, htakes⟩ := many_takes hzs
    have hmoved : Tensor.combine (· + ·) (.ofVector row.2) (.ofVector (zs.map (x * ·))) =
        .ok (.ofVector (List.zipWith (· + ·) row.2 (zs.map (x * ·)))) := by
      rw [Tensor.combine_ofVector, combine_of_length_eq _ _ _ (by rw [List.length_map, hlength])]
      rfl
    exact ⟨_, e, run_bind_eq_ok.mpr ⟨zs, e, hzs, run_lift_bind_eq_ok.mpr ⟨_, hsigma.scaled_ofVector zs,
      run_lift_bind_eq_ok.mpr ⟨_, hmoved, rfl⟩⟩⟩, htakes.endless hd⟩
  obtain ⟨entries, e, hentries⟩ := mapM_returns hrows values.entries hd
  exact ⟨_, e, run_bind_eq_ok.mpr ⟨entries, e, hentries, rfl⟩⟩

end Draws

end LeastSquares
