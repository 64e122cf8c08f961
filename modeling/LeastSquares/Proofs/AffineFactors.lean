/-
  LeastSquares/Proofs/AffineFactors.lean
  ======================================
  **Affine factors: at every estimate they miss what one linear factor misses.**

  A measurement is affine when its residual at an estimate is what a linear factor misses at the components
  of the estimate, and its derivative is the blocks of that factor.  Whitening and weighing act on the rows
  of a linear factor, so a whitened affine factor is affine again, and its linearization around an
  estimate misses at a step what the factor itself misses at the estimate moved by the step, up to the root
  of the weight.
-/
import LeastSquares.Proofs.Linearization

namespace LeastSquares

open Vec

/-! ### Estimates as assignments -/

namespace Values

/-- The assignment that an estimate holds; it is zero where the estimate says nothing. -/
noncomputable def assignment (v : Values ℝ) : Assignment := fun key =>
  entry ((v.entries.get? key).getD [])

variable {v w : Values ℝ}

theorem get?_dims (v : Values ℝ) (key : Key) :
    v.dims.get? key = (v.entries.get? key).map List.length := Table.get?_mapEntries _ _ _

/-- An estimate has a vector of the right size for every variable that has a size. -/
theorem find_of_get?_dims {key : Key} {n : ℕ} (h : v.dims.get? key = some n) :
    ∃ xs, v.entries.find key = .ok xs ∧ xs.length = n ∧ v.assignment key = entry xs := by
  rw [get?_dims, Option.map_eq_some_iff] at h
  obtain ⟨xs, hxs, hlength⟩ := h
  exact ⟨xs, Table.find_eq_ok.mpr hxs, hlength, by rw [assignment, hxs, Option.getD_some]⟩

theorem get?_retract {d : Delta ℝ} (h : v.retract d = .ok w) {key : Key} {xs : Vec ℝ}
    (hxs : v.entries.get? key = some xs) :
    ∃ ys, w.entries.get? key = some ys ∧ moved d key xs = .ok (key, ys) := by
  obtain ⟨entries, hentries, rfl⟩ := map_eq_ok.mp h
  have hall := mapM_eq_ok_iff.mp hentries
  clear h hentries
  obtain ⟨rows⟩ := v
  simp only at hall hxs
  induction hall with
  | nil => cases hxs
  | @cons row moved' rows entries hhead _ ih =>
    obtain ⟨k, old⟩ := row
    obtain ⟨k', new⟩ := moved'
    obtain ⟨hkey, -⟩ := moved_eq_ok hhead
    simp only at hkey hhead
    subst hkey
    rw [Table.get?_cons] at hxs ⊢
    split at hxs
    · next heq =>
      cases hxs
      subst heq
      exact ⟨new, if_pos rfl, hhead⟩
    · next hne =>
      rw [if_neg hne]
      exact ih hxs

/-- A step is added to an estimate, component by component. -/
theorem assignment_retract {d : Delta ℝ} (h : v.retract d = .ok w) {key : Key}
    (hkey : key ∈ v.keys) (j : ℕ) :
    w.assignment key j = v.assignment key j + d.assignment key j := by
  obtain ⟨xs, hxs⟩ := Table.exists_get?_of_mem_keys hkey
  obtain ⟨ys, hys, hmoved⟩ := get?_retract h hxs
  simp only [assignment, hxs, hys, Option.getD_some, Delta.assignment]
  rw [moved] at hmoved
  cases hstep : d.blocks.get? key with
  | none =>
    simp only [hstep] at hmoved
    cases hmoved
    simp [entry]
  | some step =>
    simp only [hstep] at hmoved
    split_ifs at hmoved with hlength
    cases hmoved
    simp only [entry, Vec.add, Option.getD_some, List.getD_eq_getElem?_getD, List.getElem?_zipWith]
    by_cases hj : j < xs.length
    · simp [hj, hlength]
    · simp [hj, hlength]

/-- A step that can be added has blocks of the right sizes. -/
theorem length_of_retract {d : Delta ℝ} (h : v.retract d = .ok w) {key : Key} {n : ℕ}
    (hn : v.dims.get? key = some n) {step : Vec ℝ} (hstep : d.blocks.get? key = some step) :
    step.length = n := by
  obtain ⟨xs, hfind, hlength, -⟩ := find_of_get?_dims hn
  obtain ⟨_, -, hmoved⟩ := get?_retract h (Table.find_eq_ok.mp hfind)
  simp only [moved, hstep] at hmoved
  split_ifs at hmoved with hsame
  exact hsame.trans hlength

/-- A step with blocks of the right sizes can be added. -/
theorem retract_exists (v : Values ℝ) {d : Delta ℝ}
    (h : ∀ key n step, v.dims.get? key = some n → d.blocks.get? key = some step → step.length = n)
    (hnodup : v.keys.Nodup) : ∃ w, v.retract d = .ok w := by
  have hmoved : ∀ row ∈ v.entries, ∃ row', moved d row.1 row.2 = .ok row' ∧ True := by
    intro row hrow
    rw [moved]
    split
    · exact ⟨_, rfl, trivial⟩
    · next step hstep =>
      have hlength := h row.1 row.2.length step
        (by rw [get?_dims, Table.get?_of_mem hnodup hrow]; rfl) hstep
      rw [if_pos hlength]
      exact ⟨_, rfl, trivial⟩
  obtain ⟨rows, hrows, -⟩ := mapM_exists hmoved
  exact ⟨⟨rows⟩, by rw [retract, hrows]; rfl⟩

/-- Estimates of the same variables and sizes differ in a component, or not at all. -/
theorem ext_assignment (hnodup : v.keys.Nodup) (hdims : w.dims = v.dims)
    (h : ∀ key n, v.dims.get? key = some n → ∀ j < n, w.assignment key j = v.assignment key j) :
    w = v := by
  have hkeys : w.keys = v.keys := by rw [← keys_dims, hdims, keys_dims]
  have hlength : w.entries.length = v.entries.length := by
    have := congrArg List.length hkeys
    simpa [keys, Table.keys] using this
  have hentries : w.entries = v.entries := by
    refine List.ext_getElem hlength fun i hi hi' => ?_
    have hkey : w.entries[i].1 = v.entries[i].1 := by
      have := List.getElem_of_eq hkeys (i := i) (by simpa [keys, Table.keys] using hi)
      simpa [keys, Table.keys] using this
    have hv := Table.get?_of_mem hnodup (List.getElem_mem hi')
    have hw := Table.get?_of_mem (t := w.entries) (by rwa [show w.entries.keys = v.keys from hkeys])
      (List.getElem_mem hi)
    have hsize : v.dims.get? v.entries[i].1 = some v.entries[i].2.length := by
      rw [get?_dims, hv]
      rfl
    have hsize' : w.dims.get? v.entries[i].1 = some w.entries[i].2.length := by
      rw [← hkey, get?_dims, hw]
      rfl
    rw [hdims, hsize, Option.some.injEq] at hsize'
    refine Prod.ext hkey (List.ext_getElem hsize'.symm fun j hj hj' => ?_)
    have hentry := h _ _ hsize j hj'
    rw [assignment, assignment, ← hkey, hw, hkey, hv] at hentry
    simpa [entry, List.getD_eq_getElem?_getD, hj, hj'] using hentry
  cases v
  cases w
  exact congrArg _ hentries

end Values

/-! ### What is missed at a sum -/

theorem Vec.add_right_comm (xs ys zs : Vec ℝ) :
    add (add xs ys) zs = add (add xs zs) ys := by
  refine List.ext_getElem ?_ fun i h1 h2 => ?_
  · simp only [add, List.length_zipWith]
    omega
  · simp only [add, List.getElem_zipWith]
    ring

theorem Vec.neg_neg (xs : Vec ℝ) : neg (neg xs) = xs := by
  simp [neg]

namespace LinearFactor

variable {dims : Table ℕ} {blocks : Table (Mat ℝ)} {rhs : Vec ℝ}

theorem length_missed (hfits : (dense blocks rhs).Fits dims) (x : Assignment) :
    ((dense blocks rhs).missed x).length = rhs.length := by
  have hheights : ∀ entry ∈ blocks, entry.2.rows.length = rhs.length := fun entry hentry =>
    (hfits.2 entry hentry).2.1
  have hfold : ∀ (blocks : Table (Mat ℝ)) (r : Vec ℝ), r.length = rhs.length →
      (∀ entry ∈ blocks, entry.2.rows.length = rhs.length) →
      (blocks.foldl (fun r entry => Vec.add r (entry.2.rows.map (form · (x entry.1)))) r).length =
        rhs.length := by
    intro blocks
    induction blocks with
    | nil => exact fun r hr _ => hr
    | cons entry blocks ih =>
      intro r hr hheights
      refine ih _ ?_ fun e he => hheights e (List.mem_cons_of_mem _ he)
      simp [Vec.add, hr, hheights entry (by simp)]
  exact hfold blocks _ (by simp [Vec.neg]) hheights

/-- **Moving an assignment** moves what is missed by what the blocks give, so it is missed as well by the
    factor that has the residual so far on its right-hand side. -/
theorem missed_add (blocks : Table (Mat ℝ)) (rhs : Vec ℝ) (x y : Assignment) :
    (dense blocks rhs).missed (x + y) =
      (dense blocks (Vec.neg ((dense blocks rhs).missed x))).missed y := by
  have hpull : ∀ (blocks : Table (Mat ℝ)) (r s : Vec ℝ),
      blocks.foldl (fun r entry => Vec.add r (entry.2.rows.map (form · (x entry.1)))) (Vec.add r s) =
        Vec.add (blocks.foldl
          (fun r entry => Vec.add r (entry.2.rows.map (form · (x entry.1)))) r) s := by
    intro blocks
    induction blocks with
    | nil => exact fun _ _ => rfl
    | cons entry blocks ih =>
      intro r s
      rw [List.foldl_cons, List.foldl_cons, Vec.add_right_comm, ih]
  simp only [missed, Vec.neg_neg]
  generalize Vec.neg rhs = r
  induction blocks generalizing r with
  | nil => rfl
  | cons entry blocks ih =>
    have hsum : entry.2.rows.map (form · ((x + y) entry.1)) =
        Vec.add (entry.2.rows.map (form · (x entry.1))) (entry.2.rows.map (form · (y entry.1))) := by
      simp only [Pi.add_apply, form_add_right, Vec.add, List.zipWith_map, List.zipWith_self]
    have hassoc : ∀ a b c : Vec ℝ, Vec.add a (Vec.add b c) = Vec.add (Vec.add a b) c := by
      intro a b c
      refine List.ext_getElem ?_ fun i h1 h2 => ?_
      · simp only [Vec.add, List.length_zipWith]
        omega
      · simp only [Vec.add, List.getElem_zipWith]
        ring
    rw [List.foldl_cons, List.foldl_cons, List.foldl_cons, hsum, hassoc, ih, hpull]

end LinearFactor

/-! ### Changes of rows -/

/-- A change of the rows of matrices goes with a change of vectors when the two agree on what the rows take
    as values; it leads from matrices of one height to matrices of another. -/
structure RowChange (height target : ℕ) where
  /-- The change of the rows of a matrix. -/
  rows : List (Vec ℝ) → List (Vec ℝ)
  /-- The change of what the rows take as values. -/
  values : Vec ℝ → Vec ℝ
  agrees : ∀ m v, (rows m).map (form · v) = values (m.map (form · v))
  additive : ∀ xs ys, xs.length = height → ys.length = height →
    values (Vec.add xs ys) = Vec.add (values xs) (values ys)
  negative : ∀ xs, values (Vec.neg xs) = Vec.neg (values xs)
  length_values : ∀ xs, xs.length = height → (values xs).length = target
  keepsWidth : ∀ m width, (∀ row ∈ m, row.length = width) → ∀ row ∈ rows m, row.length = width

namespace RowChange

variable {height target : ℕ} (change : RowChange height target) {dims : Table ℕ}
  {blocks : Table (Mat ℝ)} {rhs : Vec ℝ}

def block (m : Mat ℝ) : Mat ℝ := ⟨m.width, change.rows m.rows⟩

/-- The linear factor with changed rows. -/
def factor (blocks : Table (Mat ℝ)) (rhs : Vec ℝ) : LinearFactor ℝ :=
  .dense (blocks.mapEntries change.block) (change.values rhs)

theorem height_block {m : Mat ℝ} (h : m.height = height) : (change.block m).height = target := by
  have hvalues := change.length_values (m.rows.map (form · fun _ => 0))
    ((List.length_map _).trans h)
  rw [← change.agrees, List.length_map] at hvalues
  exact hvalues

theorem fits_factor (hfits : (LinearFactor.dense blocks rhs).Fits dims) (hheight : rhs.length = height) :
    (change.factor blocks rhs).Fits dims := by
  refine ⟨by rw [Table.keys_mapEntries]; exact hfits.1, List.forall_mem_map.mpr fun entry hentry => ?_⟩
  obtain ⟨hdim, hrows, hrectangular⟩ := hfits.2 entry hentry
  refine ⟨hdim, ?_, change.keepsWidth _ _ hrectangular⟩
  rw [change.height_block (hrows.trans hheight), change.length_values _ hheight]

/-- What a factor with changed rows misses is what the factor misses, with the same change. -/
theorem missed_factor (hfits : (LinearFactor.dense blocks rhs).Fits dims) (hheight : rhs.length = height)
    (x : Assignment) :
    (change.factor blocks rhs).missed x = change.values ((LinearFactor.dense blocks rhs).missed x) := by
  have hheights : ∀ entry ∈ blocks, entry.2.rows.length = height := fun entry hentry =>
    (hfits.2 entry hentry).2.1.trans hheight
  have hstart : (Vec.neg rhs).length = height := by simpa [Vec.neg] using hheight
  simp only [factor, LinearFactor.missed, Table.mapEntries, List.foldl_map, ← change.negative]
  clear hfits
  generalize Vec.neg rhs = r at hstart
  induction blocks generalizing r with
  | nil => rfl
  | cons entry blocks ih =>
    have hentry := hheights entry (by simp)
    have hrows : (entry.2.rows.map (form · (x entry.1))).length = height := by
      simpa using hentry
    have hsum := change.additive r _ hstart hrows
    rw [List.foldl_cons, List.foldl_cons, block, change.agrees, ← hsum]
    exact ih (fun e he => hheights e (List.mem_cons_of_mem _ he)) _ (by simp [Vec.add, hstart, hrows])

/-- All rows are multiplied by a number. -/
noncomputable def scaling (height : ℕ) (c : ℝ) : RowChange height height where
  rows m := m.map fun row => row.map (c * ·)
  values := Vec.scale c
  agrees m v := by
    simp only [List.map_map, Function.comp_def, Vec.scale]
    exact List.map_congr_left fun row _ => form_scale c row v
  additive xs ys _ _ := by
    simp only [Vec.scale, Vec.add, List.map_zipWith, List.zipWith_map, mul_add]
  negative xs := by simp [Vec.scale, Vec.neg]
  length_values xs h := by simpa [Vec.scale] using h
  keepsWidth m width h := List.forall_mem_map.mpr fun row hrow => (List.length_map _).trans (h row hrow)

end RowChange

/-! ### Whitening -/

theorem stretch_map {β γ : Type} (f : β → γ) (n : ℕ) (xs : List β) :
    stretch n (xs.map f) = (stretch n xs).map f := by
  rcases xs with _ | ⟨x, _ | ⟨y, xs⟩⟩
  · rfl
  · simp [stretch]
  · rfl

theorem stretch_zipWith {β γ δ : Type} (f : β → γ → δ) (n : ℕ) {xs : List β} {ys : List γ}
    (h : xs.length = ys.length) :
    stretch n (List.zipWith f xs ys) = List.zipWith f (stretch n xs) (stretch n ys) := by
  rcases xs with _ | ⟨x, _ | ⟨x', xs⟩⟩ <;> rcases ys with _ | ⟨y, _ | ⟨y', ys⟩⟩
  all_goals simp_all [stretch]

theorem Vec.form_map_div (row : Vec ℝ) (sigma : ℝ) (v : ℕ → ℝ) :
    form (row.map (· / sigma)) v = form row v / sigma := by
  have hscale : row.map (· / sigma) = Vec.scale sigma⁻¹ row :=
    List.map_congr_left fun x _ => div_eq_inv_mul x sigma
  rw [hscale, form_scale, div_eq_inv_mul]

namespace Noise

variable (noise : Noise ℝ) {height target : ℕ}

/-- Whitening as a change of rows: each is divided by its standard deviation, where a single row or a
    single standard deviation is repeated. -/
noncomputable def whitening (h : commonLength height noise.sigmas.length = .ok target) :
    RowChange height target where
  rows m := List.zipWith (fun row sigma => row.map (· / sigma)) (stretch target m)
    (stretch target noise.sigmas)
  values xs := List.zipWith (· / ·) (stretch target xs) (stretch target noise.sigmas)
  agrees m v := by
    simp only [stretch_map, List.zipWith_map_left, List.map_zipWith, form_map_div]
  additive xs ys hxs hys := by
    have hsum := stretch_zipWith (fun x y : ℝ => x + y) target (hxs.trans hys.symm)
    refine List.ext_getElem ?_ fun i h1 h2 => ?_
    · simp only [Vec.add, hsum, List.length_zipWith]
      omega
    · simp only [Vec.add, hsum, List.getElem_zipWith, add_div]
  negative xs := by
    simp only [Vec.neg, stretch_map, List.zipWith_map_left, List.map_zipWith, neg_div]
  length_values xs hxs := by
    obtain ⟨hheight, hsigmas⟩ := Tensor.commonLength_eq_ok h
    rw [List.length_zipWith, Tensor.length_stretch hheight hxs, Tensor.length_stretch hsigmas rfl,
      Nat.min_self]
  keepsWidth m width hm row hrow := by
    obtain ⟨i, hi, rfl⟩ := List.getElem_of_mem hrow
    rw [List.getElem_zipWith, List.length_map]
    exact hm _ (Tensor.mem_of_mem_stretch (List.getElem_mem _))

theorem whiten_eq (h : commonLength height noise.sigmas.length = .ok target) {r : Vec ℝ}
    (hr : r.length = height) :
    noise.whiten (.ofVector r) = .ok (.ofVector ((noise.whitening h).values r)) := by
  rw [whiten_ofVector, combine, hr, h]
  rfl

theorem whitenMat_eq (h : commonLength height noise.sigmas.length = .ok target) {m : Mat ℝ}
    (hm : m.height = height) : noise.whitenMat m = .ok ((noise.whitening h).block m) := by
  rw [whitenMat, combine, show m.rows.length = height from hm, h]
  rfl

/-- Where a vector can be whitened, its length goes with the number of standard deviations. -/
theorem commonLength_of_whiten {r : Vec ℝ} {w : Tensor ℝ} (h : noise.whiten (.ofVector r) = .ok w) :
    ∃ target, commonLength r.length noise.sigmas.length = .ok target := by
  rw [whiten_ofVector] at h
  obtain ⟨xs, hxs, -⟩ := map_eq_ok.mp h
  obtain ⟨target, htarget, -⟩ := map_eq_ok.mp hxs
  exact ⟨target, htarget⟩

end Noise

/-! ### Affine measurements -/

namespace Mat

theorem cut_flatten {width : ℕ} {rows : List (Vec ℝ)} (h : ∀ row ∈ rows, row.length = width) :
    Tensor.cut width rows.flatten rows.length = rows := by
  induction rows with
  | nil => rfl
  | cons row rows ih =>
    rw [List.flatten_cons, List.length_cons, Tensor.cut, ← h row (by simp), List.take_left,
      List.drop_left, h row (by simp), ih fun r hr => h r (List.mem_cons_of_mem _ hr)]

theorem ofTensor_toTensor {m : Mat ℝ} (h : m.IsRectangular) : ofTensor m.toTensor = .ok m := by
  simp only [ofTensor, ofTensor?, toTensor, height, entries, cut_flatten h]

theorem form_unit_row (i n : ℕ) (v : ℕ → ℝ) (h : i < n) :
    form ((List.range n).map fun j => if i = j then 1 else 0) v = v i := by
  induction n generalizing i v with
  | zero => omega
  | succ n ih =>
    rw [List.range_succ_eq_map, List.map_cons, List.map_map, form_cons]
    cases i with
    | zero =>
      have hrest : form ((List.range n).map ((fun j => if 0 = j then (1 : ℝ) else 0) ∘ Nat.succ))
          (fun i => v (i + 1)) = 0 := by
        refine form_eq_zero (fun a ha => ?_) _
        obtain ⟨j, -, rfl⟩ := List.mem_map.mp ha
        simp
      rw [hrest]
      simp
    | succ i =>
      have hrow : (List.range n).map ((fun j => if i + 1 = j then (1 : ℝ) else 0) ∘ Nat.succ) =
          (List.range n).map fun j => if i = j then 1 else 0 := by simp [Function.comp_def]
      rw [hrow, ih i (fun i => v (i + 1)) (by omega)]
      simp

theorem form_identity (n : ℕ) (v : ℕ → ℝ) :
    (identity n : Mat ℝ).rows.map (form · v) = (List.range n).map v := by
  simp only [identity, List.map_map]
  refine List.map_congr_left fun i hi => ?_
  exact form_unit_row i n v (List.mem_range.mp hi)

end Mat

theorem Vec.map_entry_range {xs : Vec ℝ} {n : ℕ} (h : xs.length = n) : (List.range n).map (entry xs) = xs := by
  subst h
  refine List.ext_getElem (by simp) fun i h1 h2 => ?_
  simp [entry, h2]

namespace Measurement

/-- **A measurement is affine with given blocks and right-hand side** for sizes of variables: at every
    estimate of these sizes its residual is what they miss, and its derivative is the blocks. -/
structure AffineAs (m : Measurement ℝ) (dims : Table ℕ) (blocks : Table (Mat ℝ)) (rhs : Vec ℝ) :
    Prop where
  keys_eq : blocks.keys = m.keys
  fits : (LinearFactor.dense blocks rhs).Fits dims
  residual_eq : ∀ v : Values ℝ, v.dims = dims →
    m.residual v.entries = .ok (.ofVector ((LinearFactor.dense blocks rhs).missed v.assignment))
  derivative_eq : ∀ v : Values ℝ, v.dims = dims → m.derivative v.entries = .ok blocks

def IsAffine (m : Measurement ℝ) (dims : Table ℕ) : Prop := ∃ blocks rhs, m.AffineAs dims blocks rhs

theorem fits_identity {dims : Table ℕ} {key : Key} {n : ℕ} (h : dims.get? key = some n) {m : Mat ℝ}
    (hm : m = Mat.identity n ∨ m = (Mat.identity n).neg) :
    dims.get? key = some m.width ∧ m.height = n ∧ m.IsRectangular := by
  rcases hm with rfl | rfl
  · exact ⟨h, by simp [Mat.identity, Mat.height], Mat.isRectangular_identity n⟩
  · exact ⟨h, by simp [Mat.neg, Mat.map, Mat.identity, Mat.height],
      (Mat.isRectangular_identity n).map _⟩

/-- A vector that is measured of one variable of its size. -/
theorem affineAs_prior {dims : Table ℕ} {key : Key} {z : Vec ℝ} (h : dims.get? key = some z.length) :
    (prior key (.ofVector z)).AffineAs dims [(key, Mat.identity z.length)] z := by
  refine ⟨rfl, ⟨List.nodup_singleton _, ?_⟩, fun v hv => ?_, fun v _ => rfl⟩
  · exact List.forall_mem_singleton.mpr (fits_identity h (.inl rfl))
  · obtain ⟨xs, hfind, hlength, hassignment⟩ := Values.find_of_get?_dims (hv ▸ h)
    have hmissed : (LinearFactor.dense [(key, Mat.identity z.length)] z).missed v.assignment =
        List.zipWith (· - ·) xs z := by
      simp only [LinearFactor.missed, List.foldl_cons, List.foldl_nil, Mat.form_identity, hassignment,
        map_entry_range hlength]
      refine List.ext_getElem (by simp [Vec.add, Vec.neg, hlength]) fun i h1 h2 => ?_
      simp [Vec.add, Vec.neg]
      ring
    simp only [residual, hfind, bind, Except.bind, Tensor.combine_ofVector,
      combine_of_length_eq _ _ _ hlength, hmissed, Except.map]

/-- A difference that is measured of two variables of its size. -/
theorem affineAs_between {dims : Table ℕ} {first second : Key} {z : Vec ℝ} (hne : first ≠ second)
    (h : dims.get? first = some z.length) (h' : dims.get? second = some z.length) :
    (between first second (.ofVector z)).AffineAs dims
      [(first, (Mat.identity z.length).neg), (second, Mat.identity z.length)] z := by
  refine ⟨rfl, ⟨by simp [Table.keys, hne], ?_⟩, fun v hv => ?_, fun v _ => rfl⟩
  · exact List.forall_mem_cons.mpr ⟨fits_identity h (.inr rfl),
      List.forall_mem_singleton.mpr (fits_identity h' (.inl rfl))⟩
  · obtain ⟨xs, hfind, hlength, hassignment⟩ := Values.find_of_get?_dims (hv ▸ h)
    obtain ⟨ys, hfind', hlength', hassignment'⟩ := Values.find_of_get?_dims (hv ▸ h')
    have hneg : (Mat.identity z.length : Mat ℝ).neg.rows.map (form · (entry xs)) = Vec.neg xs := by
      have hrow : ∀ row : Vec ℝ, form (row.map fun x => -x) (entry xs) = -form row (entry xs) := by
        intro row
        have hscale : row.map (fun x => -x) = Vec.scale (-1) row := by simp [Vec.scale]
        rw [hscale, form_scale]
        ring
      have hvalues := Mat.form_identity z.length (entry xs)
      rw [map_entry_range hlength] at hvalues
      conv_rhs => rw [← hvalues]
      simp only [Mat.neg, Mat.map, List.map_map, Function.comp_def, hrow, Vec.neg]
    have hmissed : (LinearFactor.dense
        [(first, (Mat.identity z.length).neg), (second, Mat.identity z.length)] z).missed v.assignment =
        List.zipWith (· - ·) (List.zipWith (· - ·) ys xs) z := by
      simp only [LinearFactor.missed, List.foldl_cons, List.foldl_nil, Mat.form_identity, hassignment,
        hassignment', hneg, map_entry_range hlength']
      refine List.ext_getElem (by simp [Vec.add, Vec.neg, hlength, hlength']) fun i h1 h2 => ?_
      simp [Vec.add, Vec.neg]
      ring
    have hdifference : (List.zipWith (· - ·) ys xs).length = z.length := by simp [hlength, hlength']
    simp only [residual, hfind, hfind', bind, Except.bind, combine_of_length_eq _ _ _
      (hlength'.trans hlength.symm), Tensor.combine_ofVector, combine_of_length_eq _ _ _ hdifference,
      hmissed, Except.map]

/-- A function that is affine in its arguments, with the arrays of its blocks as its derivative. -/
theorem affineAs_custom {dims : Table ℕ} {blocks : Table (Mat ℝ)} {rhs : Vec ℝ}
    (hfits : (LinearFactor.dense blocks rhs).Fits dims)
    {function : List (Vec ℝ) → Except Error (Vec ℝ)}
    {derivative : List (Vec ℝ) → Except Error (List (Tensor ℝ))}
    (hfunction : ∀ xs : List (Vec ℝ), xs.map List.length = blocks.map (fun entry => entry.2.width) →
      function xs = .ok ((blocks.zip xs).foldl
        (fun r entry => Vec.add r (entry.1.2.mulVec entry.2)) (Vec.neg rhs)))
    (hderivative : ∀ xs : List (Vec ℝ), xs.map List.length = blocks.map (fun entry => entry.2.width) →
      derivative xs = .ok (blocks.map fun entry => entry.2.toTensor)) :
    (custom blocks.keys function (some derivative)).AffineAs dims blocks rhs := by
  have harguments : ∀ v : Values ℝ, v.dims = dims → blocks.keys.mapM (fun key => v.entries.find key) =
      .ok (blocks.map fun entry => (v.entries.get? entry.1).getD []) ∧
      ∀ entry ∈ blocks, ((v.entries.get? entry.1).getD []).length = entry.2.width := by
    intro v hv
    have hfind : ∀ entry ∈ blocks, v.entries.find entry.1 = .ok ((v.entries.get? entry.1).getD []) ∧
        ((v.entries.get? entry.1).getD []).length = entry.2.width := by
      intro entry hentry
      obtain ⟨xs, hfind, hlength, -⟩ := Values.find_of_get?_dims (hv ▸ (hfits.2 entry hentry).1)
      rw [Table.find_eq_ok.mp hfind, Option.getD_some]
      exact ⟨hfind, hlength⟩
    refine ⟨?_, fun entry hentry => (hfind entry hentry).2⟩
    rw [Table.keys, List.mapM_map]
    exact mapM_eq_ok_map fun entry hentry => (hfind entry hentry).1
  have hsizes : ∀ v : Values ℝ, v.dims = dims →
      (blocks.map fun entry => (v.entries.get? entry.1).getD []).map List.length =
        blocks.map fun entry => entry.2.width := by
    intro v hv
    rw [List.map_map]
    exact List.map_congr_left (harguments v hv).2
  refine ⟨rfl, hfits, fun v hv => ?_, fun v hv => ?_⟩
  · have hmissed : (blocks.zip (blocks.map fun entry => (v.entries.get? entry.1).getD [])).foldl
        (fun r entry => Vec.add r (entry.1.2.mulVec entry.2)) (Vec.neg rhs) =
        (LinearFactor.dense blocks rhs).missed v.assignment := by
      rw [← List.map_prod_left_eq_zip, List.foldl_map, LinearFactor.missed]
      refine List.foldl_ext _ _ _ fun r entry hentry => congrArg (Vec.add r) ?_
      obtain ⟨-, -, hrectangular⟩ := hfits.2 entry hentry
      refine List.map_congr_left fun row hrow => dot_eq_form ?_
      rw [hrectangular row hrow, (harguments v hv).2 entry hentry]
    simp only [residual, functionResidual, (harguments v hv).1, bind, Except.bind,
      hfunction _ (hsizes v hv), hmissed, Except.map]
  · have hblocks : (blocks.map fun entry => entry.2.toTensor).mapM Mat.ofTensor =
        .ok (blocks.map Prod.snd) := by
      rw [List.mapM_map]
      exact mapM_eq_ok_map fun entry hentry => Mat.ofTensor_toTensor (hfits.2 entry hentry).2.2
    have hzip : blocks.keys.zip (blocks.map Prod.snd) = blocks := by
      rw [Table.keys, List.zip_map', List.map_id'']
      exact fun entry => rfl
    simp only [Measurement.derivative, (harguments v hv).1, bind, Except.bind, hderivative _ (hsizes v hv), hblocks,
      pure, Except.pure, hzip]

end Measurement

/-! ### Affine factors -/

theorem LinearFactor.make_eq_ok {blocks : Table (Mat ℝ)} {rhs : Vec ℝ}
    (h : ∀ entry ∈ blocks, entry.2.height = rhs.length) :
    make blocks (.ofVector rhs) = .ok (dense blocks rhs) := by
  have hloop : ∀ blocks : Table (Mat ℝ), (∀ entry ∈ blocks, entry.2.height = rhs.length) →
      (forIn blocks PUnit.unit fun entry _ => do
        checkRows entry.1 entry.2.height rhs.length
        return ForInStep.yield PUnit.unit : Except Error PUnit) = .ok PUnit.unit := by
    intro blocks
    induction blocks with
    | nil => exact fun _ => rfl
    | cons entry blocks ih =>
      intro h
      have hcheck : checkRows entry.1 entry.2.height rhs.length = .ok () := if_pos (h entry (by simp))
      rw [List.forIn_cons, hcheck]
      exact ih fun e he => h e (List.mem_cons_of_mem _ he)
  have hchecked := hloop blocks h
  simp only [make, Tensor.ofVector, Tensor.outerLength, List.headD_cons]
  exact bind_eq_ok.mpr ⟨_, hchecked, rfl⟩

namespace Factor

/-- The weight that a residual has in the linear problem. -/
noncomputable def weightOf (noise : Noise ℝ) (r : Vec ℝ) : ℝ := noise.weight (.ofVector r)

/-- **A factor follows a linear factor** for sizes of variables: at every estimate of these sizes its
    whitened residual is what the linear factor misses, and its linearization misses at a step what the
    linear factor misses at the estimate moved by the step, times the root of the weight. -/
structure Follows (f : Factor ℝ) (dims : Table ℕ) (noise : Noise ℝ) (white : LinearFactor ℝ) : Prop where
  noise_eq : f.noise = some noise
  fits : white.Fits dims
  keys_eq : white.keys = f.keys
  whitened_eq : ∀ v : Values ℝ, v.dims = dims →
    f.whitened v.entries = .ok (.ofVector (white.missed v.assignment))
  linearize_eq : ∀ v : Values ℝ, v.dims = dims → ∃ linear, f.linearize v.entries = .ok linear ∧
    linear.Fits dims ∧ linear.keys = f.keys ∧ ∀ y, linear.missed y =
      Vec.scale (Real.sqrt (weightOf noise (white.missed v.assignment)))
        (white.missed (v.assignment + y))

variable {f : Factor ℝ} {dims : Table ℕ} {noise : Noise ℝ} {blocks : Table (Mat ℝ)} {rhs : Vec ℝ}
  {height target : ℕ}

/-- The blocks of an affine factor are whitened all alike. -/
theorem mapM_whitenedBlock (hm : f.measurement.AffineAs dims blocks rhs)
    (h : commonLength rhs.length noise.sigmas.length = .ok target) {v : Values ℝ} (hv : v.dims = dims) :
    f.keys.mapM (f.whitenedBlock noise v.entries target blocks) =
      .ok (blocks.mapEntries (noise.whitening h).block) := by
  have hblock : ∀ entry ∈ blocks, f.whitenedBlock noise v.entries target blocks entry.1 =
      .ok (entry.1, (noise.whitening h).block entry.2) := by
    intro entry hentry
    obtain ⟨hdim, hheight, -⟩ := hm.fits.2 entry hentry
    obtain ⟨xs, hfind, hlength, -⟩ := Values.find_of_get?_dims (hv ▸ hdim)
    have hgiven := Table.find_eq_ok.mpr (Table.get?_of_mem hm.fits.1 hentry)
    have hwide : ((noise.whitening h).block entry.2).width = xs.length := hlength.symm
    simp only [whitenedBlock, hgiven, noise.whitenMat_eq h hheight, hfind, bind, Except.bind, pure,
      Except.pure, (noise.whitening h).height_block hheight, hwide, and_self, if_true]
  have hkeys : f.keys = blocks.map Prod.fst := hm.keys_eq.symm
  rw [hkeys, List.mapM_map]
  exact mapM_eq_ok_map hblock

/-- **An affine factor follows its whitened blocks**, if its residual can be whitened at all. -/
theorem follows (hm : f.measurement.AffineAs dims blocks rhs) (hnoise : f.noise = some noise)
    (h : commonLength rhs.length noise.sigmas.length = .ok target) :
    f.Follows dims noise ((noise.whitening h).factor blocks rhs) := by
  have hmissed := (noise.whitening h).missed_factor hm.fits rfl
  have hfits := (noise.whitening h).fits_factor hm.fits rfl
  have hkeys : ((noise.whitening h).factor blocks rhs).keys = f.keys :=
    (Table.keys_mapEntries _ _).trans hm.keys_eq
  have hneed := needNoise_eq_ok.mpr hnoise
  have hwhitened : ∀ v : Values ℝ, v.dims = dims → f.whitened v.entries =
      .ok (.ofVector (((noise.whitening h).factor blocks rhs).missed v.assignment)) := by
    intro v hv
    simp only [whitened, hneed, residual, hm.residual_eq v hv, bind, Except.bind,
      noise.whiten_eq h (LinearFactor.length_missed hm.fits _), hmissed]
  refine ⟨hnoise, hfits, hkeys, hwhitened, fun v hv => ?_⟩
  generalize hr : ((noise.whitening h).factor blocks rhs).missed v.assignment = r
  have hlength : r.length = target := by
    rw [← hr, hmissed]
    exact (noise.whitening h).length_values _ (LinearFactor.length_missed hm.fits _)
  -- the linear factor without a weight: the whitened blocks, and the residual so far
  have hshifted : ∀ y, (LinearFactor.dense (blocks.mapEntries (noise.whitening h).block)
      (Vec.neg r)).missed y =
        ((noise.whitening h).factor blocks rhs).missed (v.assignment + y) := by
    intro y
    rw [RowChange.factor, LinearFactor.missed_add, ← RowChange.factor, hr]
  have hplain : (LinearFactor.dense (blocks.mapEntries (noise.whitening h).block) (Vec.neg r)).Fits
      dims := by
    refine ⟨hfits.1, fun entry hentry => ?_⟩
    obtain ⟨hdim, hheight, hrectangular⟩ := hfits.2 entry hentry
    exact ⟨hdim, by simpa [Vec.neg, hlength, (noise.whitening h).length_values] using hheight,
      hrectangular⟩
  have hblocks := mapM_whitenedBlock hm h hv
  simp only [linearize, hneed, hwhitened v hv, hr, hm.derivative_eq v hv, bind, Except.bind,
    Tensor.ofVector, Tensor.outerLength, List.headD_cons, hlength, hblocks, Tensor.map]
  have hrhs : (Vec.neg r).length = target := by simpa [Vec.neg] using hlength
  split
  · have hscaled := (RowChange.scaling target (Real.sqrt (weightOf noise r))).fits_factor hplain hrhs
    refine ⟨_, ?_, hscaled, (Table.keys_mapEntries _ _).trans hkeys, fun y => ?_⟩
    · rw [RowChange.factor] at hscaled ⊢
      rw [← LinearFactor.make_eq_ok fun entry hentry => (hscaled.2 entry hentry).2.1]
      simp only [weightOf, Tensor.ofVector, RowChange.scaling, Vec.scale, Vec.neg, List.length_map, hlength]
      rfl
    · rw [RowChange.missed_factor _ hplain hrhs, hshifted]
      rfl
  · next hquadratic =>
    have hweight : weightOf noise r = 1 := by
      cases hloss : noise.loss with
      | none =>
        simp only [weightOf, Noise.weight, hloss, Loss.weight]
        norm_num
      | huber threshold => simp [hloss, Loss.isRobust] at hquadratic
      | cauchy width => simp [hloss, Loss.isRobust] at hquadratic
    refine ⟨_, ?_, hplain, hkeys, fun y => ?_⟩
    · rw [← LinearFactor.make_eq_ok fun entry hentry => (hplain.2 entry hentry).2.1, Tensor.ofVector,
        hrhs, Vec.neg]
    · rw [hshifted, hweight, Real.sqrt_one]
      simp [Vec.scale]

end Factor

end LeastSquares
