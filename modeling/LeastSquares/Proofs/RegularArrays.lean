/-
  LeastSquares/Proofs/RegularArrays.lean
  ======================================
  **Arrays that hold a number at every place of their shape.**

  Elementwise arithmetic keeps arrays regular, whichever axes it repeats.  An array that can be written
  over the rows of a vector, as many as its outermost axis has, is a vector under another shape.
-/
import LeastSquares.Mat
import LeastSquares.Proofs.Stacking

namespace LeastSquares

namespace Tensor

variable {α β γ : Type}

/-- An array holds a number at every place. -/
def IsRegular (t : Tensor α) : Prop := t.data.length = places t.shape

/-! ### Places -/

theorem foldl_mul_eq (n : ℕ) (ns : List ℕ) : ns.foldl (· * ·) n = n * places ns := by
  induction ns generalizing n with
  | nil => simp [places]
  | cons m ns ih => rw [places, List.foldl_cons, List.foldl_cons, ih, ih, one_mul, mul_assoc]

@[simp] theorem places_nil : places [] = 1 := rfl

@[simp] theorem places_cons (n : ℕ) (ns : List ℕ) : places (n :: ns) = n * places ns := by
  rw [places, List.foldl_cons, one_mul, foldl_mul_eq]

theorem places_append (ms ns : List ℕ) : places (ms ++ ns) = places ms * places ns := by
  induction ms with
  | nil => simp
  | cons m ms ih => rw [List.cons_append, places_cons, ih, places_cons, mul_assoc]

theorem places_eq_one {ns : List ℕ} (h : ∀ n ∈ ns, n = 1) : places ns = 1 := by
  induction ns with
  | nil => rfl
  | cons n ns ih =>
    rw [places_cons, h n (by simp), ih fun m hm => h m (List.mem_cons_of_mem _ hm)]

theorem isRegular_ofVector (xs : List α) : (ofVector xs).IsRegular := by
  simp [IsRegular, ofVector]

theorem IsRegular.map {t : Tensor α} (h : t.IsRegular) (f : α → β) : (t.map f).IsRegular := by
  rw [IsRegular, Tensor.map, List.length_map]
  exact h

/-- A vector is as long as its axis. -/
theorem IsRegular.length_data {t : Tensor α} (h : t.IsRegular) {n : ℕ} (hshape : t.shape = [n]) :
    t.data.length = t.outerLength := by
  rw [h, outerLength, hshape, places_cons, places_nil, Nat.mul_one]
  rfl

/-! ### Pieces -/

@[simp] theorem length_cut (width : ℕ) (data : List α) (count : ℕ) :
    (cut width data count).length = count := by
  induction count generalizing data with
  | zero => rfl
  | succ count ih => rw [cut, List.length_cons, ih]

theorem length_of_mem_cut {width count : ℕ} {data : List α} (h : data.length = count * width) :
    ∀ piece ∈ cut width data count, piece.length = width := by
  induction count generalizing data with
  | zero => simp [cut]
  | succ count ih =>
    rw [Nat.succ_mul] at h
    intro piece hpiece
    rcases List.mem_cons.mp hpiece with rfl | hpiece
    · rw [List.length_take]
      omega
    · exact ih (by rw [List.length_drop]; omega) piece hpiece

theorem flatten_cut {width count : ℕ} {data : List α} (h : data.length = count * width) :
    (cut width data count).flatten = data := by
  induction count generalizing data with
  | zero =>
    rw [Nat.zero_mul] at h
    rw [List.eq_nil_of_length_eq_zero h]
    rfl
  | succ count ih =>
    rw [Nat.succ_mul] at h
    rw [cut, List.flatten_cons, ih (by rw [List.length_drop]; omega), List.take_append_drop]

/-! ### Repeated axes -/

/-- An axis can be repeated to a length. -/
def Stretches (m n : ℕ) : Prop := m = n ∨ m = 1

theorem length_stretch {m n : ℕ} (h : Stretches m n) {xs : List β} (hxs : xs.length = m) :
    (stretch n xs).length = n := by
  rcases xs with _ | ⟨x, _ | ⟨y, xs⟩⟩
  · rcases h with rfl | rfl
    · exact hxs
    · cases hxs
  · exact List.length_replicate
  · rcases h with rfl | rfl
    · exact hxs
    · simp at hxs

theorem mem_of_mem_stretch {n : ℕ} {xs : List β} {x : β} (h : x ∈ stretch n xs) : x ∈ xs := by
  rcases xs with _ | ⟨y, _ | ⟨z, xs⟩⟩
  · exact h
  · rw [List.eq_of_mem_replicate h]
    exact List.mem_singleton_self y
  · exact h

theorem length_spreadAxes {ms ns : List ℕ} (h : List.Forall₂ Stretches ms ns) {data : List α}
    (hdata : data.length = places ms) : (spreadAxes ms ns data).length = places ns := by
  induction h generalizing data with
  | nil => exact hdata
  | @cons m n ms ns hhead _ ih =>
    rw [places_cons] at hdata
    have hpieces : ∀ piece ∈ stretch n (cut (places ms) data m),
        (spreadAxes ms ns piece).length = places ns := fun piece hpiece =>
      ih (length_of_mem_cut hdata piece (mem_of_mem_stretch hpiece))
    rw [spreadAxes, List.length_flatMap, List.map_congr_left hpieces, List.map_const',
      List.sum_replicate, length_stretch hhead (length_cut _ _ _), places_cons, smul_eq_mul]

theorem spreadAxes_self {ns : List ℕ} {data : List α} (hdata : data.length = places ns) :
    spreadAxes ns ns data = data := by
  induction ns generalizing data with
  | nil => rfl
  | cons n ns ih =>
    rw [places_cons] at hdata
    have hpieces : ∀ piece ∈ cut (places ns) data n, spreadAxes ns ns piece = id piece :=
      fun piece hpiece => ih (length_of_mem_cut hdata piece hpiece)
    rw [spreadAxes, Elimination.stretch_of_length_eq (length_cut _ _ _),
      List.flatMap_congr hpieces, List.flatMap_id, flatten_cut hdata]

theorem commonLength_eq_ok {m n length : ℕ} (h : commonLength m n = .ok length) :
    Stretches m length ∧ Stretches n length := by
  rw [commonLength] at h
  split_ifs at h with heq hm hn
  · cases h
    exact ⟨.inl rfl, .inl heq.symm⟩
  · cases h
    exact ⟨.inr hm, .inl rfl⟩
  · cases h
    exact ⟨.inl rfl, .inr hn⟩

theorem forall₂_stretches_self (ns : List ℕ) : List.Forall₂ Stretches ns ns :=
  List.forall₂_same.mpr fun _ _ => .inl rfl

/-- What one of two shapes is repeated to, both with the last axis first. -/
def Widens (ms axes : List ℕ) : Prop :=
  ms.length ≤ axes.length ∧
    List.Forall₂ Stretches (ms ++ List.replicate (axes.length - ms.length) 1) axes

theorem widens_nil (axes : List ℕ) : Widens [] axes := by
  refine ⟨Nat.zero_le _, ?_⟩
  rw [List.nil_append, List.length_nil, Nat.sub_zero]
  induction axes with
  | nil => exact .nil
  | cons n axes ih => exact .cons (.inr rfl) ih

theorem widens_self (axes : List ℕ) : Widens axes axes := by
  refine ⟨le_rfl, ?_⟩
  rw [Nat.sub_self, List.replicate_zero, List.append_nil]
  exact forall₂_stretches_self axes

theorem Widens.cons {m n : ℕ} {ms axes : List ℕ} (h : Stretches m n) (hrest : Widens ms axes) :
    Widens (m :: ms) (n :: axes) := by
  obtain ⟨hlength, hall⟩ := hrest
  refine ⟨Nat.succ_le_succ hlength, ?_⟩
  rw [List.length_cons, List.length_cons, Nat.succ_sub_succ, List.cons_append]
  exact .cons h hall

theorem commonAxes_eq_ok {ms ns axes : List ℕ} (h : commonAxes ms ns = .ok axes) :
    Widens ms axes ∧ Widens ns axes := by
  induction ms generalizing ns axes with
  | nil =>
    cases h
    exact ⟨widens_nil _, widens_self _⟩
  | cons m ms ih =>
    cases ns with
    | nil =>
      cases h
      exact ⟨widens_self _, widens_nil _⟩
    | cons n ns =>
      obtain ⟨length, hlength, h⟩ := bind_eq_ok.mp h
      obtain ⟨rest, hrest, h⟩ := bind_eq_ok.mp h
      cases h
      obtain ⟨hm, hn⟩ := commonLength_eq_ok hlength
      obtain ⟨hms, hns⟩ := ih hrest
      exact ⟨hms.cons hm, hns.cons hn⟩

/-- A shape is repeated to another, which has the axes in front that it lacks. -/
def SpreadsTo (shape target : List ℕ) : Prop :=
  List.Forall₂ Stretches (List.replicate (target.length - shape.length) 1 ++ shape) target

theorem Widens.spreadsTo {shape axes : List ℕ} (h : Widens shape.reverse axes) :
    SpreadsTo shape axes.reverse := by
  have hreverse := List.rel_reverse h.2
  rw [List.reverse_append, List.reverse_reverse, List.reverse_replicate, List.length_reverse]
    at hreverse
  rwa [SpreadsTo, List.length_reverse]

theorem commonShape_eq_ok {s t shape : List ℕ} (h : commonShape s t = .ok shape) :
    SpreadsTo s shape ∧ SpreadsTo t shape := by
  obtain ⟨axes, haxes, rfl⟩ := map_eq_ok.mp h
  obtain ⟨hs, ht⟩ := commonAxes_eq_ok haxes
  exact ⟨hs.spreadsTo, ht.spreadsTo⟩

theorem length_spread {t : Tensor α} (ht : t.IsRegular) {shape : List ℕ} (h : SpreadsTo t.shape shape) :
    (t.spread shape).length = places shape := by
  refine length_spreadAxes h ?_
  rw [places_append, places_eq_one fun n hn => List.eq_of_mem_replicate hn, Nat.one_mul]
  exact ht

/-- **Elementwise arithmetic on regular arrays gives a regular array.** -/
theorem IsRegular.combine {f : α → β → γ} {a : Tensor α} {b : Tensor β} {c : Tensor γ}
    (ha : a.IsRegular) (hb : b.IsRegular) (h : combine f a b = .ok c) : c.IsRegular := by
  unfold Tensor.combine at h
  split at h
  · obtain ⟨xs, -, rfl⟩ := map_eq_ok.mp h
    exact isRegular_ofVector xs
  · obtain ⟨shape, hshape, h⟩ := bind_eq_ok.mp h
    cases h
    obtain ⟨hs, ht⟩ := commonShape_eq_ok hshape
    rw [IsRegular, List.length_zipWith, length_spread ha hs, length_spread hb ht, Nat.min_self]

/-! ### Writing over places -/

theorem commonAxes_self (ns : List ℕ) : commonAxes ns ns = .ok ns := by
  induction ns with
  | nil => rfl
  | cons n ns ih => simp [commonAxes, commonLength, ih, bind, Except.bind, pure, Except.pure]

theorem commonShape_self (shape : List ℕ) : commonShape shape shape = .ok shape := by
  rw [commonShape, commonAxes_self, Except.map, List.reverse_reverse]

theorem spread_self {t : Tensor α} (ht : t.IsRegular) : t.spread t.shape = t.data := by
  rw [spread, Nat.sub_self, List.replicate_zero, List.nil_append, spreadAxes_self ht]

theorem written_self {t : Tensor α} (ht : t.IsRegular) : t.written t.shape = .ok t.data := by
  simp [written, commonShape_self, spread_self ht]

/-- **What is written over places takes all of them**, however axes were dropped and repeated. -/
theorem length_of_written {t : Tensor α} (ht : t.IsRegular) {shape : List ℕ} {data : List α}
    (h : t.written shape = .ok data) : data.length = places shape := by
  unfold written at h
  simp only at h
  split at h
  · cases h
  next hones =>
  split at h
  · next common hcommon =>
    split_ifs at h with hsame
    cases h
    subst hsame
    refine length_spread ?_ (commonShape_eq_ok hcommon).1
    -- the axes that are dropped have the length one
    have hdropped : places (t.shape.take (t.shape.length - common.length)) = 1 :=
      places_eq_one (by simpa using hones)
    rw [IsRegular, ← List.take_append_drop (t.shape.length - common.length) t.shape, places_append,
      hdropped, Nat.one_mul] at ht
    exact ht
  · cases h

end Tensor

/-! ### Matrices -/

namespace Mat

theorem IsRectangular.toTensor {α : Type} {m : Mat α} (h : m.IsRectangular) : m.toTensor.IsRegular := by
  have hlengths : m.rows.map List.length = List.replicate m.height m.width :=
    List.eq_replicate_iff.mpr ⟨List.length_map _, List.forall_mem_map.mpr h⟩
  simp [Tensor.IsRegular, Mat.toTensor, entries, List.length_flatten, hlengths]

theorem isRectangular_of_ofTensor {α : Type} {t : Tensor α} (ht : t.IsRegular) {m : Mat α}
    (h : ofTensor t = .ok m) : m.IsRectangular := by
  obtain ⟨shape, data⟩ := t
  have hplaces : data.length = Tensor.places shape := ht
  unfold ofTensor at h
  split at h
  · next found hfound =>
    cases h
    unfold ofTensor? at hfound
    split at hfound
    · next hshape =>
      cases hfound
      obtain rfl : shape = [] := hshape
      exact List.forall_mem_singleton.mpr hplaces
    · next n hshape =>
      cases hfound
      obtain rfl : shape = [n] := hshape
      refine List.forall_mem_singleton.mpr ?_
      rw [hplaces, Tensor.places_cons, Tensor.places_nil, Nat.mul_one]
    · next rows n hshape =>
      cases hfound
      obtain rfl : shape = [rows, n] := hshape
      refine Tensor.length_of_mem_cut ?_
      rw [hplaces, Tensor.places_cons, Tensor.places_cons, Tensor.places_nil, Nat.mul_one]
    · cases hfound
  · cases h

end Mat

end LeastSquares
