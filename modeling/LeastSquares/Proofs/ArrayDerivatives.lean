/-
  LeastSquares/Proofs/ArrayDerivatives.lean
  =========================================
  **The difference quotients of functions of arrays are those of vectors.**

  A function of arrays that takes vectors to vectors is differenced like the function of vectors: the parts
  of a vector are its components, a number divides each component, and a vector is written over a column
  as a vector.
-/
import LeastSquares.Derivative.OfArrays
import LeastSquares.Proofs.RegularArrays
import LeastSquares.Proofs.Reals

namespace LeastSquares

/-! ### Vectors as arrays -/

namespace Tensor

variable {α β γ : Type}

theorem cut_one (xs : List α) : cut 1 xs xs.length = xs.map fun x => [x] := by
  induction xs with
  | nil => rfl
  | cons x xs ih => rw [List.length_cons, cut, List.take_one, List.drop_one, List.tail_cons, ih]; rfl

theorem parts_ofVector (xs : List α) : (ofVector xs).parts = xs.map single := by
  rw [parts, ofVector, List.tail_cons, places_nil, outerLength, List.headD_cons, cut_one, List.map_map]
  rfl

theorem flatMap_single (xs : List α) : (xs.map single).flatMap (·.data) = xs := by
  rw [List.flatMap_map]
  exact List.flatMap_singleton' xs

/-- A single number is repeated to every place. -/
theorem spread_single (x : α) (shape : List ℕ) :
    (single x).spread shape = List.replicate (places shape) x := by
  have hall : ∀ shape : List ℕ,
      spreadAxes (List.replicate shape.length 1) shape [x] = List.replicate (places shape) x := by
    intro shape
    induction shape with
    | nil => rfl
    | cons n shape ih =>
      have hone : places (List.replicate shape.length 1) = 1 :=
        places_eq_one fun m hm => List.eq_of_mem_replicate hm
      have hstretch : stretch n (cut 1 [x] 1) = List.replicate n [x] := rfl
      rw [List.length_cons, List.replicate_succ, spreadAxes, hone, hstretch, places_cons, List.flatMap_replicate, ih]
      simp
  simpa [spread, single] using hall shape

theorem combine_single (f : α → β → γ) (xs : List α) (y : β) :
    combine f (ofVector xs) (single y) = .ok (ofVector (xs.map fun x => f x y)) := by
  have hxs : (ofVector xs).spread [xs.length] = xs := spread_self (isRegular_ofVector xs)
  have hvalue : combine f (ofVector xs) (single y) =
      .ok ⟨[xs.length], List.zipWith f ((ofVector xs).spread [xs.length]) ((single y).spread [xs.length])⟩ :=
    rfl
  have hmap : List.zipWith f xs (List.replicate xs.length y) = xs.map fun x => f x y :=
    List.ext_getElem (by simp) fun i _ _ => by simp
  rw [hvalue, hxs, spread_single, places_cons, places_nil, Nat.mul_one, hmap, ofVector, List.length_map]

theorem spread_ofVector (xs : List α) (n : ℕ) : (ofVector xs).spread [n] = stretch n xs := by
  have hpieces : (ofVector xs).spread [n] = (stretch n (cut 1 xs xs.length)).flatMap id := rfl
  rw [hpieces, cut_one, List.flatMap_id]
  match xs with
  | [] => rfl
  | [x] => exact List.flatten_replicate_singleton
  | x :: y :: xs => exact List.flatMap_singleton' (x :: y :: xs)

theorem commonShape_singleton (m n : ℕ) :
    commonShape [m] [n] = (commonLength m n).map fun length => [length] := by
  simp only [commonShape, commonAxes, List.reverse_singleton]
  cases commonLength m n <;> rfl

theorem stretch_of_length_ne_one {xs : List α} (h : xs.length ≠ 1) (n : ℕ) : stretch n xs = xs := by
  match xs with
  | [] => rfl
  | [_] => exact absurd rfl h
  | _ :: _ :: _ => rfl

theorem commonLength_of_stretches {m n : ℕ} (h : Stretches m n) : commonLength m n = .ok n := by
  rcases h with rfl | rfl
  · exact if_pos rfl
  · simp only [commonLength]
    split_ifs with heq
    · rw [heq]
    · rfl

/-- **Elementwise operations on regular arrays** go through both of them, repeated to a common shape. -/
theorem IsRegular.combine_eq {a : Tensor α} {b : Tensor β} (ha : a.IsRegular) (hb : b.IsRegular) (f : α → β → γ) :
    Tensor.combine f a b = (commonShape a.shape b.shape).map fun shape =>
      ⟨shape, List.zipWith f (a.spread shape) (b.spread shape)⟩ := by
  unfold Tensor.combine
  split
  · next m n hm hn =>
    obtain ⟨shape, xs⟩ := a
    obtain ⟨shape', ys⟩ := b
    obtain rfl : shape = [m] := hm
    obtain rfl : shape' = [n] := hn
    obtain rfl : xs.length = m := by simpa [IsRegular] using ha
    obtain rfl : ys.length = n := by simpa [IsRegular] using hb
    rw [commonShape_singleton, LeastSquares.combine]
    cases hlength : commonLength xs.length ys.length with
    | error e => rfl
    | ok length =>
      obtain ⟨hxs, hys⟩ := commonLength_eq_ok hlength
      have hdata : (List.zipWith f (stretch length xs) (stretch length ys)).length = length := by
        rw [List.length_zipWith, length_stretch hxs rfl, length_stretch hys rfl, Nat.min_self]
      have hspread := spread_ofVector xs length
      have hspread' := spread_ofVector ys length
      rw [ofVector] at hspread hspread'
      simp only [Except.map, ofVector, hdata, hspread, hspread']
  · cases commonShape a.shape b.shape <;> rfl

theorem IsRegular.combine_single {t : Tensor β} (ht : t.IsRegular) (f : α → β → γ) (x : α) :
    Tensor.combine f (single x) t = .ok (t.map (f x)) := by
  have hsingle : (single x).IsRegular := rfl
  have hshape : commonShape (single x).shape t.shape = .ok t.shape := by
    simp [commonShape, single, commonAxes, Except.map]
  have hdata : List.zipWith f (List.replicate (places t.shape) x) t.data = t.data.map (f x) :=
    List.ext_getElem (by simp [ht.symm]) fun i h1 h2 => by simp
  rw [hsingle.combine_eq ht, hshape, Except.map, spread_single, spread_self ht, hdata, Tensor.map]

/-- A vector is written over places in a row as it is put into a column. -/
theorem written_ofVector (xs : List α) (height : ℕ) :
    (ofVector xs).written [height] = Derivative.column height xs := by
  have hspread := spread_ofVector xs height
  rw [ofVector] at hspread ⊢
  by_cases h : Stretches xs.length height
  · have hcommon : commonShape [xs.length] [height] = .ok [height] := by
      rw [commonShape_singleton, commonLength_of_stretches h]
      rfl
    simp [written, Derivative.column, hcommon, hspread, length_stretch h rfl]
  · obtain ⟨hne, hone⟩ := not_or.mp h
    have hcommon : commonShape [xs.length] [height] =
        if height = 1 then .ok [xs.length] else .error .shapeMismatch := by
      rw [commonShape_singleton, commonLength, if_neg hne, if_neg hone]
      split_ifs <;> rfl
    rw [Derivative.column, stretch_of_length_ne_one hone, if_neg hne]
    by_cases hheight : height = 1
    · subst hheight
      simp [written, hcommon, hone]
    · rw [if_neg hheight] at hcommon
      simp [written, hcommon]

end Tensor

namespace Derivative

/-! ### Steps of a vector -/

theorem moveAt_ofVector {move : ℝ → ℝ → ℝ} {xs : Vec ℝ} {place : ℕ} (hplace : place < xs.length) (h : ℝ) :
    moveAt move (.ofVector xs) place (.real h) = .ok (.ofVector (xs.modify place fun x => move x h)) := by
  have hpart : itemAt (Tensor.ofVector xs).parts place = .ok (.single xs[place]) := by
    refine itemAt_natCast ?_
    rw [Tensor.parts_ofVector, List.getElem?_map, List.getElem?_eq_getElem hplace]
    rfl
  have hset : (Tensor.ofVector xs).parts.set place (.single (move xs[place] h)) =
      (xs.modify place fun x => move x h).map Tensor.single := by
    rw [Tensor.parts_ofVector, ← List.map_set, List.modify_eq_set_getElem?,
      List.getElem?_eq_getElem hplace]
    rfl
  have hvalue : moveAt move (.ofVector xs) place (.real h) = .ok ⟨[xs.length],
      ((Tensor.ofVector xs).parts.set place (.single (move xs[place] h))).flatMap (·.data)⟩ := by
    simp only [moveAt, Given.withNumbers, hpart]
    rfl
  rw [hvalue, hset, Tensor.flatMap_single, Tensor.ofVector, List.length_modify]

theorem dividedBy_ofVector (xs : Vec ℝ) (h : ℝ) :
    dividedBy (.ofVector xs) (.real h) = .ok (.ofVector (xs.map (· / h))) :=
  Tensor.combine_single _ xs h

/-! ### Quotients of a function of vectors -/

/-- A function of arrays takes the vectors of a length where a function of vectors takes them. -/
def ActsAs (f : ArrayFunction ℝ) (g : VecFunction ℝ) (n : ℕ) : Prop :=
  ∀ u : Vec ℝ, u.length = n → f (.ofVector u) = (g u).map .ofVector

section

variable {f : ArrayFunction ℝ} {g : VecFunction ℝ} {x : Vec ℝ}

theorem valueAt_ofVector {n : ℕ} (hf : ActsAs f g n) {u : Vec ℝ} (hu : u.length = n) :
    valueAt f (.ofVector u) = (g u).map .ofVector := by
  rw [valueAt, hf u hu]
  cases g u <;> rfl

theorem valueAt_addAt (hf : ActsAs f g x.length) (place : ℕ) (h : ℝ) :
    valueAt f (.ofVector (Vec.addAt x place h)) = (g (Vec.addAt x place h)).map .ofVector :=
  valueAt_ofVector hf (List.length_modify _ _ _)

theorem quotientOf_ofVector (hf : ActsAs f g x.length) (side : Difference) (start : Vec ℝ) (h : ℝ)
    {place : ℕ} (hplace : place < x.length) :
    quotientOf side f (.ofVector start) (.ofVector x) (.real h) place =
      (side.quotient g start x h place).map .ofVector := by
  have hforth : moveAt (· + ·) (.ofVector x) place (.real h) = .ok (.ofVector (Vec.addAt x place h)) :=
    moveAt_ofVector hplace h
  have hback : moveAt (· - ·) (.ofVector x) place (.real h) = .ok (.ofVector (Vec.addAt x place (-h))) := by
    simp only [moveAt_ofVector hplace h, sub_eq_add_neg, Vec.addAt]
  cases side with
  | forward =>
    simp only [quotientOf, Difference.quotient, hforth, valueAt_addAt hf, bind, Except.bind]
    cases g (Vec.addAt x place h) with
    | error e => rfl
    | ok ahead =>
      simp only [Except.map, Tensor.combine_ofVector]
      cases combine (· - ·) ahead start with
      | error e => rfl
      | ok change => exact dividedBy_ofVector change h
  | central =>
    simp only [quotientOf, Difference.quotient, hforth, hback, valueAt_addAt hf, bind,
      Except.bind]
    cases g (Vec.addAt x place h) with
    | error e => rfl
    | ok ahead =>
      cases g (Vec.addAt x place (-h)) with
      | error e => rfl
      | ok behind =>
        simp only [Except.map, Tensor.combine_ofVector]
        cases combine (· - ·) ahead behind with
        | error e => rfl
        | ok change => exact dividedBy_ofVector change (2.0 * h)

theorem written_quotientOf (hf : ActsAs f g x.length) (side : Difference) (start : Vec ℝ) (h : ℝ)
    {place : ℕ} (hplace : place < x.length) :
    (quotientOf side f (.ofVector start) (.ofVector x) (.real h) place >>= (·.written [start.length])) =
      side.quotient g start x h place >>= column start.length := by
  rw [quotientOf_ofVector hf side start h hplace]
  cases side.quotient g start x h place with
  | error e => rfl
  | ok entries => exact Tensor.written_ofVector entries start.length

/-- **A function of arrays is differenced on vectors like the function of vectors.** -/
theorem ofFunction_ofVector {name : String} {side : Difference} (hname : Difference.named name = .ok side)
    (hf : ActsAs f g x.length) (h : ℝ) :
    ofFunction name f (.ofVector x) (.real h) = jacobian side g x h := by
  have hx : (Tensor.ofVector x).atLeastVector = .ofVector x := rfl
  rw [ofFunction, jacobian, hx, valueAt_ofVector hf rfl]
  cases g x with
  | error e => rfl
  | ok start =>
    have hcolumns := mapM_congr fun place hplace =>
      written_quotientOf hf side start h (List.mem_range.mp hplace)
    simp only [hname, Except.map]
    exact congrArg (fun columns => columns >>= fun columns =>
      Except.ok (ε := Error) (Mat.mk x.length ((List.range start.length).map fun i => columns.map (·.getD i 0)))) hcolumns

end

end Derivative

end LeastSquares
