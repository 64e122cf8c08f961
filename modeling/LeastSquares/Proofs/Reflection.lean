/-
  LeastSquares/Proofs/Reflection.lean
  ===================================
  **Reflections keep sums of squares, and so does the reduction to trapezoidal form.**

  The value that a reflection gives to a linear form depends only on the values of the forms it
  is applied to, so a whole reduction can be followed at one sequence at a time.  The reduced
  rows have the same sum of squared values as the rows they come from, at every sequence: this is
  the equation `R^T R = A^T A` of a QR factorization, read as an equation of quadratic forms.
-/
import LeastSquares.Linear.Triangular
import LeastSquares.Proofs.LinearForm

namespace LeastSquares

namespace Vec

@[simp] theorem dot_nil (ys : Vec ℝ) : dot [] ys = 0 := rfl

@[simp] theorem dot_cons (x y : ℝ) (xs ys : Vec ℝ) :
    dot (x :: xs) (y :: ys) = x * y + dot xs ys := by
  simp [dot, sum_real]

theorem dot_replicate_zero (n : ℕ) (ys : Vec ℝ) : dot (List.replicate n 0) ys = 0 := by
  induction n generalizing ys with
  | zero => rfl
  | succ n ih =>
    cases ys with
    | nil => simp [dot, sum_real]
    | cons y ys => rw [List.replicate_succ, dot_cons, ih, zero_mul, zero_add]

theorem dot_append_left (xs xs' ys : Vec ℝ) :
    dot (xs ++ xs') ys = dot xs (ys.take xs.length) + dot xs' (ys.drop xs.length) := by
  induction xs generalizing ys with
  | nil => simp
  | cons x xs ih =>
    cases ys with
    | nil => simp [dot, sum_real]
    | cons y ys => simp only [List.cons_append, dot_cons, ih, List.length_cons, List.take_succ_cons,
        List.drop_succ_cons, add_assoc]

theorem form_add_take {xs ys : Vec ℝ} (h : xs.length ≤ ys.length) (v : ℕ → ℝ) :
    form (Vec.add xs ys) v = form xs v + form (ys.take xs.length) v := by
  have hcut : Vec.add xs ys = Vec.add xs (ys.take xs.length) := by
    rw [Vec.add, Vec.add, List.zipWith_eq_zipWith_take_min, Nat.min_eq_left h, List.take_length]
  rw [hcut, form_add (by simp [h])]

end Vec

namespace Triangular

open Vec

/-! ### Zeros at the end -/

theorem eq_withoutTrailingZeros_append (xs : Vec ℝ) :
    ∃ n, xs = withoutTrailingZeros xs ++ List.replicate n 0 := by
  have hzero : ∀ x ∈ (xs.reverse.takeWhile Scalar.isZero).reverse, x = (0 : ℝ) := by
    intro x hx
    have hall := List.all_takeWhile (l := xs.reverse) (p := Scalar.isZero)
    have := List.all_eq_true.mp hall x (List.mem_reverse.mp hx)
    simpa [Scalar.isZero_real] using this
  refine ⟨(xs.reverse.takeWhile Scalar.isZero).reverse.length, ?_⟩
  rw [withoutTrailingZeros, ← List.eq_replicate_of_mem hzero, ← List.reverse_append,
    List.takeWhile_append_dropWhile, List.reverse_reverse]

theorem form_take_of_withoutTrailingZeros {row : Vec ℝ} {n : ℕ}
    (h : (withoutTrailingZeros row).length ≤ n) (v : ℕ → ℝ) : form (row.take n) v = form row v := by
  by_cases hn : n ≤ row.length
  · rw [form_take_drop row n hn]
    have hzero : ∀ a ∈ row.drop n, a = 0 := by
      obtain ⟨k, hk⟩ := eq_withoutTrailingZeros_append row
      intro a ha
      rw [hk, List.drop_append, List.drop_eq_nil_of_le h, List.nil_append, List.drop_replicate] at ha
      exact List.eq_of_mem_replicate ha
    rw [form_eq_zero hzero, add_zero]
  · rw [List.take_of_length_le (by omega)]

theorem form_subFront {xs ys : Vec ℝ} (h : ys.length ≤ xs.length) (v : ℕ → ℝ) :
    form (subFront xs ys) v = form xs v - form ys v := by
  have hsub : Vec.sub xs ys = Vec.sub (xs.take ys.length) ys := by
    rw [Vec.sub, Vec.sub, List.zipWith_eq_zipWith_take_min, Nat.min_eq_right h, List.take_length]
  have hlength : (Vec.sub (xs.take ys.length) ys).length = ys.length := by simp [Vec.sub, h]
  rw [subFront, hsub, form_append, hlength, form_sub (by simp [h]), form_take_drop xs ys.length h]
  ring

theorem length_withoutTrailingZeros_le (xs : Vec ℝ) :
    (withoutTrailingZeros xs).length ≤ xs.length := by
  obtain ⟨n, hn⟩ := eq_withoutTrailingZeros_append xs
  have := congrArg List.length hn
  rw [List.length_append] at this
  omega

theorem length_subFront {xs ys : Vec ℝ} (h : ys.length ≤ xs.length) :
    (subFront xs ys).length = xs.length := by
  simp only [subFront, Vec.sub, List.length_append, List.length_zipWith, List.length_drop]
  omega

/-! ### One reflection -/

/-- What a reflection adds up is the value of the first form and the values of the others,
    weighed by the direction. -/
theorem form_along (direction : Vec ℝ) {reached : List (Vec ℝ)} {acc : Vec ℝ}
    (hreached : ∀ row ∈ reached, acc.length ≤ row.length ∧
      (withoutTrailingZeros row).length ≤ acc.length) (v : ℕ → ℝ) :
    let along := (direction.zip reached).foldl
      (fun acc entry => Vec.add acc (Vec.scale entry.1 entry.2)) acc
    form along v = form acc v + dot direction (reached.map (form · v)) ∧
      along.length = acc.length := by
  induction reached generalizing direction acc with
  | nil => cases direction <;> simp [dot, sum_real]
  | cons row reached ih =>
    cases direction with
    | nil => simp
    | cons d direction =>
      obtain ⟨hlong, hreach⟩ := hreached row (by simp)
      have hlength : (Vec.add acc (Vec.scale d row)).length = acc.length := by
        simp [Vec.add, Vec.scale, hlong]
      have hreached' : ∀ r ∈ reached, (Vec.add acc (Vec.scale d row)).length ≤ r.length ∧
          (withoutTrailingZeros r).length ≤ (Vec.add acc (Vec.scale d row)).length :=
        fun r hr => hlength ▸ hreached r (List.mem_cons_of_mem _ hr)
      obtain ⟨hform, hsame⟩ := ih direction hreached'
      have htake : (Vec.scale d row).take acc.length = Vec.scale d (row.take acc.length) := by
        simp [Vec.scale]
      have hstep : form (Vec.add acc (Vec.scale d row)) v = form acc v + d * form row v := by
        rw [form_add_take (by simpa [Vec.scale] using hlong), htake, form_scale,
          form_take_of_withoutTrailingZeros hreach]
      simp only [List.zip_cons_cons, List.foldl_cons, List.map_cons, dot_cons]
      refine ⟨?_, hsame.trans hlength⟩
      rw [hform, hstep, add_assoc]

theorem map_form_subFront {direction : Vec ℝ} {reached : List (Vec ℝ)} {change : Vec ℝ}
    (hlong : ∀ row ∈ reached, change.length ≤ row.length) (v : ℕ → ℝ) :
    (List.zipWith (fun c row => subFront row (Vec.scale c change)) direction reached).map (form · v) =
      List.zipWith (fun d y => y - d * form change v) direction (reached.map (form · v)) := by
  induction reached generalizing direction with
  | nil => cases direction <;> rfl
  | cons row reached ih =>
    cases direction with
    | nil => rfl
    | cons d direction =>
      simp only [List.zipWith_cons_cons, List.map_cons]
      rw [ih fun r hr => hlong r (List.mem_cons_of_mem _ hr),
        form_subFront (by simpa [Vec.scale] using hlong row (by simp)), form_scale]

theorem zipWith_sub_zero_mul (change : ℝ) (ys : Vec ℝ) :
    List.zipWith (fun d y => y - d * change) (List.replicate ys.length 0) ys = ys := by
  induction ys with
  | nil => rfl
  | cons y ys ih =>
    rw [List.length_cons, List.replicate_succ, List.zipWith_cons_cons, ih, zero_mul, sub_zero]

theorem le_foldl_max (lengths : List ℕ) (start n : ℕ) (h : n ∈ lengths ∨ n ≤ start) :
    n ≤ lengths.foldl max start := by
  induction lengths generalizing start with
  | nil => simpa using h
  | cons m lengths ih =>
    rw [List.foldl_cons]
    apply ih
    rcases h with h | h
    · rcases List.mem_cons.mp h with rfl | h
      · exact Or.inr (le_max_right _ _)
      · exact Or.inl h
    · exact Or.inr (h.trans (le_max_left _ _))

/-- The values that a reflection with a factor and a direction gives to forms, by the values that
    they had. -/
noncomputable def reflectValues (factor : ℝ) (direction : Vec ℝ) (first : ℝ) (others : Vec ℝ) :
    ℝ × Vec ℝ :=
  let change := factor * (first + dot direction others)
  (first - change, List.zipWith (fun d y => y - d * change) direction others)

/-- A reflection that is not the identity subtracts multiples of one vector from the rows that its
    direction reaches; behind the direction there are zeros only. -/
theorem apply_eq {r : Reflection ℝ} {first : Vec ℝ} {others : List (Vec ℝ)} {width : ℕ}
    (hfirst : first.length = width) (hothers : ∀ row ∈ others, row.length = width)
    (hfactor : Scalar.isZero r.factor = false) :
    ∃ (direction : Vec ℝ) (n : ℕ) (change : Vec ℝ),
      r.direction = direction ++ List.replicate n 0 ∧ change.length ≤ width ∧
      (∀ v, form change v =
        r.factor * (form first v + dot r.direction (others.map (form · v)))) ∧
      r.apply first others = (subFront first change,
        List.zipWith (fun c row => subFront row (Vec.scale c change)) direction
          (others.take direction.length) ++ others.drop direction.length) := by
  obtain ⟨n, hn⟩ := eq_withoutTrailingZeros_append r.direction
  obtain ⟨direction, hdirection⟩ : ∃ ds, ds = withoutTrailingZeros r.direction := ⟨_, rfl⟩
  obtain ⟨reached, hreached⟩ : ∃ rows, rows = others.take direction.length := ⟨_, rfl⟩
  obtain ⟨reach, hreach⟩ : ∃ m, m = ((first :: reached).map fun row =>
      (withoutTrailingZeros row).length).foldl max 0 := ⟨_, rfl⟩
  rw [← hdirection] at hn
  have hends : ∀ row ∈ first :: reached, (withoutTrailingZeros row).length ≤ reach := by
    intro row hrow
    rw [hreach]
    exact le_foldl_max _ _ _ (Or.inl (List.mem_map.mpr ⟨row, hrow, rfl⟩))
  have hmin : (first.take reach).length = min reach width := by rw [List.length_take, hfirst]
  have hwithin : ∀ row ∈ reached, (first.take reach).length ≤ row.length ∧
      (withoutTrailingZeros row).length ≤ (first.take reach).length := by
    intro row hrow
    have hwidth := hothers row (List.mem_of_mem_take (hreached ▸ hrow))
    rw [hmin, hwidth]
    refine ⟨min_le_right _ _, le_min (hends row (List.mem_cons_of_mem _ hrow)) ?_⟩
    exact (length_withoutTrailingZeros_le row).trans hwidth.le
  refine ⟨direction, n, Vec.scale r.factor ((direction.zip reached).foldl
    (fun acc entry => Vec.add acc (Vec.scale entry.1 entry.2)) (first.take reach)), hn, ?_, ?_, ?_⟩
  · rw [Vec.scale, List.length_map, (form_along direction hwithin fun _ => 0).2, hmin]
    exact min_le_right _ _
  · intro v
    rw [form_scale, (form_along direction hwithin v).1, form_take_of_withoutTrailingZeros (hends first (by simp)),
      hn, dot_append_left, dot_replicate_zero, add_zero, hreached, List.map_take]
  · simp only [Reflection.apply, hfactor, Bool.false_eq_true, if_false, ← hdirection, ← hreached,
      ← hreach]

theorem form_apply {r : Reflection ℝ} {first : Vec ℝ} {others : List (Vec ℝ)} {width : ℕ}
    (hfirst : first.length = width) (hothers : ∀ row ∈ others, row.length = width)
    (hlength : r.direction.length = others.length) (v : ℕ → ℝ) :
    (form (r.apply first others).1 v, (r.apply first others).2.map (form · v)) =
      reflectValues r.factor r.direction (form first v) (others.map (form · v)) := by
  cases hzero : Scalar.isZero r.factor with
  | true =>
    have hfactor : r.factor = 0 := by simpa [Scalar.isZero_real] using hzero
    have hsame : List.zipWith (fun d y => y - d * 0) r.direction (others.map (form · v)) =
        others.map (form · v) := by
      refine List.ext_getElem (by simp [hlength]) fun i _ _ => ?_
      simp
    have happly : r.apply first others = (first, others) := by
      simp only [Reflection.apply, hzero, if_true]
    simp only [happly, reflectValues, hfactor, zero_mul, sub_zero, hsame]
  | false =>
    obtain ⟨direction, n, change, hn, hshort, hchange, happly⟩ :=
      apply_eq hfirst hothers hzero
    have hdirlen : direction.length ≤ others.length := by
      rw [← hlength, hn, List.length_append]
      exact Nat.le_add_right _ _
    have hrest : n = ((others.drop direction.length).map (form · v)).length := by
      have := congrArg List.length hn
      rw [List.length_append, List.length_replicate, hlength] at this
      rw [List.length_map, List.length_drop]
      omega
    have hrows : others.map (form · v) = (others.take direction.length).map (form · v) ++
        (others.drop direction.length).map (form · v) := by
      rw [← List.map_append, List.take_append_drop]
    have hlong : ∀ row ∈ others.take direction.length, change.length ≤ row.length :=
      fun row hrow => hshort.trans (hothers row (List.mem_of_mem_take hrow)).ge
    simp only [happly, reflectValues, ← hchange]
    refine Prod.ext (form_subFront (hshort.trans hfirst.ge) v) ?_
    simp only
    rw [hn, hrows, List.zipWith_append (by simp [hdirlen]), hrest, zipWith_sub_zero_mul,
      ← map_form_subFront hlong, List.map_append]

theorem length_apply {r : Reflection ℝ} {first : Vec ℝ} {others : List (Vec ℝ)} {width : ℕ}
    (hfirst : first.length = width) (hothers : ∀ row ∈ others, row.length = width)
    (hlength : r.direction.length = others.length) :
    (r.apply first others).1.length = width ∧ (r.apply first others).2.length = others.length ∧
      ∀ row ∈ (r.apply first others).2, row.length = width := by
  cases hzero : Scalar.isZero r.factor with
  | true =>
    simp only [Reflection.apply, hzero, if_true]
    exact ⟨hfirst, trivial, hothers⟩
  | false =>
    obtain ⟨direction, n, change, hn, hshort, -, happly⟩ := apply_eq hfirst hothers hzero
    have hdirlen : direction.length ≤ others.length := by
      rw [← hlength, hn, List.length_append]
      exact Nat.le_add_right _ _
    rw [happly]
    refine ⟨(length_subFront (hshort.trans hfirst.ge)).trans hfirst, ?_, ?_⟩
    · simp [hdirlen]
    · intro row hrow
      rcases List.mem_append.mp hrow with hrow | hrow
      · obtain ⟨i, hi, rfl⟩ := List.mem_iff_getElem.mp hrow
        have hbound : i < (others.take direction.length).length := by simp at hi ⊢; omega
        have hold : (others.take direction.length)[i] ∈ others :=
          List.mem_of_mem_take (List.getElem_mem _)
        have hwidth := hothers _ hold
        rw [List.getElem_zipWith, length_subFront (by rw [Vec.scale, List.length_map, hwidth]; exact hshort)]
        exact hwidth
      · exact hothers row (List.mem_of_mem_drop hrow)

/-! ### The reflection of a column -/

/-- The direction and the factor of the reflection of a column: it takes a multiple of the direction
    away from the column, and what it leaves of the first entry is the image. -/
theorem ofColumn_spec (head : ℝ) (tail : Vec ℝ) :
    let r := Reflection.ofColumn head tail
    r.direction.length = tail.length ∧
      r.factor * (r.factor * (1 + squares r.direction) - 2) = 0 ∧
      ∃ k, k = r.factor * (head + dot r.direction tail) ∧ r.image = head - k ∧
        tail = r.direction.map (· * k) := by
  have hnorm : Vec.scaledNorm tail = Real.sqrt (squares tail) := scaledNorm_real tail
  simp only [Reflection.ofColumn, Scalar.isZero_real, decide_eq_true_eq]
  by_cases hrest : Vec.scaledNorm tail = 0
  · have hsquares : squares tail = 0 := by
      rwa [hnorm, Real.sqrt_eq_zero (squares_nonneg tail)] at hrest
    have hzero := (squares_eq_zero_iff tail).mp hsquares
    simp only [hrest, if_true]
    refine ⟨trivial, by ring, 0, by ring, by ring, ?_⟩
    refine List.ext_getElem (by simp) fun i hi _ => ?_
    simp [hzero _ (List.getElem_mem hi)]
  · have hpos : 0 < squares tail := by
      refine lt_of_le_of_ne (squares_nonneg tail) fun h => hrest ?_
      rw [hnorm, ← h, Real.sqrt_zero]
    have hsize : hypotenuse head (Vec.scaledNorm tail) = Real.sqrt (head ^ 2 + squares tail) := by
      rw [hypotenuse, scaledNorm_real, hnorm]
      simp [Real.sq_sqrt hpos.le]
    simp only [hrest, if_false, hsize]
    set image := if 0 ≤ head then -Real.sqrt (head ^ 2 + squares tail)
      else Real.sqrt (head ^ 2 + squares tail) with himage
    have hsq : image ^ 2 = head ^ 2 + squares tail := by
      rw [himage]
      split <;> simp [Real.sq_sqrt (add_nonneg (sq_nonneg head) hpos.le)]
    have hne : head - image ≠ 0 := by
      intro h
      have : head = image := by linarith
      rw [← this] at hsq
      linarith
    have himage0 : image ≠ 0 := by
      intro h
      rw [h] at hsq
      nlinarith [sq_nonneg head]
    have hdivide : divideBy tail (head - image) = tail.map ((head - image)⁻¹ * ·) := by
      simp only [divideBy, Scalar.isFinite_real, if_true]
      exact List.map_congr_left fun x _ => by rw [one_div, mul_comm]
    have hdot : ∀ (c : ℝ) (xs : Vec ℝ), dot (xs.map (c * ·)) xs = c * squares xs := by
      intro c xs
      induction xs with
      | nil => simp
      | cons x xs ih => rw [List.map_cons, dot_cons, ih, squares_cons]; ring
    refine ⟨by rw [hdivide, List.length_map], ?_, head - image, ?_, by ring, ?_⟩
    · rw [hdivide, squares_map_mul, inv_pow]
      have : squares tail = image ^ 2 - head ^ 2 := by linarith
      rw [this]
      field_simp
      ring
    · rw [hdivide, hdot]
      have : squares tail = image ^ 2 - head ^ 2 := by linarith
      rw [this]
      field_simp
      ring
    · rw [hdivide, List.map_map]
      refine List.ext_getElem (by simp) fun i hi _ => ?_
      simp only [List.getElem_map, Function.comp_apply]
      field_simp

theorem squares_reflectValues {factor : ℝ} {direction : Vec ℝ} (first : ℝ) (others : Vec ℝ)
    (hlength : direction.length = others.length)
    (hfactor : factor * (factor * (1 + squares direction) - 2) = 0) :
    let image := reflectValues factor direction first others
    image.1 ^ 2 + squares image.2 = first ^ 2 + squares others := by
  have hexpand : ∀ (ds ys : Vec ℝ) (c : ℝ), ds.length = ys.length →
      squares (List.zipWith (fun d y => y - d * c) ds ys) =
        squares ys - 2 * c * dot ds ys + c ^ 2 * squares ds := by
    intro ds
    induction ds with
    | nil =>
      intro ys c h
      rw [List.length_eq_zero_iff.mp h.symm]
      simp
    | cons d ds ih =>
      intro ys c h
      cases ys with
      | nil => simp at h
      | cons y ys =>
        rw [List.zipWith_cons_cons, squares_cons, ih ys c (by simpa using h), squares_cons, dot_cons,
          squares_cons]
        ring
  simp only [reflectValues, hexpand _ _ _ hlength]
  linear_combination (first + dot direction others) ^ 2 * hfactor

/-- What a reflection does to a column that it was made for, and to the rest of the rows beside that
    column: of the column only the image is left. -/
theorem reflectValues_column {factor head k : ℝ} {direction heads : Vec ℝ}
    (hk : k = factor * (head + dot direction heads)) (hheads : heads = direction.map (· * k))
    (c first : ℝ) (others : Vec ℝ) (hlength : direction.length = others.length) :
    reflectValues factor direction (head * c + first)
        (List.zipWith (fun h y => h * c + y) heads others) =
      ((head - k) * c + (reflectValues factor direction first others).1,
        (reflectValues factor direction first others).2) := by
  have hdot : ∀ (ds hs ys : Vec ℝ), ds.length = hs.length → ds.length = ys.length →
      dot ds (List.zipWith (fun h y => h * c + y) hs ys) = c * dot ds hs + dot ds ys := by
    intro ds
    induction ds with
    | nil => simp
    | cons d ds ih =>
      intro hs ys hhs hys
      cases hs with
      | nil => simp at hhs
      | cons h hs =>
        cases ys with
        | nil => simp at hys
        | cons y ys =>
          rw [List.zipWith_cons_cons, dot_cons, ih hs ys (by simpa using hhs) (by simpa using hys),
            dot_cons, dot_cons]
          ring
  have hsum := hdot direction heads others (by rw [hheads, List.length_map]) hlength
  have hchange : factor * (head * c + first + (c * dot direction heads + dot direction others)) =
      k * c + factor * (first + dot direction others) := by
    rw [hk]
    ring
  simp only [reflectValues, hsum, hchange]
  refine Prod.ext (by simp only; ring) ?_
  refine List.ext_getElem (by simp [hheads, hlength]) fun i _ _ => ?_
  simp only [hheads, List.getElem_zipWith, List.getElem_map]
  ring

/-! ### Reduction -/

theorem ofColumn_fits {first : Vec ℝ} {others : List (Vec ℝ)} {width : ℕ}
    (hfirst : first.length = width + 1) (hothers : ∀ row ∈ others, row.length = width + 1) :
    first.tail.length = width ∧ (∀ row ∈ others.map List.tail, row.length = width) ∧
      (Reflection.ofColumn (first.headD 0) (others.map (·.headD 0))).direction.length =
        (others.map List.tail).length := by
  refine ⟨by simp [hfirst], ?_, ?_⟩
  · intro row hrow
    obtain ⟨old, hold, rfl⟩ := List.mem_map.mp hrow
    simp [hothers old hold]
  · rw [(ofColumn_spec _ _).1, List.length_map, List.length_map]

/-- One step of the reduction: the finished row, and what is left of the others behind a zero, have
    together the squared values that the rows had. -/
theorem squares_reduce_step {first : Vec ℝ} {others : List (Vec ℝ)} {width : ℕ}
    (hfirst : first.length = width + 1) (hothers : ∀ row ∈ others, row.length = width + 1)
    (v : ℕ → ℝ) :
    let r := Reflection.ofColumn (first.headD 0) (others.map (·.headD 0))
    let applied := r.apply first.tail (others.map List.tail)
    form (r.image :: applied.1) v ^ 2 +
        squares (applied.2.map fun row => form row fun i => v (i + 1)) =
      form first v ^ 2 + squares (others.map (form · v)) := by
  intro r applied
  obtain ⟨hlength, hfactor, k, hk, himage, hheads⟩ :=
    ofColumn_spec (first.headD 0) (others.map (·.headD 0))
  obtain ⟨htail, htails, hdirection⟩ := ofColumn_fits hfirst hothers
  have hvalues := form_apply htail htails hdirection fun i => v (i + 1)
  have hsplit : ∀ row : Vec ℝ, row.length = width + 1 →
      form row v = row.headD 0 * v 0 + form row.tail fun i => v (i + 1) := by
    intro row hrow
    cases row with
    | nil => simp at hrow
    | cons a row => rfl
  have hrows : others.map (form · v) = List.zipWith (fun h y => h * v 0 + y)
      (others.map (·.headD 0)) ((others.map List.tail).map (form · fun i => v (i + 1))) := by
    rw [List.map_map, List.zipWith_map, List.zipWith_self]
    exact List.map_congr_left fun row hrow => hsplit row (hothers row hrow)
  have hall := reflectValues_column hk hheads (v 0) (form first.tail fun i => v (i + 1))
    ((others.map List.tail).map (form · fun i => v (i + 1)))
    (hdirection.trans (List.length_map _).symm)
  rw [← hrows, ← hsplit first hfirst, ← himage] at hall
  have hsquares := squares_reflectValues (form first v) (others.map (form · v))
    (by rw [hlength, List.length_map, List.length_map]) hfactor
  rw [hall] at hsquares
  rw [← hsquares, ← hvalues]
  rfl

theorem length_reduceRows (width : ℕ) (rows : List (Vec ℝ))
    (hrows : ∀ row ∈ rows, row.length = width) :
    (reduceRows width rows).length = min rows.length width ∧
      ∀ row ∈ reduceRows width rows, row.length = width := by
  induction width generalizing rows with
  | zero => simp [reduceRows]
  | succ width ih =>
    cases rows with
    | nil => simp [reduceRows]
    | cons first others =>
      obtain ⟨htail, htails, hdirection⟩ := ofColumn_fits (hrows first (by simp))
        fun row hrow => hrows row (List.mem_cons_of_mem _ hrow)
      obtain ⟨htop, hcount, hrest⟩ := length_apply htail htails hdirection
      obtain ⟨hsize, hwidth⟩ := ih _ hrest
      simp only [reduceRows, List.length_cons, List.length_map, hsize, hcount]
      refine ⟨by omega, ?_⟩
      intro row hrow
      rcases List.mem_cons.mp hrow with rfl | hrow
      · rw [List.length_cons, htop]
      · obtain ⟨old, hold, rfl⟩ := List.mem_map.mp hrow
        rw [List.length_cons, hwidth old hold]

/-- **Reduction keeps the sum of squared values at every sequence.** -/
theorem squares_reduceRows (width : ℕ) (rows : List (Vec ℝ))
    (hrows : ∀ row ∈ rows, row.length = width) (v : ℕ → ℝ) :
    squares ((reduceRows width rows).map (form · v)) = squares (rows.map (form · v)) := by
  induction width generalizing rows v with
  | zero =>
    have hzero : ∀ x ∈ rows.map (form · v), x = 0 := by
      intro x hx
      obtain ⟨row, hrow, rfl⟩ := List.mem_map.mp hx
      rw [List.length_eq_zero_iff.mp (hrows row hrow), form_nil]
    rw [(squares_eq_zero_iff _).mpr hzero]
    simp [reduceRows]
  | succ width ih =>
    cases rows with
    | nil => simp [reduceRows]
    | cons first others =>
      have hfirst := hrows first (by simp)
      have hothers : ∀ row ∈ others, row.length = width + 1 := fun row hrow =>
        hrows row (List.mem_cons_of_mem _ hrow)
      obtain ⟨htail, htails, hdirection⟩ := ofColumn_fits hfirst hothers
      obtain ⟨-, -, hrest⟩ := length_apply htail htails hdirection
      have hbelow := ih _ hrest fun i => v (i + 1)
      have hshift : ∀ rows : List (Vec ℝ), (rows.map (0 :: ·)).map (form · v) =
          rows.map (form · fun i => v (i + 1)) := by
        intro rows
        rw [List.map_map]
        exact List.map_congr_left fun row _ => by simp
      simp only [reduceRows, List.map_cons, squares_cons, hshift, hbelow]
      exact squares_reduce_step hfirst hothers v

/-- **Reduced rows are upper trapezoidal.** -/
theorem reduceRows_trapezoidal (width : ℕ) (rows : List (Vec ℝ)) (i j : ℕ) (hij : j < i)
    (row : Vec ℝ) (hrow : (reduceRows width rows)[i]? = some row) : row.entry j = 0 := by
  induction width generalizing rows i j row with
  | zero => simp [reduceRows] at hrow
  | succ width ih =>
    cases rows with
    | nil => simp [reduceRows] at hrow
    | cons first others =>
      obtain ⟨i, rfl⟩ := Nat.exists_eq_succ_of_ne_zero (Nat.ne_of_gt (Nat.zero_lt_of_lt hij))
      simp only [reduceRows, Nat.succ_eq_add_one, List.getElem?_cons_succ, List.getElem?_map,
        Option.map_eq_some_iff] at hrow
      obtain ⟨old, hold, rfl⟩ := hrow
      cases j with
      | zero => rfl
      | succ j => exact ih _ i j (by omega) old hold

end Triangular

end LeastSquares
