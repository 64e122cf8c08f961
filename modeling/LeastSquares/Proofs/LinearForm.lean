/-
  LeastSquares/Proofs/LinearForm.lean
  ===================================
  **Rows of numbers as linear forms.**

  A row is read as the linear form whose coefficients it lists, and is applied to a sequence, of
  which only as many terms matter as the row has entries.  Everything that elimination does to
  rows (cutting, joining, adding, scaling) is a law about the values of the forms, so that no
  later proof has to look at single entries.
-/
import LeastSquares.Proofs.Reals

namespace LeastSquares

namespace Vec

/-- The value of the linear form with given coefficients at a sequence. -/
def form : Vec ℝ → (ℕ → ℝ) → ℝ
  | [], _ => 0
  | a :: row, v => a * v 0 + form row fun i => v (i + 1)

/-- The sequence that begins with the entries of a vector and is zero behind them. -/
def entry (xs : Vec ℝ) (i : ℕ) : ℝ := xs.getD i 0

@[simp] theorem form_nil (v : ℕ → ℝ) : form [] v = 0 := rfl

@[simp] theorem form_cons (a : ℝ) (row : Vec ℝ) (v : ℕ → ℝ) :
    form (a :: row) v = a * v 0 + form row fun i => v (i + 1) := rfl

@[simp] theorem entry_cons_zero (x : ℝ) (xs : Vec ℝ) : entry (x :: xs) 0 = x := rfl

@[simp] theorem entry_cons_succ (x : ℝ) (xs : Vec ℝ) (i : ℕ) :
    entry (x :: xs) (i + 1) = entry xs i := rfl

theorem form_congr {row : Vec ℝ} {v w : ℕ → ℝ} (h : ∀ i < row.length, v i = w i) :
    form row v = form row w := by
  induction row generalizing v w with
  | nil => rfl
  | cons a row ih =>
    rw [form_cons, form_cons, h 0 (by simp)]
    congr 1
    exact ih fun i hi => h (i + 1) (by simpa using hi)

theorem form_append (xs ys : Vec ℝ) (v : ℕ → ℝ) :
    form (xs ++ ys) v = form xs v + form ys fun i => v (xs.length + i) := by
  induction xs generalizing v with
  | nil => simp
  | cons x xs ih =>
    rw [List.cons_append, form_cons, form_cons, ih]
    have hshift : (fun i => v (xs.length + i + 1)) = fun i => v ((x :: xs).length + i) := by
      funext i
      rw [List.length_cons]
      congr 1
      omega
    rw [hshift]
    ring

theorem form_take_drop (row : Vec ℝ) (n : ℕ) (h : n ≤ row.length) (v : ℕ → ℝ) :
    form row v = form (row.take n) v + form (row.drop n) fun i => v (n + i) := by
  have hsplit := form_append (row.take n) (row.drop n) v
  rw [List.take_append_drop, List.length_take_of_le h] at hsplit
  exact hsplit

theorem form_replicate_zero (n : ℕ) (v : ℕ → ℝ) : form (List.replicate n 0) v = 0 := by
  induction n generalizing v with
  | zero => rfl
  | succ n ih => rw [List.replicate_succ, form_cons, ih, zero_mul, zero_add]

theorem form_eq_zero {row : Vec ℝ} (h : ∀ a ∈ row, a = 0) (v : ℕ → ℝ) : form row v = 0 := by
  rw [List.eq_replicate_of_mem h, form_replicate_zero]

theorem form_add {xs ys : Vec ℝ} (h : xs.length = ys.length) (v : ℕ → ℝ) :
    form (Vec.add xs ys) v = form xs v + form ys v := by
  induction xs generalizing ys v with
  | nil =>
    cases ys with
    | nil => simp [Vec.add]
    | cons y ys => simp at h
  | cons x xs ih =>
    cases ys with
    | nil => simp at h
    | cons y ys =>
      have hlength : xs.length = ys.length := by simpa using h
      have htail := ih hlength fun i => v (i + 1)
      simp only [Vec.add] at htail
      simp only [Vec.add, List.zipWith_cons_cons, form_cons, htail]
      ring

theorem form_sub {xs ys : Vec ℝ} (h : xs.length = ys.length) (v : ℕ → ℝ) :
    form (Vec.sub xs ys) v = form xs v - form ys v := by
  induction xs generalizing ys v with
  | nil =>
    cases ys with
    | nil => simp [Vec.sub]
    | cons y ys => simp at h
  | cons x xs ih =>
    cases ys with
    | nil => simp at h
    | cons y ys =>
      have hlength : xs.length = ys.length := by simpa using h
      have htail := ih hlength fun i => v (i + 1)
      simp only [Vec.sub] at htail
      simp only [Vec.sub, List.zipWith_cons_cons, form_cons, htail]
      ring

theorem form_scale (c : ℝ) (xs : Vec ℝ) (v : ℕ → ℝ) : form (Vec.scale c xs) v = c * form xs v := by
  induction xs generalizing v with
  | nil => simp [Vec.scale]
  | cons x xs ih =>
    have htail := ih fun i => v (i + 1)
    simp only [Vec.scale] at htail
    simp only [Vec.scale, List.map_cons, form_cons, htail]
    ring

theorem form_add_right (row : Vec ℝ) (v w : ℕ → ℝ) : form row (v + w) = form row v + form row w := by
  induction row generalizing v w with
  | nil => simp
  | cons a row ih =>
    have htail : form row (fun i => v (i + 1) + w (i + 1)) = _ :=
      ih (fun i => v (i + 1)) fun i => w (i + 1)
    simp only [form_cons, Pi.add_apply, htail]
    ring

theorem form_zero (row : Vec ℝ) : form row 0 = 0 := by
  have hdouble := form_add_right row 0 0
  rw [add_zero] at hdouble
  linarith

theorem form_neg_right (row : Vec ℝ) (v : ℕ → ℝ) : form row (-v) = -form row v := by
  have hsum := form_add_right row (-v) v
  rw [neg_add_cancel, form_zero] at hsum
  linarith

/-- Where a row or a sequence is zero besides one place, only that place counts. -/
theorem form_eq_entry {row : Vec ℝ} {v : ℕ → ℝ} {place : ℕ} (hone : v place = 1)
    (hzero : ∀ j, j ≠ place → row.entry j = 0 ∨ v j = 0) : form row v = row.entry place := by
  have hnothing : ∀ (row : Vec ℝ) (v : ℕ → ℝ), (∀ j, row.entry j = 0 ∨ v j = 0) → form row v = 0 := by
    intro row
    induction row with
    | nil => exact fun v _ => rfl
    | cons a row ih =>
      intro v h
      have hhead : a * v 0 = 0 := mul_eq_zero.mpr (h 0)
      rw [form_cons, hhead, ih _ fun j => h (j + 1), add_zero]
  induction row generalizing v place with
  | nil => rfl
  | cons a row ih =>
    cases place with
    | zero =>
      rw [form_cons, hone, hnothing row _ fun j => hzero (j + 1) (by omega)]
      simp
    | succ place =>
      have hhead : a * v 0 = 0 := mul_eq_zero.mpr (hzero 0 (by omega))
      rw [form_cons, hhead, zero_add, entry_cons_succ]
      exact ih hone fun j hj => hzero (j + 1) (by omega)

theorem dot_eq_form {row xs : Vec ℝ} (h : row.length ≤ xs.length) :
    dot row xs = form row xs.entry := by
  rw [dot, sum_real]
  induction row generalizing xs with
  | nil => rfl
  | cons a row ih =>
    cases xs with
    | nil => simp at h
    | cons x xs =>
      rw [List.zipWith_cons_cons, List.sum_cons, ih (by simpa using h)]
      rfl

theorem entry_append_left {xs ys : Vec ℝ} {i : ℕ} (h : i < xs.length) :
    entry (xs ++ ys) i = entry xs i := by
  simp [entry, List.getElem?_append_left h]

theorem entry_append_right (xs ys : Vec ℝ) (i : ℕ) :
    entry (xs ++ ys) (xs.length + i) = entry ys i := by
  simp only [entry, List.getD_eq_getElem?_getD, List.getElem?_append_right (Nat.le_add_right _ _),
    Nat.add_sub_cancel_left]

end Vec

end LeastSquares
