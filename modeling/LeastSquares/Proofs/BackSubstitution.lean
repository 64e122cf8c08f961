/-
  LeastSquares/Proofs/BackSubstitution.lean
  =========================================
  **Back-substitution finds the one solution of a triangular system.**

  A system is triangular when each row begins with as many zeros as there are rows above it and
  has a pivot there that is not zero.  The last unknown is then determined by the last row, and
  every other by its row and the unknowns behind it.
-/
import LeastSquares.Proofs.Reflection

namespace LeastSquares

namespace Triangular

open Vec

/-- The rows of an upper triangular matrix of a given width from a place on: in each the entries
    before its pivot are zero, and the pivot is not. -/
def IsTriangularFrom (width place : ℕ) (rows : List (Vec ℝ)) : Prop :=
  place + rows.length = width ∧
    ∀ (i : ℕ) (row : Vec ℝ), rows[i]? = some row →
      row.length = width ∧ (∀ j < place + i, row.entry j = 0) ∧ row.entry (place + i) ≠ 0

/-- A square matrix that is upper triangular and has no zero on its diagonal. -/
def IsTriangular (m : Mat ℝ) : Prop := IsTriangularFrom m.width 0 m.rows

theorem IsTriangularFrom.tail {width place : ℕ} {row : Vec ℝ} {rows : List (Vec ℝ)}
    (h : IsTriangularFrom width place (row :: rows)) : IsTriangularFrom width (place + 1) rows := by
  obtain ⟨hlength, hrows⟩ := h
  refine ⟨by simp only [List.length_cons] at hlength; omega, fun i r hr => ?_⟩
  obtain ⟨hwidth, hzeros, hpivot⟩ := hrows (i + 1) r (by simpa using hr)
  rw [show place + (i + 1) = place + 1 + i by omega] at hzeros hpivot
  exact ⟨hwidth, hzeros, hpivot⟩

theorem IsTriangularFrom.head {width place : ℕ} {row : Vec ℝ} {rows : List (Vec ℝ)}
    (h : IsTriangularFrom width place (row :: rows)) :
    ∃ pivot rest, row.drop place = pivot :: rest ∧ pivot ≠ 0 ∧ rest.length = rows.length ∧
      ∀ v, form row v = pivot * v place + form rest fun i => v (place + 1 + i) := by
  obtain ⟨hlength, hrows⟩ := h
  obtain ⟨hwidth, hzeros, hpivot⟩ := hrows 0 row (by simp)
  rw [List.length_cons] at hlength
  have hplace : place < row.length := by omega
  refine ⟨row[place], row.drop (place + 1), List.drop_eq_getElem_cons hplace, ?_, ?_, ?_⟩
  · simpa [entry, hplace] using hpivot
  · rw [List.length_drop]
    omega
  · intro v
    have hfront : ∀ a ∈ row.take place, a = 0 := by
      intro a ha
      obtain ⟨j, hj, rfl⟩ := List.mem_iff_getElem.mp ha
      rw [List.length_take] at hj
      have := hzeros j (by omega)
      simpa [entry, show j < row.length by omega] using this
    rw [form_take_drop row place hplace.le, form_eq_zero hfront, List.drop_eq_getElem_cons hplace,
      form_cons, zero_add, Nat.add_zero]
    simp only [Nat.add_assoc, Nat.add_comm 1]

theorem length_solveFrom {width place : ℕ} {rows : List (Vec ℝ)} {rhs : Vec ℝ}
    (h : IsTriangularFrom width place rows) (hrhs : rhs.length = rows.length) :
    (solveFrom place rows rhs).length = rows.length := by
  induction rows generalizing place rhs with
  | nil => simp [solveFrom]
  | cons row rows ih =>
    cases rhs with
    | nil => simp at hrhs
    | cons y ys =>
      obtain ⟨pivot, rest, hdrop, -⟩ := h.head
      simp only [solveFrom, hdrop, List.length_cons, ih h.tail (by simpa using hrhs)]

theorem form_solveFrom {width place : ℕ} {rows : List (Vec ℝ)} {rhs : Vec ℝ} {v : ℕ → ℝ}
    (h : IsTriangularFrom width place rows) (hrhs : rhs.length = rows.length)
    (hv : ∀ i, v (place + i) = (solveFrom place rows rhs).entry i) :
    rows.map (form · v) = rhs := by
  induction rows generalizing place rhs with
  | nil => exact (List.length_eq_zero_iff.mp hrhs).symm
  | cons row rows ih =>
    cases rhs with
    | nil => simp at hrhs
    | cons y ys =>
      have hys : ys.length = rows.length := by simpa using hrhs
      obtain ⟨pivot, rest, hdrop, hpivot, hrest, hform⟩ := h.head
      have hlength := length_solveFrom h.tail hys
      simp only [solveFrom, hdrop] at hv
      have hhere : v place =
          (y - Vec.dot rest (solveFrom (place + 1) rows ys)) / pivot := hv 0
      have hbehind : ∀ i, v (place + 1 + i) = (solveFrom (place + 1) rows ys).entry i := by
        intro i
        have := hv (i + 1)
        rwa [← Nat.add_assoc, Nat.add_right_comm] at this
      rw [List.map_cons, ih h.tail hys hbehind, hform, hhere, mul_div_cancel₀ _ hpivot,
        dot_eq_form (by rw [hrest, hlength])]
      simp only [hbehind]
      rw [show (fun i => (solveFrom (place + 1) rows ys).entry i) =
        (solveFrom (place + 1) rows ys).entry from rfl, sub_add_cancel]

theorem eq_of_map_form_eq {width place : ℕ} {rows : List (Vec ℝ)} {v w : ℕ → ℝ}
    (h : IsTriangularFrom width place rows) (heq : rows.map (form · v) = rows.map (form · w)) :
    ∀ i < rows.length, v (place + i) = w (place + i) := by
  induction rows generalizing place with
  | nil => intro i hi; simp at hi
  | cons row rows ih =>
    obtain ⟨pivot, rest, -, hpivot, hrest, hform⟩ := h.head
    rw [List.map_cons, List.map_cons, List.cons.injEq] at heq
    have hbehind := ih h.tail heq.2
    intro i hi
    cases i with
    | zero =>
      have hhead := heq.1
      have hsame : (form rest fun i => v (place + 1 + i)) = form rest fun i => w (place + 1 + i) :=
        form_congr fun i hi => hbehind i (by omega)
      rw [hform, hform, hsame] at hhead
      exact mul_left_cancel₀ hpivot (add_right_cancel hhead)
    | succ i =>
      have := hbehind i (by simpa using hi)
      rwa [show place + 1 + i = place + (i + 1) by omega] at this

/-- **A triangular system is solved**, and its solution is the only one. -/
theorem solve_eq_ok {m : Mat ℝ} {rhs : Vec ℝ} (h : IsTriangular m)
    (hrhs : rhs.length = m.rows.length) :
    ∃ xs, solve m rhs = .ok xs ∧ xs.length = m.width ∧ m.rows.map (form · xs.entry) = rhs ∧
      ∀ v, m.rows.map (form · v) = rhs → ∀ i < m.width, v i = xs.entry i := by
  have hsize : m.rows.length = m.width := by simpa using h.1
  have hsolved : m.rows.map (form · (solveFrom 0 m.rows rhs).entry) = rhs :=
    form_solveFrom h hrhs fun i => by rw [Nat.zero_add]
  refine ⟨solveFrom 0 m.rows rhs, ?_, (length_solveFrom h hrhs).trans hsize, hsolved, ?_⟩
  · have hfinite : m.rows.all Vec.isFinite = true :=
      List.all_eq_true.mpr fun row _ => isFinite_real row
    simp [solve, hfinite, isFinite_real]
  · intro v hv i hi
    have := eq_of_map_form_eq h (hv.trans hsolved.symm) i (hsize.symm ▸ hi)
    rwa [Nat.zero_add] at this

end Triangular

end LeastSquares
