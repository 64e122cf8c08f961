/-
  LeastSquares/Proofs/Columns.lean
  ================================
  **Columns of variables, and assignments as sequences of columns.**

  Variables that stand side by side take as many columns as they have components.  An assignment
  gives every component of every variable a number; read along the columns of a list of variables
  it is one sequence, on which rows are evaluated as linear forms.
-/
import LeastSquares.Linear.Factor
import LeastSquares.Proofs.LinearForm
import LeastSquares.Proofs.Steps

namespace LeastSquares

/-- Numbers for all components of all variables. -/
abbrev Assignment := Key → ℕ → ℝ

namespace Table

/-- The size of a variable; one that has none takes no columns. -/
def dimOf (dims : Table ℕ) (key : Key) : ℕ := (dims.get? key).getD 0

/-- The number of columns of some variables. -/
def widthOf (dims : Table ℕ) (keys : List Key) : ℕ := (keys.map dims.dimOf).sum

/-- The first column of a variable among the columns of some variables. -/
def columnOf (dims : Table ℕ) : List Key → Key → ℕ
  | [], _ => 0
  | first :: keys, key => if key = first then 0 else dims.dimOf first + columnOf dims keys key

variable {dims : Table ℕ}

theorem dimOf_eq {key : Key} {n : ℕ} (h : dims.get? key = some n) : dims.dimOf key = n := by
  rw [dimOf, h, Option.getD_some]

@[simp] theorem widthOf_nil : dims.widthOf [] = 0 := rfl

@[simp] theorem widthOf_cons (key : Key) (keys : List Key) :
    dims.widthOf (key :: keys) = dims.dimOf key + dims.widthOf keys := by
  simp [widthOf]

@[simp] theorem widthOf_append (keys others : List Key) :
    dims.widthOf (keys ++ others) = dims.widthOf keys + dims.widthOf others := by
  simp [widthOf]

theorem columnOf_add_dimOf_le (dims : Table ℕ) {keys : List Key} {key : Key} (h : key ∈ keys) :
    dims.columnOf keys key + dims.dimOf key ≤ dims.widthOf keys := by
  induction keys with
  | nil => simp at h
  | cons first keys ih =>
    rw [columnOf, widthOf_cons]
    split
    · next heq => subst heq; omega
    · next hne =>
      have := ih ((List.mem_cons.mp h).resolve_left hne)
      omega

theorem exists_columnOf {keys : List Key} (hnodup : keys.Nodup) {i : ℕ} (h : i < dims.widthOf keys) :
    ∃ key ∈ keys, ∃ j < dims.dimOf key, i = dims.columnOf keys key + j := by
  induction keys generalizing i with
  | nil => simp at h
  | cons first keys ih =>
    obtain ⟨hfirst, hnodup⟩ := List.nodup_cons.mp hnodup
    rw [widthOf_cons] at h
    by_cases hlt : i < dims.dimOf first
    · exact ⟨first, by simp, i, hlt, by simp [columnOf]⟩
    · obtain ⟨key, hkey, j, hj, hi⟩ := ih hnodup (i := i - dims.dimOf first) (by omega)
      have hne : key ≠ first := fun heq => hfirst (heq ▸ hkey)
      exact ⟨key, List.mem_cons_of_mem _ hkey, j, hj, by rw [columnOf, if_neg hne]; omega⟩

theorem columnOf_disjoint (dims : Table ℕ) {keys : List Key} {key other : Key} (hkey : key ∈ keys)
    (hother : other ∈ keys) (hne : key ≠ other) :
    dims.columnOf keys key + dims.dimOf key ≤ dims.columnOf keys other ∨
      dims.columnOf keys other + dims.dimOf other ≤ dims.columnOf keys key := by
  induction keys with
  | nil => simp at hkey
  | cons first keys ih =>
    simp only [columnOf]
    by_cases hk : key = first
    · have ho : other ≠ first := fun e => hne (hk.trans e.symm)
      rw [if_pos hk, if_neg ho, hk]
      exact Or.inl (by omega)
    · by_cases ho : other = first
      · rw [if_pos ho, if_neg hk, ho]
        exact Or.inr (by omega)
      · rw [if_neg hk, if_neg ho]
        have := ih ((List.mem_cons.mp hkey).resolve_left hk)
          ((List.mem_cons.mp hother).resolve_left ho)
        omega

end Table

/-! ### The columns of the stacked matrix -/

/-- Columns are given out in the order of the variables, each of which has to have a size. -/
theorem columnOffsets_eq_ok {dims : Table ℕ} {keys : List Key} {found : Table ℕ × ℕ}
    (h : columnOffsets dims keys = .ok found) :
    (∀ key ∈ keys, ∃ n, dims.get? key = some n) ∧ found.2 = dims.widthOf keys ∧
      (keys.Nodup → ∀ key ∈ keys, found.1.get? key = some (dims.columnOf keys key)) := by
  have hfold : ∀ (keys : List Key) (start found : Table ℕ × ℕ),
      keys.foldlM (fun (state : Table ℕ × ℕ) key => do
        let dim ← dims.find key
        return (state.1.set key state.2, state.2 + dim)) start = .ok found →
      (∀ key ∈ keys, ∃ n, dims.get? key = some n) ∧ found.2 = start.2 + dims.widthOf keys ∧
        (keys.Nodup → ∀ key, found.1.get? key =
          if key ∈ keys then some (start.2 + dims.columnOf keys key) else start.1.get? key) := by
    intro keys
    induction keys with
    | nil =>
      intro start found h
      cases h
      simp
    | cons first keys ih =>
      intro start found h
      rw [List.foldlM_cons, bind_eq_ok] at h
      obtain ⟨next, hnext, hrest⟩ := h
      obtain ⟨n, hn, hpure⟩ := bind_eq_ok.mp hnext
      cases hpure
      have hsize := Table.find_eq_ok.mp hn
      obtain ⟨hsized, hwidth, hcolumns⟩ := ih _ _ hrest
      refine ⟨?_, ?_, ?_⟩
      · intro key hkey
        rcases List.mem_cons.mp hkey with rfl | hkey
        · exact ⟨n, hsize⟩
        · exact hsized key hkey
      · rw [hwidth, Table.widthOf_cons, Table.dimOf_eq hsize, Nat.add_assoc]
      · intro hnodup key
        obtain ⟨hfirst, hnodup⟩ := List.nodup_cons.mp hnodup
        rw [hcolumns hnodup key, Table.get?_set, Table.columnOf]
        by_cases hkey : key = first
        · subst hkey
          simp [hfirst]
        · simp [hkey, Table.dimOf_eq hsize, Nat.add_assoc]
  obtain ⟨hsized, hwidth, hcolumns⟩ := hfold keys ([], 0) found h
  refine ⟨hsized, by simpa using hwidth, fun hnodup key hkey => ?_⟩
  have := hcolumns hnodup key
  simpa [hkey] using this

theorem columnOffsets_exists {dims : Table ℕ} {keys : List Key}
    (h : ∀ key ∈ keys, ∃ n, dims.get? key = some n) : ∃ found, columnOffsets dims keys = .ok found := by
  have hfold : ∀ (keys : List Key) (start : Table ℕ × ℕ),
      (∀ key ∈ keys, ∃ n, dims.get? key = some n) →
      ∃ found, keys.foldlM (fun (state : Table ℕ × ℕ) key => do
        let dim ← dims.find key
        return (state.1.set key state.2, state.2 + dim)) start = Except.ok (ε := Error) found := by
    intro keys
    induction keys with
    | nil => exact fun start _ => ⟨start, rfl⟩
    | cons first keys ih =>
      intro start h
      obtain ⟨n, hn⟩ := h first (by simp)
      obtain ⟨found, hfound⟩ := ih (start.1.set first start.2, start.2 + n)
        fun key hkey => h key (List.mem_cons_of_mem _ hkey)
      refine ⟨found, ?_⟩
      rw [List.foldlM_cons, Table.find_eq_ok.mpr hn]
      exact hfound
  exact hfold keys ([], 0) h

/-! ### Assignments along columns -/

namespace Assignment

open Vec

/-- An assignment read along the columns of some variables. -/
def along (dims : Table ℕ) (x : Assignment) : List Key → ℕ → ℝ
  | [], _ => 0
  | key :: keys, j =>
    if j < dims.dimOf key then x key j else along dims x keys (j - dims.dimOf key)

variable {dims : Table ℕ} (x : Assignment)

theorem along_columnOf {keys : List Key} {key : Key} (h : key ∈ keys) {j : ℕ}
    (hj : j < dims.dimOf key) : along dims x keys (dims.columnOf keys key + j) = x key j := by
  induction keys with
  | nil => simp at h
  | cons first keys ih =>
    rw [along, Table.columnOf]
    by_cases hkey : key = first
    · subst hkey
      simp [hj]
    · rw [if_neg hkey, if_neg (by omega), Nat.add_assoc, Nat.add_sub_cancel_left]
      exact ih ((List.mem_cons.mp h).resolve_left hkey)

/-- One at a component of a variable, and zero everywhere else. -/
def unit (key : Key) (j : ℕ) : Assignment := fun other i => if other = key ∧ i = j then 1 else 0

theorem along_unit {keys : List Key} (hnodup : keys.Nodup) {key : Key} (h : key ∈ keys) {j : ℕ}
    (hj : j < dims.dimOf key) {i : ℕ} (hi : i < dims.widthOf keys) :
    along dims (unit key j) keys i = if i = dims.columnOf keys key + j then 1 else 0 := by
  obtain ⟨other, hother, i', hi', rfl⟩ := Table.exists_columnOf hnodup hi
  rw [along_columnOf _ hother hi', unit]
  by_cases hsame : other = key
  · subst hsame
    simp
  · have hdisjoint := Table.columnOf_disjoint dims hother h hsame
    rw [if_neg fun hand => hsame hand.1, if_neg (by omega)]

theorem along_append (keys others : List Key) (j : ℕ) :
    along dims x (keys ++ others) j = if j < dims.widthOf keys then along dims x keys j
      else along dims x others (j - dims.widthOf keys) := by
  induction keys generalizing j with
  | nil => simp
  | cons key keys ih =>
    rw [List.cons_append, along, along, Table.widthOf_cons, ih]
    by_cases h : j < dims.dimOf key
    · rw [if_pos h, if_pos (by omega), if_pos h]
    · rw [if_neg h]
      by_cases h' : j - dims.dimOf key < dims.widthOf keys
      · rw [if_pos h', if_pos (by omega), if_neg h]
      · rw [if_neg h', if_neg (by omega), Nat.sub_sub]

theorem along_congr {x y : Assignment} {keys : List Key}
    (h : ∀ key ∈ keys, ∀ j < dims.dimOf key, x key j = y key j) (j : ℕ)
    (hj : j < dims.widthOf keys) : along dims x keys j = along dims y keys j := by
  induction keys generalizing j with
  | nil => simp at hj
  | cons key keys ih =>
    rw [along, along]
    split
    · next hlt => exact h key (by simp) j hlt
    · next hge =>
      rw [Table.widthOf_cons] at hj
      exact ih (fun k hk => h k (List.mem_cons_of_mem _ hk)) _ (by omega)

theorem eq_of_along_eq {x y : Assignment} {keys : List Key}
    (h : ∀ j < dims.widthOf keys, along dims x keys j = along dims y keys j) {key : Key}
    (hkey : key ∈ keys) {j : ℕ} (hj : j < dims.dimOf key) : x key j = y key j := by
  have hle := Table.columnOf_add_dimOf_le dims hkey
  rw [← along_columnOf x hkey hj, ← along_columnOf y hkey hj]
  exact h _ (by omega)

theorem form_along_eq_sum {keys : List Key} (hnodup : keys.Nodup) {row : Vec ℝ}
    (hrow : row.length = dims.widthOf keys) :
    form row (along dims x keys) = (keys.map fun key =>
      form ((row.drop (dims.columnOf keys key)).take (dims.dimOf key)) (x key)).sum := by
  induction keys generalizing row with
  | nil =>
    rw [List.length_eq_zero_iff.mp (hrow.trans Table.widthOf_nil)]
    rfl
  | cons key keys ih =>
    obtain ⟨hkey, hnodup⟩ := List.nodup_cons.mp hnodup
    rw [Table.widthOf_cons] at hrow
    have hhead : form (row.take (dims.dimOf key)) (along dims x (key :: keys)) =
        form (row.take (dims.dimOf key)) (x key) := by
      refine form_congr fun j hj => ?_
      rw [List.length_take] at hj
      rw [along, if_pos (by omega)]
    have hshift : (fun j => along dims x (key :: keys) (dims.dimOf key + j)) = along dims x keys := by
      funext j
      rw [along, if_neg (by omega), Nat.add_sub_cancel_left]
    rw [form_take_drop row (dims.dimOf key) (by omega), hhead, hshift,
      ih hnodup (by rw [List.length_drop]; omega), List.map_cons, List.sum_cons, Table.columnOf,
      if_pos rfl, List.drop_zero]
    congr 2
    refine List.map_congr_left fun other hother => ?_
    have hne : other ≠ key := fun e => hkey (e ▸ hother)
    rw [Table.columnOf, if_neg hne, List.drop_drop]

end Assignment

end LeastSquares
