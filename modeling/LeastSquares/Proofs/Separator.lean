/-
  LeastSquares/Proofs/Separator.lean
  ==================================
  **What one dense elimination is made of, over any arithmetic.**

  The separator holds, once and by position, the variables that the factors touch besides the
  eliminated ones.  An elimination that returns names the eliminated variables and the separator
  in its conditional, and leaves a factor on exactly the separator, unless the separator is empty
  or no rows are left.
-/
import LeastSquares.Linear.Elimination
import LeastSquares.Proofs.Columns

namespace LeastSquares

namespace Elimination

variable {α : Type} {factors : List (LinearFactor α)} {frontals : List Key} {position : Table ℕ}

theorem separatorOf_eq_ok {separator : List Key}
    (h : separatorOf factors frontals position = .ok separator) :
    separator.Nodup ∧
      (∀ key, key ∈ separator ↔ key ∉ frontals ∧ ∃ f ∈ factors, key ∈ f.keys) ∧
      separator.Pairwise fun a b => ∃ i j, position.get? a = some i ∧ position.get? b = some j ∧
        i ≤ j := by
  obtain ⟨placed, hplaced, hpure⟩ := bind_eq_ok.mp h
  cases hpure
  obtain ⟨others, hothers⟩ : ∃ keys, keys =
      distinct ((factors.flatMap (·.keys)).filter fun key => !frontals.elem key) := ⟨_, rfl⟩
  rw [← hothers] at hplaced
  have hall : List.Forall₂ (fun key row => row.2 = key ∧ position.get? key = some row.1)
      others placed := by
    refine (mapM_eq_ok_iff.mp hplaced).imp fun key row hrow => ?_
    obtain ⟨place, hfind, rfl⟩ := map_eq_ok.mp hrow
    exact ⟨rfl, Table.find_eq_ok.mp hfind⟩
  have hkeys : placed.map Prod.snd = others := by
    clear hplaced hothers h
    induction hall with
    | nil => rfl
    | cons hhead _ ih => rw [List.map_cons, hhead.1, ih]
  have hplace : ∀ row ∈ placed, position.get? row.2 = some row.1 := by
    intro row hrow
    obtain ⟨key, -, hkey⟩ := exists_of_mem_mapM hplaced hrow
    obtain ⟨place, hfind, rfl⟩ := map_eq_ok.mp hkey
    exact Table.find_eq_ok.mp hfind
  have hperm := (List.mergeSort_perm placed fun a b => decide (a.1 ≤ b.1)).map Prod.snd
  rw [hkeys] at hperm
  refine ⟨hperm.nodup_iff.mpr (hothers ▸ nodup_distinct _), fun key => ?_, ?_⟩
  · rw [hperm.mem_iff, hothers, mem_distinct, List.mem_filter, List.mem_flatMap]
    simp [and_comm]
  · have hsorted : (placed.mergeSort fun a b => decide (a.1 ≤ b.1)).Pairwise
        fun a b => decide (a.1 ≤ b.1) = true :=
      List.pairwise_mergeSort (fun a b c hab hbc => by simp only [decide_eq_true_eq] at *; omega)
        (fun a b => by simp only [Bool.or_eq_true, decide_eq_true_eq]; omega) placed
    rw [List.pairwise_map]
    refine hsorted.imp_of_mem fun ha hb hle => ?_
    exact ⟨_, _, hplace _ (List.mem_mergeSort.mp ha), hplace _ (List.mem_mergeSort.mp hb),
      by simpa using hle⟩

theorem separatorOf_covers {separator : List Key}
    (h : separatorOf factors frontals position = .ok separator) (hnodup : frontals.Nodup) :
    (frontals ++ separator).Nodup ∧
      ∀ f ∈ factors, ∀ key ∈ f.keys, key ∈ frontals ++ separator := by
  obtain ⟨hsepNodup, hsepMem, -⟩ := separatorOf_eq_ok h
  constructor
  · rw [List.nodup_append]
    refine ⟨hnodup, hsepNodup, ?_⟩
    rintro a ha b hb rfl
    exact ((hsepMem a).mp hb).1 ha
  · intro f hf key hkey
    rw [List.mem_append, hsepMem]
    by_cases hfront : key ∈ frontals
    · exact Or.inl hfront
    · exact Or.inr ⟨hfront, f, hf, hkey⟩

theorem separatorOf_exists (frontals : List Key)
    (h : ∀ f ∈ factors, ∀ key ∈ f.keys, ∃ i, position.get? key = some i) :
    ∃ separator, separatorOf factors frontals position = .ok separator := by
  have hplaced : ∀ key ∈ distinct ((factors.flatMap (·.keys)).filter fun key => !frontals.elem key),
      ((position.find key).map fun place => (place, key)) =
        .ok ((position.get? key).getD 0, key) := by
    intro key hkey
    rw [mem_distinct, List.mem_filter, List.mem_flatMap] at hkey
    obtain ⟨⟨f, hf, hkey⟩, -⟩ := hkey
    obtain ⟨i, hi⟩ := h f hf key hkey
    rw [Table.find_eq_ok.mpr hi, hi]
    rfl
  simp only [separatorOf, mapM_eq_ok_map hplaced]
  exact ⟨_, rfl⟩

/-! ### The course of an elimination -/

/-- What an elimination computes on the way. -/
structure Course (α : Type) where
  separator : List Key
  columns : Table ℕ
  width : ℕ
  frontWidth : ℕ
  stacked : List (List (Vec α))
  greatest : α

namespace Course

variable [Scalar α] (t : Course α)

/-- The triangular form of the stacked matrix. -/
def reduced : Mat α := Triangular.reduce ⟨t.width + 1, t.stacked.flatten⟩

/-- The rows of the triangular form that solve for the eliminated variables. -/
def upper : Mat α := t.reduced.top t.frontWidth

/-- The rows of the triangular form that are about the separator. -/
def lower : Mat α := t.reduced.below t.frontWidth

/-- The conditional that the upper rows are read as. -/
def conditional (frontals : List Key) (dims : Table ℕ) : Conditional α where
  frontals := frontals
  separator := t.separator
  dims := dims
  triangle := t.upper.columns 0 t.frontWidth
  coupling := t.upper.columns t.frontWidth (t.width - t.frontWidth)
  rhs := (t.upper.columns t.width 1).entries

/-- The steps of an elimination up to the stacked rows. -/
structure Formed (factors : List (LinearFactor α)) (frontals : List Key)
    (dims position : Table ℕ) : Prop where
  separator_eq : separatorOf factors frontals position = .ok t.separator
  columns_eq : columnOffsets dims (frontals ++ t.separator) = .ok (t.columns, t.width)
  front_eq : ∃ columns, columnOffsets dims frontals = .ok (columns, t.frontWidth)
  stacked_eq : factors.mapM (stackedRows dims t.columns t.width) = .ok t.stacked

/-- The steps of an elimination whose pivots are all large enough. -/
structure Succeeds (factors : List (LinearFactor α)) (frontals : List Key)
    (dims position : Table ℕ) : Prop extends t.Formed factors frontals dims position where
  height_le : t.frontWidth ≤ total (factors.map (·.rows))
  greatest_eq : Vec.maxAbs? t.stacked.flatten.flatten = some t.greatest
  pivots : ∀ pivot ∈ t.upper.diagonal,
    ¬ Scalar.abs pivot ≤ pivotTolerance * Scalar.largerOf 1 t.greatest

/-- What is left on the separator: no factor when there is no separator or no row, and else the
    lower rows, cut into the columns of the variables. -/
def Leaves (dims : Table ℕ) (u : Option (LinearFactor α)) : Prop :=
  (u = none ∧ (t.separator = [] ∨ t.lower.rows = [])) ∨
    (t.separator ≠ [] ∧ t.lower.rows ≠ [] ∧ ∃ blocks,
      u = some (.dense blocks (t.lower.columns t.width 1).entries) ∧
      List.Forall₂ (fun key entry => ∃ column dim, t.columns.get? key = some column ∧
        dims.get? key = some dim ∧ entry = (key, t.lower.columns column dim)) t.separator blocks)

end Course

variable [Scalar α] {dims : Table ℕ} {c : Conditional α} {u : Option (LinearFactor α)}

theorem eliminate_eq_ok (h : eliminate factors frontals dims position = .ok (c, u)) :
    ∃ t : Course α, t.Succeeds factors frontals dims position ∧ c = t.conditional frontals dims ∧
      t.Leaves dims u := by
  obtain ⟨separator, hseparator, h⟩ := bind_eq_ok.mp h
  obtain ⟨⟨columns, width⟩, hcolumns, h⟩ := bind_eq_ok.mp h
  obtain ⟨⟨fronts, frontWidth⟩, hfronts, h⟩ := bind_eq_ok.mp h
  simp only at h
  split at h
  · obtain ⟨key, -, h⟩ := bind_eq_ok.mp h
    obtain ⟨_, h, -⟩ := bind_eq_ok.mp h
    cases h
  · next hheight =>
    obtain ⟨stacked, hstacked, h⟩ := bind_eq_ok.mp h
    split at h
    · cases h
    · next greatest hgreatest =>
      split at h
      · obtain ⟨key, -, h⟩ := bind_eq_ok.mp h
        cases h
      · next hpivots =>
        obtain ⟨t, ht⟩ : ∃ t : Course α,
            t = ⟨separator, columns, width, frontWidth, stacked, greatest⟩ := ⟨_, rfl⟩
        have hsucceeds : t.Succeeds factors frontals dims position := by
          subst ht
          refine ⟨⟨hseparator, hcolumns, ⟨fronts, hfronts⟩, hstacked⟩, not_lt.mp hheight, hgreatest,
            fun pivot hpivot => ?_⟩
          simpa using List.findIdx?_eq_none_iff.mp hpivots pivot hpivot
        split at h
        · next hempty =>
          cases h
          refine ⟨t, hsucceeds, by rw [ht]; rfl, Or.inl ⟨rfl, ?_⟩⟩
          subst ht
          simpa [Course.lower, Course.reduced] using hempty
        · next hempty =>
          obtain ⟨blocks, hblocks, h⟩ := bind_eq_ok.mp h
          cases h
          refine ⟨t, hsucceeds, by rw [ht]; rfl, Or.inr ⟨?_, ?_, blocks, by rw [ht]; rfl, ?_⟩⟩
          · subst ht
            rintro rfl
            simp at hempty
          · subst ht
            intro hrows
            simp only [Course.lower, Course.reduced] at hrows
            simp [hrows] at hempty
          · subst ht
            refine (mapM_eq_ok_iff.mp hblocks).imp fun key entry hentry => ?_
            obtain ⟨column, hcolumn, hentry⟩ := bind_eq_ok.mp hentry
            obtain ⟨dim, hdim, hentry⟩ := bind_eq_ok.mp hentry
            cases hentry
            exact ⟨column, dim, Table.find_eq_ok.mp hcolumn, Table.find_eq_ok.mp hdim, rfl⟩

theorem Course.Leaves.eq_none_iff {t : Course α} (h : t.Leaves dims u) :
    u = none ↔ t.separator = [] ∨ t.lower.rows = [] := by
  rcases h with ⟨rfl, hempty⟩ | ⟨hne, hrows, blocks, rfl, -⟩
  · exact ⟨fun _ => hempty, fun _ => rfl⟩
  · simp [hne, hrows]

theorem Course.Leaves.keys_eq {t : Course α} {f : LinearFactor α} (h : t.Leaves dims (some f)) :
    t.separator ≠ [] ∧ f.keys = t.separator := by
  rcases h with ⟨h, -⟩ | ⟨hne, -, blocks, hf, hblocks⟩
  · cases h
  · refine ⟨hne, ?_⟩
    rw [Option.some.inj hf]
    show Table.keys blocks = t.separator
    clear hf hne
    generalize t.separator = separator at hblocks
    induction hblocks with
    | nil => rfl
    | cons hhead _ ih =>
      obtain ⟨column, dim, -, -, rfl⟩ := hhead
      exact congrArg _ ih

/-- **The keys of an elimination that returns**, over any arithmetic: the conditional names the
    eliminated variables and the separator, and a factor that is left is on the separator. -/
theorem eliminate_keys (h : eliminate factors frontals dims position = .ok (c, u)) :
    c.frontals = frontals ∧ c.dims = dims ∧
      separatorOf factors frontals position = .ok c.separator ∧
      ∀ f, u = some f → c.separator ≠ [] ∧ f.keys = c.separator := by
  obtain ⟨t, ht, rfl, hleaves⟩ := eliminate_eq_ok h
  refine ⟨rfl, rfl, ht.separator_eq, ?_⟩
  rintro f rfl
  exact hleaves.keys_eq

theorem eliminate_sized (h : eliminate factors frontals dims position = .ok (c, u)) :
    ∀ key ∈ c.frontals, ∃ n, c.dims.get? key = some n := by
  obtain ⟨t, ht, rfl, -⟩ := eliminate_eq_ok h
  exact fun key hkey => (columnOffsets_eq_ok ht.columns_eq).1 key (List.mem_append_left _ hkey)

end Elimination

end LeastSquares
