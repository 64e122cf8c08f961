/-
  LeastSquares/Table.lean
  =======================
  **Tables from keys to entries, in order of insertion.**

  A table is the list of its rows.  Writing to a key that is there replaces the entry where it
  stands; writing to a new key puts a row at the end.  The list is the view that everything is
  stated about, so a table needs no other.
-/
import LeastSquares.Error

namespace LeastSquares

/-- Rows of a key and its entry, oldest first. -/
abbrev Table (β : Type) := List (Key × β)

namespace Table

variable {β γ : Type}

def keys (t : Table β) : List Key := t.map Prod.fst

def get? (t : Table β) (key : Key) : Option β := t.lookup key

/-- The entry of a key that has to be there. -/
def find (t : Table β) (key : Key) : Except Error β :=
  match t.get? key with
  | some entry => .ok entry
  | none => .error .absentKey

def contains (t : Table β) (key : Key) : Bool := t.keys.elem key

/-- Write an entry: in place when the key is there, at the end when it is new. -/
def set (t : Table β) (key : Key) (entry : β) : Table β :=
  match t with
  | [] => [(key, entry)]
  | row :: rest => if row.1 = key then (key, entry) :: rest else row :: set rest key entry

def erase (t : Table β) (key : Key) : Table β := t.filter (·.1 ≠ key)

def modify (t : Table β) (key : Key) (f : β → β) : Table β :=
  t.map fun row => if row.1 = key then (row.1, f row.2) else row

def mapEntries (t : Table β) (f : β → γ) : Table γ := t.map fun row => (row.1, f row.2)

/-- The table of given rows, where a repeated key keeps its first place and its last entry. -/
def ofRows (rows : List (Key × β)) : Table β :=
  rows.foldl (fun t row => t.set row.1 row.2) []

/-- The key of a written row is found with its new entry, and every other as before. -/
theorem get?_set (t : Table β) (key other : Key) (entry : β) :
    (t.set key entry).get? other = if other = key then some entry else t.get? other := by
  induction t with
  | nil =>
    by_cases h : other = key
    · simp [set, get?, h]
    · have : (other == key) = false := by simpa using h
      simp [set, get?, List.lookup_cons, h, this]
  | cons row rest ih =>
    obtain ⟨k, b⟩ := row
    simp only [get?] at ih
    by_cases hk : k = key
    · subst hk
      by_cases ho : other = k
      · simp [set, get?, ho]
      · have : (other == k) = false := by simpa using ho
        simp [set, get?, List.lookup_cons, ho, this]
    · by_cases hok : other = k
      · subst hok
        simp [set, get?, hk]
      · have : (other == k) = false := by simpa using hok
        simp [set, get?, List.lookup_cons, hk, this, ih]

theorem contains_iff (t : Table β) (key : Key) : t.contains key = true ↔ key ∈ t.keys := by
  simp [contains]

theorem keys_set_of_mem {t : Table β} {key : Key} (h : key ∈ t.keys) (entry : β) :
    (t.set key entry).keys = t.keys := by
  induction t with
  | nil => simp [keys] at h
  | cons row rest ih =>
    by_cases hk : row.1 = key
    · simp [set, keys, hk]
    · have hr : key ∈ Table.keys rest := by
        simp only [keys, List.map_cons, List.mem_cons] at h
        exact h.resolve_left fun e => hk e.symm
      simp only [set, hk, if_false, keys, List.map_cons]
      exact congrArg _ (ih hr)

theorem keys_set_of_not_mem {t : Table β} {key : Key} (h : key ∉ t.keys) (entry : β) :
    (t.set key entry).keys = t.keys ++ [key] := by
  induction t with
  | nil => rfl
  | cons row rest ih =>
    simp only [keys, List.map_cons, List.mem_cons, not_or] at h
    have hk : ¬ row.1 = key := fun e => h.1 e.symm
    simp only [set, hk, if_false, keys, List.map_cons, List.cons_append]
    exact congrArg _ (ih h.2)

end Table

/-- A table of sizes, none of which may be negative. -/
def sizes (t : Table Int) : Except Error (Table Nat) :=
  if t.any fun row => decide (row.2 < 0) then .error .negativeSize
  else .ok (t.mapEntries Int.toNat)

/-- The item at a place of a list; a negative place counts from the end. -/
def itemAt {β : Type} (items : List β) (place : Int) : Except Error β :=
  let index := if place < 0 then place + items.length else place
  if index < 0 then .error .outOfRange
  else
    match items[index.toNat]? with
    | some item => .ok item
    | none => .error .outOfRange

/-- The keys of a list without repetitions, at their first places. -/
def distinct (keys : List Key) : List Key :=
  keys.foldl (fun seen key => if seen.elem key then seen else seen ++ [key]) []

end LeastSquares
