/-
  LeastSquares/Values.lean
  ========================
  **Estimates: a vector for each variable, in order of insertion.**

  A variable is inserted once and keeps its size from then on.  Moving an estimate by a step
  gives a new estimate; variables that the step does not name stay where they are.
-/
import LeastSquares.Delta

namespace LeastSquares

structure Values (α : Type) where
  /-- The vectors of the variables, oldest first. -/
  entries : Table (Vec α)
deriving Repr

namespace Values

variable {α : Type} [Scalar α]

def empty : Values α := ⟨[]⟩

def keys (v : Values α) : List Key := v.entries.keys

def contains (v : Values α) (key : Key) : Bool := v.entries.contains key

def insert (v : Values α) (key : Key) (value : Given α) : Except Error (Values α) :=
  if v.contains key then .error (.duplicateVariable key)
  else do
    let xs ← value.vectorFor key
    return ⟨v.entries ++ [(key, xs)]⟩

def ofRows (rows : List (Key × Given α)) : Except Error (Values α) :=
  rows.foldlM (fun v row => v.insert row.1 row.2) empty

/-- The same variables and vectors once more, inserted one by one. -/
def copy (v : Values α) : Except Error (Values α) :=
  ofRows (v.entries.map fun row => (row.1, .ofVector row.2))

theorem keys_of_insert {v w : Values α} {key : Key} {value : Given α}
    (h : v.insert key value = .ok w) : w.keys = v.keys ++ [key] := by
  unfold insert at h
  split at h
  · cases h
  · cases hx : value.vectorFor key with
    | error e => simp [hx, bind, Except.bind] at h
    | ok xs =>
      simp only [hx, bind, Except.bind, pure, Except.pure, Except.ok.injEq] at h
      subst h
      simp [keys, Table.keys]

def update (v : Values α) (key : Key) (value : Given α) : Except Error (Values α) :=
  match v.entries.get? key with
  | none => .error (.unknownVariable key)
  | some old => do
    let xs ← value.vectorFor key
    if xs.length = old.length then return ⟨v.entries.set key xs⟩
    else throw (.resized key xs.length old.length)

def get (v : Values α) (key : Key) : Except Error (Vec α) := v.entries.find key

def size (v : Values α) : Nat := v.entries.length

def dim (v : Values α) (key : Key) : Except Error Nat := (v.get key).map (·.length)

def dims (v : Values α) : Table Nat := v.entries.mapEntries (·.length)

def totalDim (v : Values α) : Nat := total (v.entries.map (·.2.length))

def shown (number : α → String) (v : Values α) : String :=
  "Values(" ++ Table.shown (fun xs => Text.bracketed (xs.map number)) v.entries ++ ")"

def moved (delta : Delta α) (key : Key) (xs : Vec α) : Except Error (Key × Vec α) :=
  match delta.blocks.get? key with
  | none => .ok (key, xs)
  | some step =>
    if step.length = xs.length then .ok (key, Vec.add xs step)
    else .error (.stepSize key step.length xs.length)

def retract (v : Values α) (delta : Delta α) : Except Error (Values α) :=
  (v.entries.mapM fun row => moved delta row.1 row.2).map Values.mk

theorem moved_eq_ok {delta : Delta α} {key : Key} {xs : Vec α} {row : Key × Vec α}
    (h : moved delta key xs = .ok row) : row.1 = key ∧ row.2.length = xs.length := by
  unfold moved at h
  split at h
  · cases h
    exact ⟨rfl, rfl⟩
  · split at h
    · next hs =>
      cases h
      exact ⟨rfl, by simp [Vec.add, hs]⟩
    · cases h

/-- Moving an estimate keeps its variables, their order and their sizes. -/
theorem dims_of_retract {v w : Values α} {delta : Delta α} (h : v.retract delta = .ok w) :
    w.dims = v.dims := by
  obtain ⟨entries⟩ := v
  obtain ⟨others⟩ := w
  simp only [retract] at h
  induction entries generalizing others with
  | nil =>
    simp only [List.mapM_nil, pure, Except.pure, Except.map, Except.ok.injEq, mk.injEq] at h
    subst h
    rfl
  | cons row rest ih =>
    rw [List.mapM_cons] at h
    cases hr : moved delta row.1 row.2 with
    | error e => simp [hr, bind, Except.bind, Except.map] at h
    | ok first =>
      cases hs : rest.mapM fun row => moved delta row.1 row.2 with
      | error e => simp [hr, hs, bind, Except.bind, Except.map] at h
      | ok later =>
        simp only [hr, hs, bind, Except.bind, pure, Except.pure, Except.map, Except.ok.injEq,
          mk.injEq] at h
        subst h
        have same := ih later (by simp [hs, Except.map])
        obtain ⟨hkey, hlength⟩ := moved_eq_ok hr
        simp only [dims, Table.mapEntries, List.map_cons] at same ⊢
        rw [hkey, hlength, same]

def sameKeys (keys others : List Key) : Bool := keys.all others.elem && others.all keys.elem

/-- The same variables, with vectors that agree up to an absolute tolerance, which is read only
    when vectors of one length are compared. -/
def agrees (v w : Values α) (tolerance : Given α) : Except Error Bool :=
  if sameKeys v.keys w.keys then
    v.entries.allM fun row =>
      match w.entries.get? row.1 with
      | none => .ok false
      | some other =>
        if row.2.length = other.length then
          Tensor.close tolerance (.real 0.0) (.ofVector row.2) (.ofVector other)
        else .ok false
  else .ok false

end Values

end LeastSquares
