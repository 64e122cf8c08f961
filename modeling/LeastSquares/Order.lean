/-
  LeastSquares/Order.lean
  =======================
  **Elimination orders: every variable once, at a position.**
-/
import LeastSquares.Table

namespace LeastSquares

/-- A sequence of variables for elimination. -/
structure EliminationOrder where
  /-- The variables, first to be eliminated first. -/
  keys : List Key
deriving DecidableEq, Repr

namespace EliminationOrder

/-- The first item of a list that stands in it a second time, at that second place. -/
def firstRepeated (seen : List Key) : List Key → Option Key
  | [] => none
  | key :: rest => if seen.elem key then some key else firstRepeated (key :: seen) rest

/-- The order of given variables, none of which may come twice. -/
def ofKeys (keys : List Key) : Except Error EliminationOrder :=
  match firstRepeated [] keys with
  | some key => .error (.repeatedInOrder key)
  | none => .ok ⟨keys⟩

/-- Nothing stands in a list for a second time exactly when its items are all different and
    none of them was seen before. -/
theorem firstRepeated_eq_none_iff (seen keys : List Key) :
    firstRepeated seen keys = none ↔ keys.Nodup ∧ ∀ key ∈ keys, key ∉ seen := by
  induction keys generalizing seen with
  | nil => simp [firstRepeated]
  | cons key rest ih =>
    by_cases h : key ∈ seen
    · simp [firstRepeated, h]
    · simp only [firstRepeated, List.elem_eq_mem, h, decide_false, Bool.false_eq_true, if_false,
        ih, List.mem_cons, List.nodup_cons, not_or, forall_eq_or_imp, not_false_eq_true, true_and]
      grind

/-- The variables of an order are those it was made of, and they are all different. -/
theorem ofKeys_eq_ok_iff (keys : List Key) (o : EliminationOrder) :
    ofKeys keys = .ok o ↔ o.keys = keys ∧ keys.Nodup := by
  have none_iff := firstRepeated_eq_none_iff [] keys
  unfold ofKeys
  split
  · next h => simp [h] at none_iff; simp [none_iff]
  · next h =>
    simp only [h, true_iff] at none_iff
    obtain ⟨listed⟩ := o
    simp only [Except.ok.injEq, mk.injEq, none_iff.1, and_true]
    exact eq_comm

def size (o : EliminationOrder) : Nat := o.keys.length

def contains (o : EliminationOrder) (key : Key) : Bool := o.keys.elem key

def positions (o : EliminationOrder) : Table Nat := o.keys.zipIdx

def index (o : EliminationOrder) (key : Key) : Except Error Nat := o.positions.find key

/-- The variable at a position; a negative position counts from the end. -/
def get (o : EliminationOrder) (position : Int) : Except Error Key := itemAt o.keys position

/-- The order has to list exactly the given variables. -/
def validate (o : EliminationOrder) (keys : List Key) : Except Error Unit :=
  let missing := (distinct keys).filter fun key => !o.contains key
  let unexpected := o.keys.filter fun key => !keys.elem key
  if missing.isEmpty && unexpected.isEmpty then .ok ()
  else .error (.notBijection missing unexpected)

def shown (o : EliminationOrder) : String := s!"Ordering({Key.shownList o.keys})"

end EliminationOrder

end LeastSquares
