/-
  LeastSquares/Sorting/Run.lean
  =============================
  **Runs: the stretches of a list that are sorted first.**

  A run starts with items that are ascending, or descending and then turned around.  When it is
  too short, further items are inserted, each at a place that is found by bisection.
-/
namespace LeastSquares

namespace Sorting

variable {β : Type}

/-! ### Natural runs -/

/-- Take further items as long as each is, or is not, below the one before; the items that are
    taken come out in reverse. -/
def runFrom (below : β → β → Bool) (descending : Bool) (last : β) (taken : List β) :
    List β → List β × List β
  | [] => (taken, [])
  | x :: rest =>
    if below x last = descending then runFrom below descending x (x :: taken) rest
    else (taken, x :: rest)

/-- The first run in ascending order, and what follows it. -/
def firstRun (below : β → β → Bool) : List β → List β × List β
  | [] => ([], [])
  | [x] => ([x], [])
  | x :: y :: rest =>
    let descending := below y x
    let (taken, others) := runFrom below descending y [y, x] rest
    (if descending then taken else taken.reverse, others)

/-! ### Insertion -/

/-- Halve the range of places of a new item until one is left; the first argument bounds the
    length of the range. -/
def bisect (below : β → β → Bool) (sorted : List β) (x : β) : Nat → Nat → Nat → Nat
  | 0, low, _ => low
  | length + 1, low, high =>
    if low < high then
      let middle := (low + high) / 2
      match sorted[middle]? with
      | some y =>
        if below x y then bisect below sorted x length low middle
        else bisect below sorted x length (middle + 1) high
      | none => low
    else low

def insert (below : β → β → Bool) (sorted : List β) (x : β) : List β :=
  let place := bisect below sorted x sorted.length 0 sorted.length
  sorted.take place ++ x :: sorted.drop place

/-- The first run, extended to a least length where there are items to insert, and what follows
    it. -/
def nextRun (below : β → β → Bool) (least : Nat) (items : List β) : List β × List β :=
  let (run, others) := firstRun below items
  let missing := least - run.length
  ((others.take missing).foldl (insert below) run, others.drop missing)

/-! ### Nothing is lost -/

theorem insert_perm (below : β → β → Bool) (sorted : List β) (x : β) :
    (insert below sorted x).Perm (x :: sorted) := by
  simp only [insert]
  refine List.perm_middle.trans ?_
  rw [List.take_append_drop]

theorem foldl_insert_perm (below : β → β → Bool) (others sorted : List β) :
    (others.foldl (insert below) sorted).Perm (sorted ++ others) := by
  induction others generalizing sorted with
  | nil => simp
  | cons x rest ih =>
    refine (ih (insert below sorted x)).trans ?_
    exact ((insert_perm below sorted x).append_right rest).trans List.perm_middle.symm

theorem runFrom_perm (below : β → β → Bool) (descending : Bool) (last : β) (taken items : List β) :
    ((runFrom below descending last taken items).1 ++
      (runFrom below descending last taken items).2).Perm (taken ++ items) := by
  induction items generalizing last taken with
  | nil => simp [runFrom]
  | cons x rest ih =>
    simp only [runFrom]
    split
    · exact (ih x (x :: taken)).trans List.perm_middle.symm
    · exact List.Perm.refl _

theorem firstRun_perm (below : β → β → Bool) (items : List β) :
    ((firstRun below items).1 ++ (firstRun below items).2).Perm items := by
  match items with
  | [] => exact List.Perm.refl _
  | [x] => exact List.Perm.refl _
  | x :: y :: rest =>
    have run := runFrom_perm below (below y x) y [y, x] rest
    have swapped : ([y, x] ++ rest).Perm (x :: y :: rest) := List.Perm.swap x y rest
    simp only [firstRun]
    split
    · exact run.trans swapped
    · exact ((List.reverse_perm _).append_right _).trans (run.trans swapped)

theorem nextRun_perm (below : β → β → Bool) (least : Nat) (items : List β) :
    ((nextRun below least items).1 ++ (nextRun below least items).2).Perm items := by
  simp only [nextRun]
  refine ((foldl_insert_perm below _ _).append_right _).trans ?_
  rw [List.append_assoc, List.take_append_drop]
  exact firstRun_perm below items

theorem firstRun_ne_nil (below : β → β → Bool) (x : β) (items : List β) :
    (firstRun below (x :: items)).1 ≠ [] := by
  have grows : ∀ (descending : Bool) (last : β) (taken items : List β), taken ≠ [] →
      (runFrom below descending last taken items).1 ≠ [] := by
    intro descending last taken items
    induction items generalizing last taken with
    | nil => exact id
    | cons y rest ih =>
      intro h
      simp only [runFrom]
      split
      · exact ih y (y :: taken) (List.cons_ne_nil y taken)
      · exact h
  match items with
  | [] => exact List.cons_ne_nil x []
  | y :: rest =>
    have h := grows (below y x) y [y, x] rest (List.cons_ne_nil y [x])
    simp only [firstRun]
    split
    · exact h
    · simpa using h

theorem foldl_insert_ne_nil (below : β → β → Bool) (others sorted : List β) (h : sorted ≠ []) :
    others.foldl (insert below) sorted ≠ [] := by
  intro empty
  have perm := foldl_insert_perm below others sorted
  rw [empty] at perm
  exact h (List.append_eq_nil_iff.mp perm.nil_eq.symm).1

theorem nextRun_ne_nil (below : β → β → Bool) (least : Nat) (x : β) (items : List β) :
    (nextRun below least (x :: items)).1 ≠ [] :=
  foldl_insert_ne_nil below _ _ (firstRun_ne_nil below x items)

end Sorting

end LeastSquares
