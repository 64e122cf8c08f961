/-
  LeastSquares/Sorting.lean
  =========================
  **Sorting by runs, with a comparison that need not be an order.**

  A list is cut into runs, and neighbouring runs are merged.  Which runs are merged first
  follows from the places of the runs: the list is halved again and again, and the power of the
  border between two runs is the number of halvings until one falls between their middles.  A
  border of higher power goes first.

  With a linear order this is the one stable way of sorting.  With values that compare with
  nothing it is still a definite order: the comparisons that are made, and so the places, depend
  on nothing else.
-/
import LeastSquares.Sorting.Merge
import LeastSquares.Sorting.Run

namespace LeastSquares

namespace Sorting

variable {β : Type}

/-! ### The order of merges -/

/-- The length below which a list is one run, so that merges are balanced: the first six binary
    digits of the number of items, rounded up. -/
def leastLength : Nat → Nat → Nat → Nat
  | 0, count, rounding => count + rounding
  | fuel + 1, count, rounding =>
    if count < 64 then count + rounding
    else leastLength fuel (count / 2) (max rounding (count % 2))

/-- The number of halvings of a length until twice a first place is below it and twice a second
    one is not; both places are doubled at each step. -/
def halvings (length : Nat) : Nat → Nat → Nat → Nat
  | 0, _, _ => 1
  | fuel + 1, first, second =>
    if length ≤ first then
      1 + halvings length fuel (2 * (first - length)) (2 * (second - length))
    else if length ≤ second then 1
    else 1 + halvings length fuel (2 * first) (2 * second)

/-- The power of the border between two runs of a list, the first of which has a given start. -/
def power (length start first second : Nat) : Nat :=
  let middle := 2 * start + first
  halvings length length middle (middle + first + second)

/-- A run that waits to be merged, with the power of the border before it. -/
structure Pending (β : Type) where
  /-- The power of the border between the run and the one before it. -/
  power : Nat
  run : List β

/-- What is sorted so far: the runs that wait, the last one first, and how often in a row a run
    has to win before stretches are searched for. -/
abbrev Stack (β : Type) := Nat × List (Pending β)

/-- Merge the last run with those before it as long as the border has a higher power than a
    given one. -/
def collapse (below : β → β → Bool) (power : Nat) (often : Nat) (last : Pending β) :
    List (Pending β) → Stack β
  | [] => (often, [last])
  | before :: rest =>
    if power < last.power then
      let (often, merged) := mergeRuns below often before.run last.run
      collapse below power often ⟨before.power, merged⟩ rest
    else (often, last :: before :: rest)

/-- Put a new run, which starts at a place of a list, behind the others. -/
def push (below : β → β → Bool) (length start : Nat) (stack : Stack β) (run : List β) :
    Stack β :=
  match stack.2 with
  | [] => (stack.1, [⟨0, run⟩])
  | last :: rest =>
    let border := power length (start - last.run.length) last.run.length run.length
    let (often, waiting) := collapse below border stack.1 last rest
    (often, ⟨border, run⟩ :: waiting)

/-- Merge all runs that wait, the last ones first; a shorter last run waits for those before
    it.  The first argument bounds the number of merges. -/
def mergeAll (below : β → β → Bool) : Nat → Nat → List (List β) → List β
  | fuel + 1, often, c :: b :: a :: rest =>
    if a.length < c.length then
      let (often, merged) := mergeRuns below often a b
      mergeAll below fuel often (c :: merged :: rest)
    else
      let (often, merged) := mergeRuns below often b c
      mergeAll below fuel often (merged :: a :: rest)
  | _, often, [c, b] => (mergeRuns below often b c).2
  | _, _, runs => runs.reverse.flatten

/-- Cut a list into runs and put them behind each other; the first argument bounds their
    number. -/
def collect (below : β → β → Bool) (length least : Nat) : Nat → Nat → Stack β → List β → Stack β
  | 0, _, stack, _ => stack
  | fuel + 1, start, stack, items =>
    if items.isEmpty then stack
    else
      let (run, others) := nextRun below least items
      collect below length least fuel (start + run.length) (push below length start stack run)
        others

/-- How often in a row a run has to win at first before stretches are searched for. -/
def oftenAtFirst : Nat := Merge.longStretch

def sort (below : β → β → Bool) (items : List β) : List β :=
  let least := leastLength items.length items.length 0
  let (often, waiting) := collect below items.length least items.length 0 (oftenAtFirst, []) items
  mergeAll below waiting.length often (waiting.map (·.run))

/-- Sort a list so that the greatest items come first; items of which neither is below the other
    stay in order. -/
def sortDown (below : β → β → Bool) (items : List β) : List β :=
  (sort below items.reverse).reverse

/-! ### Nothing is lost -/

/-- The items of the runs that wait. -/
def Stack.items (stack : Stack β) : List β := (stack.2.map (·.run)).flatten

theorem collapse_perm (below : β → β → Bool) (power often : Nat) (last : Pending β)
    (rest : List (Pending β)) :
    (collapse below power often last rest).items.Perm (last.run ++ Stack.items (often, rest)) := by
  induction rest generalizing often last with
  | nil => simp [collapse, Stack.items]
  | cons before rest ih =>
    simp only [collapse]
    split
    · refine (ih _ _).trans ?_
      simp only [Stack.items, List.map_cons, List.flatten_cons]
      refine ((mergeRuns_perm below often before.run last.run).append_right _).trans ?_
      refine (List.perm_append_comm.append_right _).trans ?_
      rw [List.append_assoc]
    · simp [Stack.items]

theorem push_perm (below : β → β → Bool) (length start : Nat) (stack : Stack β) (run : List β) :
    (push below length start stack run).items.Perm (run ++ stack.items) := by
  obtain ⟨often, waiting⟩ := stack
  cases waiting with
  | nil => simp [push, Stack.items]
  | cons last rest =>
    have rests := collapse_perm below
      (power length (start - last.run.length) last.run.length run.length) often last rest
    simp only [push, Stack.items, List.map_cons, List.flatten_cons] at rests ⊢
    exact rests.append_left run

theorem collect_perm (below : β → β → Bool) (length least fuel start : Nat) (stack : Stack β)
    (items : List β) (h : items.length ≤ fuel) :
    (collect below length least fuel start stack items).items.Perm (stack.items ++ items) := by
  induction fuel generalizing start stack items with
  | zero =>
    cases items with
    | nil => simp [collect]
    | cons x items => simp at h
  | succ fuel ih =>
    cases items with
    | nil => simp [collect]
    | cons x items =>
      have parts := nextRun_perm below least (x :: items)
      have shorter : (nextRun below least (x :: items)).2.length ≤ fuel := by
        have sizes := parts.length_eq
        have some := nextRun_ne_nil below least x items
        rw [List.length_append] at sizes
        have := List.length_pos_iff.mpr some
        simp only [List.length_cons] at h sizes
        omega
      simp only [collect, List.isEmpty_cons, Bool.false_eq_true, if_false]
      refine (ih _ _ _ shorter).trans ?_
      refine ((push_perm below length start stack _).append_right _).trans ?_
      refine (List.perm_append_comm.append_right _).trans ?_
      rw [List.append_assoc]
      exact parts.append_left _

/-- Merging all runs that wait keeps all items. -/
theorem mergeAll_perm (below : β → β → Bool) (fuel often : Nat) (runs : List (List β)) :
    (mergeAll below fuel often runs).Perm runs.flatten := by
  fun_induction mergeAll below fuel often runs with
  | case1 fuel often c b a rest _ often' merged both ih =>
    have parts := mergeRuns_perm below often a b
    rw [both] at parts
    refine ih.trans ?_
    simp only [List.flatten_cons]
    refine List.Perm.append_left c ?_
    refine (parts.append_right _).trans ?_
    refine (List.perm_append_comm.append_right _).trans ?_
    rw [List.append_assoc]
  | case2 fuel often c b a rest _ often' merged both ih =>
    have parts := mergeRuns_perm below often b c
    rw [both] at parts
    refine ih.trans ?_
    simp only [List.flatten_cons]
    refine (parts.append_right _).trans ?_
    refine (List.perm_append_comm.append_right _).trans ?_
    rw [List.append_assoc]
  | case3 fuel often c b =>
    refine (mergeRuns_perm below often b c).trans ?_
    refine List.perm_append_comm.trans ?_
    simp
  | case4 fuel often runs => exact (List.reverse_perm runs).flatten

theorem sort_perm (below : β → β → Bool) (items : List β) : (sort below items).Perm items := by
  simp only [sort]
  refine (mergeAll_perm below _ _ _).trans ?_
  refine (collect_perm below _ _ _ _ _ items (Nat.le_refl _)).trans ?_
  simp [Stack.items]

theorem sortDown_perm (below : β → β → Bool) (items : List β) :
    (sortDown below items).Perm items :=
  (List.reverse_perm _).trans ((sort_perm below _).trans (List.reverse_perm _))

end Sorting

end LeastSquares
