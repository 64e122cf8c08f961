/-
  LeastSquares/Sorting/Merge.lean
  ===============================
  **Two neighbouring runs are merged.**

  Items at the outer ends that are in place already stay there.  The rest is merged from the
  front when the first run is the shorter one, and from the back otherwise.  Items are taken
  one by one at first; when one run has won often enough in a row, the length of its next
  stretch is searched for in growing strides, and this goes on while such stretches are long.
  How often is often enough is remembered from one merge to the next.
-/
namespace LeastSquares

namespace Sorting

variable {β : Type}

/-! ### Searching in strides -/

/-- Halve a range of numbers of items until one is left, by whether the item behind so many is
    taken too.  In a list that is read from its end halves are rounded the other way.  The
    first argument bounds the length of the range. -/
def settle (reversed : Bool) (takes : β → Bool) (items : List β) : Nat → Nat → Nat → Nat
  | 0, low, _ => low
  | length + 1, low, high =>
    if low < high then
      let middle := low + (high - low - (if reversed then 1 else 0)) / 2
      if items[middle]?.any takes then settle reversed takes items length (middle + 1) high
      else settle reversed takes items length low middle
    else low

/-- Double the stride, and one more, as long as the item at its end is taken; then settle the
    number of items between the last stride and this one. -/
def stride (reversed : Bool) (takes : β → Bool) (items : List β) : Nat → Nat → Nat → Nat
  | 0, last, _ => last
  | bound + 1, last, length =>
    if items[length]?.any takes then stride reversed takes items bound length (2 * length + 1)
    else settle reversed takes items items.length (last + 1) (min length items.length)

def countTaken (reversed : Bool) (takes : β → Bool) (items : List β) : Nat :=
  if items.head?.any takes then stride reversed takes items items.length 0 1 else 0

/-! ### Merging -/

/-- A merge on its way: what is merged so far, the last item first, and what is left of both
    runs.  The last item of the held run stays for the end. -/
structure Merge (β : Type) where
  /-- The merged items, the last one first. -/
  merged : List β
  held : List β
  other : List β

namespace Merge

def isDone (s : Merge β) : Bool :=
  match s.held, s.other with
  | _ :: _ :: _, _ :: _ => false
  | _, _ => true

/-- All items, when nothing is left to compare. -/
def finish (s : Merge β) : List β := s.merged.reverse ++ s.other ++ s.held

def takeHeld (count : Nat) (s : Merge β) : Merge β :=
  ⟨(s.held.take count).reverse ++ s.merged, s.held.drop count, s.other⟩

def takeOther (count : Nat) (s : Merge β) : Merge β :=
  ⟨(s.other.take count).reverse ++ s.merged, s.held, s.other.drop count⟩

/-- Take items one by one until one run has won so often in a row; `wins y x` tells that `y` of
    the other run comes before `x` of the held one. -/
def oneByOne (wins : β → β → Bool) (often : Nat) : Nat → Nat → Nat → Merge β → Merge β
  | 0, _, _, s => s
  | fuel + 1, heldWins, otherWins, s =>
    match s.held, s.other with
    | x :: _, y :: _ =>
      if wins y x then
        let s := s.takeOther 1
        if s.isDone || often ≤ otherWins + 1 then s
        else oneByOne wins often fuel 0 (otherWins + 1) s
      else
        let s := s.takeHeld 1
        if s.isDone || often ≤ heldWins + 1 then s
        else oneByOne wins often fuel (heldWins + 1) 0 s
    | _, _ => s

/-- Take the stretch of the held run that comes before the other one, and then one item of
    that. -/
def heldStretch (reversed : Bool) (wins : β → β → Bool) (s : Merge β) : Nat × Merge β :=
  match s.other with
  | [] => (0, s)
  | y :: _ =>
    let count := countTaken reversed (fun x => !wins y x) s.held
    let s := s.takeHeld count
    (count, if s.isDone then s else s.takeOther 1)

/-- Take the stretch of the other run that comes before the held one, and then one item of
    that. -/
def otherStretch (reversed : Bool) (wins : β → β → Bool) (s : Merge β) : Nat × Merge β :=
  match s.held with
  | [] => (0, s)
  | x :: _ =>
    let count := countTaken reversed (fun y => wins y x) s.other
    let s := s.takeOther count
    (count, if s.isDone then s else s.takeHeld 1)

def takeStretch (reversed ofHeld : Bool) (wins : β → β → Bool) (s : Merge β) : Nat × Merge β :=
  if ofHeld then heldStretch reversed wins s else otherStretch reversed wins s

/-- A stretch that is shorter does not speak for searching. -/
def longStretch : Nat := 7

/-- Take stretches of both runs in turn, as long as one of two is long: of the held run first,
    unless the runs are read from their ends.  Each round makes it easier to start searching, and
    leaving makes it harder. -/
def byStretches (reversed : Bool) (wins : β → β → Bool) : Nat → Nat → Merge β → Nat × Merge β
  | 0, often, s => (often, s)
  | fuel + 1, often, s =>
    let often := if 1 < often then often - 1 else often
    let first := takeStretch reversed (!reversed) wins s
    if first.2.isDone then (often, first.2)
    else
      let second := takeStretch reversed reversed wins first.2
      if second.2.isDone then (often, second.2)
      else if longStretch ≤ first.1 || longStretch ≤ second.1 then
        byStretches reversed wins fuel often second.2
      else (often + 1, second.2)

/-- Take items one by one and by stretches in turn until nothing is left to compare. -/
def alternate (reversed : Bool) (wins : β → β → Bool) : Nat → Nat → Merge β → Nat × List β
  | 0, often, s => (often, s.finish)
  | fuel + 1, often, s =>
    if s.isDone then (often, s.finish)
    else
      let s := oneByOne wins often (s.held.length + s.other.length) 0 0 s
      if s.isDone then (often, s.finish)
      else
        let (often, s) :=
          byStretches reversed wins (s.held.length + s.other.length) (often + 1) s
        alternate reversed wins fuel often s

/-- Merge two runs in reading order, where the first item of the other run is known to come
    first. -/
def run (reversed : Bool) (wins : β → β → Bool) (often : Nat) (held other : List β) :
    Nat × List β :=
  alternate reversed wins (held.length + other.length) often (takeOther 1 ⟨[], held, other⟩)

end Merge

/-- Merge two neighbouring runs; the number tells how often in a row a run has to win before
    stretches are searched for. -/
def mergeRuns (below : β → β → Bool) (often : Nat) (first second : List β) : Nat × List β :=
  match second with
  | [] => (often, first)
  | y :: _ =>
    let early := countTaken false (fun x => !below y x) first
    match (first.drop early).getLast? with
    | none => (often, first ++ second)
    | some x =>
      let kept := second.length - countTaken true (fun y => !below y x) second.reverse
      let left := first.drop early
      let right := second.take kept
      if right.isEmpty then (often, first ++ second)
      else
        let (often, middle) :=
          if left.length ≤ right.length then Merge.run false below often left right
          else
            let (often, turned) := Merge.run true (fun y x => below x y) often right.reverse
              left.reverse
            (often, turned.reverse)
        (often, first.take early ++ middle ++ second.drop kept)

/-! ### Nothing is lost -/

namespace Merge

def items (s : Merge β) : List β := s.merged ++ s.held ++ s.other

theorem finish_perm (s : Merge β) : s.finish.Perm s.items := by
  simp only [finish, items, List.append_assoc]
  exact (List.reverse_perm _).append List.perm_append_comm

theorem takeHeld_perm (count : Nat) (s : Merge β) : (s.takeHeld count).items.Perm s.items := by
  simp only [takeHeld, items]
  refine List.Perm.append_right _ ?_
  refine (((List.reverse_perm _).append_right _).append_right _).trans ?_
  refine (List.perm_append_comm.append_right _).trans ?_
  rw [List.append_assoc, List.take_append_drop]

theorem takeOther_perm (count : Nat) (s : Merge β) : (s.takeOther count).items.Perm s.items := by
  simp only [takeOther, items, List.append_assoc]
  refine ((List.reverse_perm _).append_right _).trans ?_
  refine List.perm_append_comm.trans ?_
  rw [List.append_assoc, List.append_assoc]
  refine List.Perm.append_left _ (List.Perm.append_left _ ?_)
  refine List.perm_append_comm.trans ?_
  rw [List.take_append_drop]

theorem oneByOne_perm (wins : β → β → Bool) (often fuel heldWins otherWins : Nat)
    (s : Merge β) : (oneByOne wins often fuel heldWins otherWins s).items.Perm s.items := by
  induction fuel generalizing heldWins otherWins s with
  | zero => exact List.Perm.refl _
  | succ fuel ih =>
    simp only [oneByOne]
    split
    · split
      · split
        · exact takeOther_perm 1 s
        · exact (ih _ _ _).trans (takeOther_perm 1 s)
      · split
        · exact takeHeld_perm 1 s
        · exact (ih _ _ _).trans (takeHeld_perm 1 s)
    · exact List.Perm.refl _

theorem heldStretch_perm (reversed : Bool) (wins : β → β → Bool) (s : Merge β) :
    (heldStretch reversed wins s).2.items.Perm s.items := by
  simp only [heldStretch]
  split
  · exact List.Perm.refl _
  · split
    · exact takeHeld_perm _ s
    · exact (takeOther_perm 1 _).trans (takeHeld_perm _ s)

theorem otherStretch_perm (reversed : Bool) (wins : β → β → Bool) (s : Merge β) :
    (otherStretch reversed wins s).2.items.Perm s.items := by
  simp only [otherStretch]
  split
  · exact List.Perm.refl _
  · split
    · exact takeOther_perm _ s
    · exact (takeHeld_perm 1 _).trans (takeOther_perm _ s)

theorem takeStretch_perm (reversed ofHeld : Bool) (wins : β → β → Bool) (s : Merge β) :
    (takeStretch reversed ofHeld wins s).2.items.Perm s.items := by
  unfold takeStretch
  split
  · exact heldStretch_perm reversed wins s
  · exact otherStretch_perm reversed wins s

theorem byStretches_perm (reversed : Bool) (wins : β → β → Bool) (fuel often : Nat)
    (s : Merge β) : (byStretches reversed wins fuel often s).2.items.Perm s.items := by
  induction fuel generalizing often s with
  | zero => exact List.Perm.refl _
  | succ fuel ih =>
    have one := fun ofHeld s => takeStretch_perm reversed ofHeld wins s
    simp only [byStretches]
    split
    · exact one _ s
    · split
      · exact (one _ _).trans (one _ s)
      · split
        · exact (ih _ _).trans ((one _ _).trans (one _ s))
        · exact (one _ _).trans (one _ s)

theorem alternate_perm (reversed : Bool) (wins : β → β → Bool) (fuel often : Nat)
    (s : Merge β) : (alternate reversed wins fuel often s).2.Perm s.items := by
  induction fuel generalizing often s with
  | zero => exact finish_perm s
  | succ fuel ih =>
    simp only [alternate]
    split
    · exact finish_perm s
    · split
      · exact (finish_perm _).trans (oneByOne_perm _ _ _ _ _ s)
      · exact (ih _ _).trans ((byStretches_perm _ _ _ _ _).trans (oneByOne_perm _ _ _ _ _ s))

theorem run_perm (reversed : Bool) (wins : β → β → Bool) (often : Nat) (held other : List β) :
    (run reversed wins often held other).2.Perm (held ++ other) :=
  (alternate_perm reversed wins _ often _).trans (takeOther_perm 1 ⟨[], held, other⟩)

end Merge

theorem mergeRuns_perm (below : β → β → Bool) (often : Nat) (first second : List β) :
    (mergeRuns below often first second).2.Perm (first ++ second) := by
  have frame : ∀ (a b c d middle : List β), middle.Perm (b ++ c) →
      (a ++ middle ++ d).Perm ((a ++ b) ++ (c ++ d)) := by
    intro a b c d middle h
    have inner := (h.append_left a).append_right d
    simpa only [List.append_assoc] using inner
  unfold mergeRuns
  split
  · simp
  · simp only
    split
    · exact List.Perm.refl _
    · split
      · exact List.Perm.refl _
      · next y ys _ x _ _ =>
        have parts := frame
          (first.take (countTaken false (fun x => !below y x) first))
          (first.drop (countTaken false (fun x => !below y x) first))
          ((y :: ys).take ((y :: ys).length -
            countTaken true (fun y => !below y x) (y :: ys).reverse))
          ((y :: ys).drop ((y :: ys).length -
            countTaken true (fun y => !below y x) (y :: ys).reverse))
        rw [List.take_append_drop, List.take_append_drop] at parts
        refine parts _ ?_
        split
        · exact Merge.run_perm _ _ _ _ _
        · refine (List.reverse_perm _).trans ((Merge.run_perm _ _ _ _ _).trans ?_)
          refine List.perm_append_comm.trans ?_
          exact (List.reverse_perm _).append (List.reverse_perm _)

end Sorting

end LeastSquares
