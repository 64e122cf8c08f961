/-
  LeastSquares/Tensor.lean
  ========================
  **Arrays of numbers of any number of axes.**

  Numbers arrive nested to any depth.  An array is regular when all parts at one level have one
  shape; it is then held by its shape and its numbers in row order.  A vector has one axis and
  a single number counts as a vector of one; a matrix has two, and a vector counts as one row.

  An elementwise operation lines up the last axes of two arrays; along each axis the lengths
  are equal, or one of them is one and is repeated, and an axis that only one operand has is
  its own.
-/
import LeastSquares.Given
import LeastSquares.Vec

namespace LeastSquares

/-- A regular array: the numbers in row order, with the length of each axis. -/
structure Tensor (α : Type) where
  /-- The length of each axis, outermost first. -/
  shape : List Nat
  data : List α
deriving Repr

namespace Tensor

variable {α β γ : Type}

def ofVector (xs : List α) : Tensor α := ⟨[xs.length], xs⟩

/-- An array without axes: a single number. -/
def single (x : α) : Tensor α := ⟨[], [x]⟩

def places (shape : List Nat) : Nat := shape.foldl (· * ·) 1

def cut (width : Nat) (data : List α) : Nat → List (List α)
  | 0 => []
  | count + 1 => data.take width :: cut width (data.drop width) count

def map (f : α → β) (t : Tensor α) : Tensor β := ⟨t.shape, t.data.map f⟩

def atLeastVector (t : Tensor α) : Tensor α := if t.shape.isEmpty then ⟨[1], t.data⟩ else t

/-- A single number gets two axes of length one, and a vector becomes one row. -/
def atLeastMatrix (t : Tensor α) : Tensor α :=
  match t.shape with
  | [] => ⟨[1, 1], t.data⟩
  | [n] => ⟨[1, n], t.data⟩
  | _ => t

/-- The numbers of an array with at most one axis. -/
def vector? (t : Tensor α) : Option (List α) :=
  if t.shape.length ≤ 1 then some t.data else none

def outerLength (t : Tensor α) : Nat := t.shape.headD 1

def parts (t : Tensor α) : List (Tensor α) :=
  (cut (places t.shape.tail) t.data t.outerLength).map fun data => ⟨t.shape.tail, data⟩

/-- The shape of parts that have one shape, under a new outer axis. -/
def stackShapes : List (List Nat) → Option (List Nat)
  | [] => some [0]
  | first :: rest =>
    if rest.all (· = first) then some ((rest.length + 1) :: first) else none

def stack (parts : List (Tensor α)) : Except Error (Tensor α) :=
  match stackShapes (parts.map (·.shape)) with
  | some shape =>
    if shape.length ≤ Given.mostAxes then .ok ⟨shape, parts.flatMap (·.data)⟩
    else .error .notNumeric
  | none => .error .notNumeric

/-- The lengths of axes where a negative one stands for what is left of so many places; of one
    axis only. -/
def fillLength (count : Nat) (lengths : List Int) : Option (List Nat) :=
  match lengths.filter (· < 0) with
  | [] => some (lengths.map Int.toNat)
  | [_] =>
    let known := places ((lengths.filter (0 ≤ ·)).map Int.toNat)
    if known = 0 ∨ count % known ≠ 0 then none
    else some (lengths.map fun n => if n < 0 then count / known else n.toNat)
  | _ => none

/-- Read the numbers under another shape with the same number of places. -/
def reshape (t : Tensor α) (lengths : List Int) : Except Error (Tensor α) :=
  match fillLength t.data.length lengths with
  | some shape =>
    if places shape = t.data.length then .ok ⟨shape, t.data⟩ else .error .shapeMismatch
  | none => .error .shapeMismatch

def vectorFor (key : Key) (t : Tensor α) : Except Error (List α) :=
  match t.vector? with
  | some xs => .ok xs
  | none => .error (.notVector key t.shape)

/-- Put arrays that agree on all axes but the outermost under each other. -/
def concatenate : List (Tensor α) → Except Error (Tensor α)
  | [] => .ok ⟨[0], []⟩
  | first :: rest =>
    if rest.all fun t => t.shape.length = first.shape.length && t.shape.tail = first.shape.tail then
      .ok ⟨total ((first :: rest).map (·.outerLength)) :: first.shape.tail,
        (first :: rest).flatMap (·.data)⟩
    else .error .shapeMismatch

theorem concatenate_ofVector (xss : List (List α)) :
    concatenate (xss.map ofVector) = .ok (ofVector xss.flatten) := by
  cases xss with
  | nil => rfl
  | cons xs xss =>
    have lengths : ∀ yss : List (List α),
        total (yss.map fun ys => (ofVector ys).outerLength) = yss.flatten.length :=
      total_map_length
    have data : ∀ yss : List (List α), (yss.map ofVector).flatMap (·.data) = yss.flatten := by
      intro yss
      rw [List.flatMap_map]
      exact List.flatMap_id
    have sizes := lengths (xs :: xss)
    have numbers := data (xs :: xss)
    simp only [List.map_cons] at sizes numbers
    simp only [List.map_cons, concatenate]
    rw [if_pos (by simp [ofVector])]
    simp only [List.map_map, Function.comp_def, sizes, numbers]
    rfl

/-- From this number of places on an array can not be addressed. -/
def addressable : Nat := Nat.pow 2 60

/-- The greatest number of places that are stored. -/
def mostPlaces : Nat := Nat.pow 2 33

/-- The shape with given lengths of the axes, of a new array.  An axis of length zero does not
    make the others shorter: their places have to be few enough all the same. -/
def checkShape (lengths : List Int) : Except Error (List Nat) :=
  let shape := lengths.map Int.toNat
  if lengths.any (· < 0) then .error .negativeSize
  else if addressable ≤ places (shape.filter (· ≠ 0)) then .error .tooManyPlaces
  else if mostPlaces < places shape then .error .outOfMemory
  else .ok shape

/-- A shape that is accepted has the given lengths, none of which is negative. -/
theorem checkShape_eq_ok {lengths : List Int} {shape : List Nat}
    (h : checkShape lengths = .ok shape) :
    shape = lengths.map Int.toNat ∧ ∀ n ∈ lengths, 0 ≤ n := by
  unfold checkShape at h
  simp only at h
  split at h
  · cases h
  · next signs =>
    split at h
    · cases h
    · split at h
      · cases h
      · simp only [Except.ok.injEq] at h
        refine ⟨h.symm, fun n hn => ?_⟩
        simp only [List.any_eq_true, decide_eq_true_eq, not_exists, not_and] at signs
        have := signs n hn
        omega

/-! ### Elementwise operations -/

/-- The common shape of two shapes, all of them with the last axis first. -/
def commonAxes : List Nat → List Nat → Except Error (List Nat)
  | [], axes => .ok axes
  | axes, [] => .ok axes
  | m :: ms, n :: ns => do
    let length ← commonLength m n
    let rest ← commonAxes ms ns
    return length :: rest

def commonShape (s t : List Nat) : Except Error (List Nat) :=
  (commonAxes s.reverse t.reverse).map List.reverse

/-- Repeat the numbers of a shape along the axes that are longer in another; both shapes have
    the same number of axes. -/
def spreadAxes : List Nat → List Nat → List α → List α
  | m :: ms, n :: ns, data =>
    (stretch n (cut (places ms) data m)).flatMap (spreadAxes ms ns)
  | _, _, data => data

def spread (t : Tensor α) (shape : List Nat) : List α :=
  spreadAxes (List.replicate (shape.length - t.shape.length) 1 ++ t.shape) shape t.data

def combine (f : α → β → γ) (a : Tensor α) (b : Tensor β) : Except Error (Tensor γ) :=
  match a.shape, b.shape with
  | [_], [_] => (LeastSquares.combine f a.data b.data).map ofVector
  | s, t => do
    let shape ← commonShape s t
    return ⟨shape, List.zipWith f (a.spread shape) (b.spread shape)⟩

theorem combine_ofVector (f : α → β → γ) (xs : List α) (ys : List β) :
    combine f (ofVector xs) (ofVector ys) = (LeastSquares.combine f xs ys).map ofVector := rfl

/-- The numbers of an array that is written over the places of a shape: axes of length one are
    dropped in front, and what is left is repeated to the shape. -/
def written (t : Tensor α) (shape : List Nat) : Except Error (List α) :=
  let extra := t.shape.length - shape.length
  if (t.shape.take extra).any (· ≠ 1) then .error .shapeMismatch
  else
    let t : Tensor α := ⟨t.shape.drop extra, t.data⟩
    match commonShape t.shape shape with
    | .ok common => if common = shape then .ok (t.spread shape) else .error .shapeMismatch
    | .error e => .error e

/-! ### Arrays that are given -/

mutual

/-- The shape of nested lists, when all parts at one level have one shape. -/
def shapeOf : Given α → Option (List Nat)
  | .list items => (shapesOf items).bind stackShapes
  | _ => some []

def shapesOf : List (Given α) → Option (List (List Nat))
  | [] => some []
  | item :: rest => do
    let first ← shapeOf item
    let others ← shapesOf rest
    return first :: others

end

mutual

/-- What stands in nested lists, in order. -/
def leavesOf : Given α → List (Given α)
  | .list items => leavesOfItems items
  | other => [other]

/-- What stands in several nested lists, in order. -/
def leavesOfItems : List (Given α) → List (Given α)
  | [] => []
  | item :: rest => leavesOf item ++ leavesOfItems rest

end

theorem shapesOf_reals (xs : List α) :
    shapesOf (xs.map Given.real) = some (xs.map fun _ => []) := by
  induction xs with
  | nil => rfl
  | cons x xs ih => simp [shapesOf, shapeOf, ih]

theorem shapeOf_ofVector (xs : List α) : shapeOf (Given.ofVector xs) = some [xs.length] := by
  rw [Given.ofVector, shapeOf, shapesOf_reals]
  cases xs <;> simp [stackShapes]

theorem leavesOf_ofVector (xs : List α) : leavesOf (Given.ofVector xs) = xs.map Given.real := by
  rw [Given.ofVector, leavesOf]
  induction xs with
  | nil => rfl
  | cons x xs ih => simp [leavesOfItems, leavesOf, ih]

/-- The array of what stands in nested lists, not yet read. -/
def ofNested (g : Given α) : Except Error (Tensor (Given α)) :=
  match shapeOf g with
  | some shape =>
    if shape.length ≤ Given.mostAxes then .ok ⟨shape, leavesOf g⟩ else .error .notNumeric
  | none => .error .notNumeric

theorem ofNested_ofVector (xs : List α) :
    ofNested (Given.ofVector xs) = .ok ⟨[xs.length], xs.map Given.real⟩ := by
  rw [ofNested, shapeOf_ofVector, leavesOf_ofVector]
  exact if_pos (by simp [Given.mostAxes])

variable [Scalar α]

def zeros (shape : List Nat) : Tensor α := ⟨shape, List.replicate (places shape) 0⟩

/-- The array of what stands in nested lists, each part of which is read in the same way; the
    shape is looked at before the parts. -/
def ofLeaves (read : Given α → Except Error α) (g : Given α) : Except Error (Tensor α) := do
  let t ← ofNested g
  let data ← t.data.mapM read
  return ⟨t.shape, data⟩

/-- The array of nested entries, any of which may be missing. -/
def ofGiven (g : Given α) : Except Error (Tensor α) := ofLeaves Given.toEntry g

def ofArguments (g : Given α) : Except Error (Tensor α) := ofLeaves Given.toArgument g

/-- An operand of elementwise arithmetic whose parts are not yet read.  A text among them is
    refused at once, unless there is a part that keeps the array from being one of texts. -/
def operand (g : Given α) : Except Error (Tensor (Given α)) := do
  let t ← ofNested g.withNumbers
  if t.data.any Given.isText && !t.data.any Given.isForeign then throw .operandKind
  return t

def ofNumbers (g : Given α) : Except Error (Tensor α) := do
  let t ← operand g
  let data ← t.data.mapM Given.toNumber
  return ⟨t.shape, data⟩

theorem mapM_toEntry_reals (xs : List α) :
    (xs.map Given.real).mapM Given.toEntry = (.ok xs : Except Error (List α)) := by
  induction xs with
  | nil => rfl
  | cons x xs ih =>
    rw [List.map_cons, List.mapM_cons, ih]
    rfl

theorem ofGiven_ofVector (xs : List α) : ofGiven (Given.ofVector xs) = .ok (ofVector xs) := by
  rw [ofGiven, ofLeaves, ofNested_ofVector]
  simp only [bind, Except.bind, mapM_toEntry_reals]
  rfl

/-- A multiple of an array by a number or an array that is given; its numbers are read as far as
    they are multiplied, but a single integer has to be a number in any case. -/
def scaled (scale : Given α) (t : Tensor α) : Except Error (Tensor α) := do
  let factor ← operand scale
  match scale with
  | .integer n => let _ : α ← Given.ofInteger n
  | _ => pure ()
  let products ← combine (fun entry x => (Given.toNumber entry).map fun c => c * x) factor t
  let data ← products.data.mapM id
  return ⟨products.shape, data⟩

/-- Two arrays agree entry by entry up to an absolute and a relative tolerance, either of which
    may be an array too. -/
def close (absolute relative : Given α) (a b : Tensor α) : Except Error Bool := do
  let _ ← ofNested absolute
  let _ ← ofNested relative
  let absolute ← ofArguments absolute
  let relative ← ofArguments relative
  let bounds ← combine Prod.mk absolute relative
  let pairs ← combine Prod.mk a b
  let agree ← combine (fun bound pair => Scalar.close bound.1 bound.2 pair.1 pair.2) bounds pairs
  return agree.data.all id

end Tensor

namespace Given

variable {α : Type} [Scalar α]

def vectorFor (key : Key) (value : Given α) : Except Error (List α) := do
  let t ← Tensor.ofGiven value
  t.vectorFor key

end Given

end LeastSquares
