/-
  LeastSquares/Delta.lean
  =======================
  **Steps: a vector for each variable that moves.**

  A step is what a linear solver returns.  Stacked in the order of a list of variables it is
  one long vector, and such a vector is cut into blocks again by the sizes of the variables.
-/
import LeastSquares.Table
import LeastSquares.Tensor

namespace LeastSquares

def Table.shown {β : Type} (entry : β → String) (t : Table β) : String :=
  "\x7b" ++ ", ".intercalate (t.map fun row => row.1.shown ++ ": " ++ entry row.2) ++ "\x7d"

structure Delta (α : Type) where
  /-- The blocks of the step, oldest first. -/
  blocks : Table (Vec α)
deriving Repr

namespace Delta

variable {α : Type}

def empty : Delta α := ⟨[]⟩

def keys (d : Delta α) : List Key := d.blocks.keys

def contains (d : Delta α) (key : Key) : Bool := d.blocks.contains key

def set [Scalar α] (d : Delta α) (key : Key) (block : Given α) : Except Error (Delta α) := do
  let xs ← block.vectorFor key
  return ⟨d.blocks.set key xs⟩

def write (d : Delta α) (key : Key) (block : Vec α) : Delta α := ⟨d.blocks.set key block⟩

def ofRows [Scalar α] (rows : List (Key × Given α)) : Except Error (Delta α) :=
  rows.foldlM (fun d row => d.set row.1 row.2) empty

def get (d : Delta α) (key : Key) : Except Error (Vec α) := d.blocks.find key

def size (d : Delta α) : Nat := d.blocks.length

/-- The blocks of given variables, one after another. -/
def vectorOf (d : Delta α) (keys : List Key) : Except Error (Vec α) :=
  (keys.mapM d.get).map List.flatten

def vector (d : Delta α) : Vec α := (d.blocks.map (·.2)).flatten

def ordered (d : Delta α) (keys : List Key) : Except Error (Delta α) :=
  (keys.mapM fun key => (d.get key).map fun block => (key, block)).map fun rows =>
    ⟨Table.ofRows rows⟩

/-! ### Cutting a stacked vector -/

/-- The items from one place to another; a negative place counts from the end. -/
def slice {β : Type} (items : List β) (start stop : Int) : List β :=
  let index := fun (place : Int) =>
    if place < 0 then (place + items.length).toNat else min place.toNat items.length
  (items.take (index stop)).drop (index start)

/-- Between places inside a list, a slice is what is left of the first items. -/
theorem slice_natCast {β : Type} (items : List β) (start stop : Nat) (h : stop ≤ items.length)
    (hs : start ≤ stop) : slice items start stop = (items.take stop).drop start := by
  simp only [slice]
  rw [if_neg (by omega), if_neg (by omega), Int.toNat_natCast, Int.toNat_natCast,
    Nat.min_eq_left h, Nat.min_eq_left (Nat.le_trans hs h)]

/-- Where the block of a variable that starts at a place ends, by a size that has to fit into so
    many items; a size that is no integer is held against them, but nothing can be cut there. -/
def stopOf [Scalar α] (dims : Table (Given α)) (length : Nat) (key : Key) (start : Int) :
    Except Error Int := do
  let dim ← dims.find key
  match dim.toInt with
  | .ok n => if (length : Int) < start + n then throw (.shortVector key) else return start + n
  | .error _ => do
    let x ← dim.toNumber
    if Scalar.ofNat length < Scalar.ofInt start + x then throw (.shortVector key)
    else throw .badArguments

/-- Cut items into the blocks of variables, from a place on, where each block stops as its variable
    says; at the end every item has to be used. -/
def split {β : Type} (stop : Key → Int → Except Error Int) (items : List β) :
    List Key → Int → Except Error (List (Key × List β))
  | [], used =>
    if used = items.length then .ok [] else .error (.longVector used items.length)
  | key :: keys, used => do
    let next ← stop key used
    let others ← split stop items keys next
    return (key, slice items used next) :: others

/-- Where the block of a variable ends, by the sizes of the variables. -/
def stopIn (dims : Table Nat) (length : Nat) (key : Key) (start : Int) : Except Error Int := do
  let dim ← dims.find key
  if (length : Int) < start + dim then throw (.shortVector key) else return start + dim

def fromVector (vector : Vec α) (keys : List Key) (dims : Table Nat) : Except Error (Delta α) :=
  (split (stopIn dims vector.length) vector keys 0).map fun rows => ⟨Table.ofRows rows⟩

/-- The block of a variable that a part of an array holds, which has to be a vector. -/
def blockOfParts (shape : List Nat) (row : Key × List (Tensor α)) : Except Error (Key × Vec α) :=
  (Tensor.vectorFor row.1 ⟨row.2.length :: shape, row.2.flatMap (·.data)⟩).map fun xs =>
    (row.1, xs)

/-- The step that an array holds, which is cut along its outermost axis; a single number has no
    such axis. -/
def ofTensor [Scalar α] (t : Tensor α) (keys : List Key) (dims : Table (Given α)) :
    Except Error (Delta α) :=
  match t.shape with
  | [] =>
    match keys with
    | key :: _ => do
      let _ ← dims.find key
      throw .badArguments
    | [] => .error .badArguments
  | [_] => (split (stopOf dims t.data.length) t.data keys 0).map fun rows => ⟨Table.ofRows rows⟩
  | _ :: inner => do
    let rows ← split (stopOf dims t.outerLength) t.parts keys 0
    let blocks ← (Table.ofRows rows).mapM (blockOfParts inner)
    return ⟨blocks⟩

/-- Sizes that are given as natural numbers end a block alike. -/
theorem stopOf_naturals [Scalar α] (dims : Table Nat) (length : Nat) :
    stopOf (α := α) (dims.mapEntries fun n => .integer n) length = stopIn dims length := by
  funext key start
  have found : (Table.mapEntries dims fun n => (.integer n : Given α)).find key =
      (dims.find key).map fun n => .integer n := by
    simp only [Table.find, Table.get?, Table.mapEntries]
    induction dims with
    | nil => rfl
    | cons row rest ih =>
      obtain ⟨k, n⟩ := row
      by_cases h : key = k
      · simp [h, Except.map]
      · have other : (key == k) = false := by simpa using h
        simpa only [List.map_cons, List.lookup_cons, other] using ih
  simp only [stopOf, stopIn, found]
  cases dims.find key <;> rfl

theorem ofTensor_ofVector [Scalar α] (xs : Vec α) (keys : List Key) (dims : Table Nat) :
    ofTensor (.ofVector xs) keys (dims.mapEntries fun n => .integer n) =
      fromVector xs keys dims := by
  simp only [ofTensor, Tensor.ofVector, fromVector, stopOf_naturals]

def shown (number : α → String) (d : Delta α) : String :=
  "VectorValues(" ++ Table.shown (fun xs => Text.bracketed (xs.map number)) d.blocks ++ ")"

variable [Scalar α]

def zero (dims : Table Nat) : Delta α := ⟨dims.mapEntries Vec.zeros⟩

/-- The step that moves nothing, by the lengths of the axes of each variable, of which there is
    one at most. -/
def zeroOfGiven (dims : Table (Given α)) : Except Error (Delta α) := do
  let shapes ← dims.mapM fun row => do
    let lengths ← row.2.lengths
    let shape ← Tensor.checkShape lengths
    return (row.1, shape)
  let blocks ← shapes.mapM fun row =>
    if row.2.length ≤ 1 then .ok (row.1, Vec.zeros (Tensor.places row.2))
    else .error (.notVector row.1 row.2)
  return ⟨blocks⟩

def norm (d : Delta α) : α := Vec.norm d.vector

end Delta

end LeastSquares
