/-
  LeastSquares/Diagnostics.lean
  =============================
  **What is said about an estimate: where its cost comes from, and what it leaves free.**

  The cost is split by factors, the residuals are summed up in a few numbers, and the rank of
  the stacked matrix tells how many directions the factors do not determine.
-/
import LeastSquares.Graph
import LeastSquares.Linear.SingularValues
import LeastSquares.Linear.Sparse
import LeastSquares.Sorting

namespace LeastSquares

/-! ### Rank -/

/-- The rank of a matrix, and how safely it is determined. -/
structure RankReport (α : Type) where
  rank : Nat
  fullRank : Bool
  /-- The ratio of the greatest to the least singular value; none when the least is zero. -/
  condition : Option α
  /-- The singular values, the greatest first; those of several matrices one after another. -/
  singularValues : Tensor α
  nullity : Int
  /-- Height and width of a matrix with entries, or the lengths of all axes of an array. -/
  shape : Option (List Nat)
deriving Repr

structure Statistics (α : Type) where
  count : Nat
  rms : α
  greatest : α
  mean : α
  deviation : α
deriving Repr

structure Diagnostics (α : Type) where
  total : α
  /-- The cost of each factor, by its name. -/
  costs : List (String × α)
  /-- The greatest costs, the greatest first. -/
  greatest : List (String × α)
  statistics : Statistics α
  rank : RankReport α
  summary : Summary

namespace Diagnostics

variable {α : Type} [Scalar α]

def emptyRank : RankReport α := ⟨0, true, some 1, .ofVector [], 0, none⟩

/-- The tolerance on singular values, relative to the greatest, unless another is given. -/
def defaultTolerance : α := 1e-6

/-- The report on a matrix whose singular values are known; the tolerance is looked at when one of
    them is positive. -/
def rankOf (height width : Nat) (values : List α) (tolerance : Given α) :
    Except Error (RankReport α) := do
  let greatest := values.headD 0
  let least := values.getLastD 0
  let rank ← (if 0 < greatest then
      (tolerance.toNumber).map fun tolerance =>
        (values.filter (tolerance * greatest < ·)).length
    else .ok 0 : Except Error Nat)
  return {
    rank := rank
    fullRank := rank = min height width
    condition := if 0 < least then some (greatest / least) else none
    singularValues := .ofVector values
    nullity := (width : Int) - rank
    shape := some [height, width] }

/-- The rank of a matrix, whose entries have to be finite. -/
def rankOfMat (m : Mat α) (tolerance : Given α) : Except Error (RankReport α) :=
  if m.height * m.width = 0 then .ok emptyRank
  else if !Vec.isFinite m.entries then .error .notFinite
  else rankOf m.height m.width (SingularValues.ofMat m) tolerance

/-- The singular values of the matrices that the last two axes of an array make up. -/
def singularValuesOf (outer : List Nat) (height width : Nat) (data : List α) : Tensor α :=
  let matrices := Tensor.cut (height * width) data (Tensor.places outer)
  ⟨outer ++ [min height width], matrices.flatMap fun entries =>
    SingularValues.ofMat ⟨width, Tensor.cut width entries height⟩⟩

/-- The number of singular values above a tolerance, relative to an array of the greatest. -/
def countAbove (values greatest : Tensor α) (tolerance : Given α) : Except Error Nat := do
  let factor ← Tensor.ofNumbers tolerance
  let bounds ← Tensor.combine (· * ·) factor greatest
  let above ← Tensor.combine (fun x bound => decide (bound < x)) values bounds
  return (above.data.filter id).length

/-- The rank of several matrices taken as one.  The first part of the singular values has to be
    one number to be compared with zero; the condition is the ratio of two arrays, which is no
    number even then. -/
def rankOfParts (shape : List Nat) (values : Tensor α) (tolerance : Given α) :
    Except Error (RankReport α) :=
  match values.parts.head?, values.parts.getLast? with
  | some greatest, some least =>
    match greatest.data, least.data with
    | [first], [last] => do
      let rank ← (if 0 < first then countAbove values greatest tolerance else .ok 0)
      if 0 < last then throw .badArguments
      return {
        rank := rank
        fullRank := rank = shape.foldl min (shape.headD 0)
        condition := none
        singularValues := values
        nullity := (shape.getD 1 0 : Int) - rank
        shape := some shape }
    | _, _ => .error .shapeMismatch
  | _, _ => .error .shapeMismatch

/-- The rank of an array, which has to have two axes at least when it is not empty. -/
def rankOfTensor (t : Tensor α) (tolerance : Given α) : Except Error (RankReport α) :=
  if t.data.isEmpty then .ok emptyRank
  else
    match t.shape.reverse with
    | [width, height] => rankOfMat ⟨width, Tensor.cut width t.data height⟩ tolerance
    | width :: height :: outer =>
      if !Vec.isFinite t.data then .error .notFinite
      else
        rankOfParts t.shape (singularValuesOf outer.reverse height width t.data) tolerance
    | _ => .error .shapeMismatch

/-! ### Residuals and costs -/

/-- Residuals in a few numbers; all are zero when there is none.  An array counts by its
    outermost axis, and has to hold numbers then. -/
def statisticsOf (residuals : Tensor α) : Except Error (Statistics α) :=
  if residuals.outerLength = 0 then .ok ⟨0, 0, 0, 0, 0⟩
  else
    match Vec.maxAbs? residuals.data with
    | none => .error .emptyMaximum
    | some greatest =>
      let count := Scalar.ofNat residuals.data.length
      let mean := Vec.sum residuals.data / count
      let deviations := residuals.data.map fun r => Scalar.sq (r - mean)
      .ok {
        count := residuals.outerLength
        rms := Scalar.sqrt (Vec.normSq residuals.data / count)
        greatest := greatest
        mean := mean
        deviation := Scalar.sqrt (Vec.sum deviations / count) }

/-- The first items of a list, or all of them; a negative number leaves so many out at the
    end. -/
def firstItems {β : Type} (items : List β) (count : Option Int) : List β :=
  match count with
  | none => items
  | some n => if n < 0 then items.take (items.length - (-n).toNat) else items.take n.toNat

/-- The costs in descending order; equal ones stay in order.  When all are numbers there is one
    such list; otherwise the comparisons of sorting by runs decide. -/
def ranked (costs : List (String × α)) : List (String × α) :=
  if costs.all fun entry => Scalar.isNumber entry.2 then
    costs.mergeSort fun a b => decide (b.2 ≤ a.2)
  else Sorting.sortDown (fun a b => decide (a.2 < b.2)) costs

def enterCost (costs : List (String × α)) (id : String) (cost : α) : List (String × α) :=
  match costs with
  | [] => [(id, cost)]
  | entry :: rest =>
    if entry.1 = id then (id, cost) :: rest else entry :: enterCost rest id cost

/-- The number of greatest costs that are listed unless another is given. -/
def defaultCount : Int := 10

/-- The number of greatest costs that are listed; nothing stands for all of them. -/
def countOf : Given α → Except Error (Option Int)
  | .null => .ok none
  | given => given.toInt.map some

/-- Everything that is said about an estimate of the variables of a graph; the number of greatest
    costs is read when their list is cut. -/
def compute (g : Graph α) (values : Values α) (count : Given α) :
    Except Error (Diagnostics α) := do
  let rows ← g.factors.mapM fun f => do
    let cost ← f.cost values.entries
    return (f.label, cost)
  let costs := rows.foldl (fun costs row => enterCost costs row.1 row.2) []
  let residuals ← g.residuals values
  let linear ← g.linearize values
  let (matrix, _) ← linear.stacked values.keys values.dims
  let count ← countOf count
  let statistics ← statisticsOf residuals
  let rank ← rankOfMat matrix.toMat (.real defaultTolerance)
  let summary ← g.summary
  return {
    total := Vec.sum (costs.map (·.2))
    costs := costs
    greatest := firstItems (ranked costs) count
    statistics := statistics
    rank := rank
    summary := summary }

end Diagnostics

end LeastSquares
