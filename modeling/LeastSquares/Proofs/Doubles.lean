/-
  LeastSquares/Proofs/Doubles.lean
  ================================
  **The order of doubles.**

  Two doubles are compared by their parts, and a NaN is the one value that compares with nothing, not even
  with itself.  Apart from it the order is total, so what is refused as at most some number is above that
  number only if it is known not to be a NaN.
-/
import LeastSquares.Scalar.Double

namespace LeastSquares

namespace Double

open Float.Model

/-! ### Comparisons of parts -/

/-- Sizes are compared by their exponents first. -/
theorem compare_sizes_swap (m n : Nat) (e f : Int) :
    (compare f e).then (compare n m) = ((compare e f).then (compare m n)).swap := by
  rw [Ordering.swap_then, Int.compare_swap, Nat.compare_swap]

theorem compare_swap (a b : UnpackedFloat) : b.compare a = (a.compare b).map Ordering.swap := by
  rcases a with ⟨_ | _⟩ | _ | _ | ⟨_ | _, m, e, hm⟩ <;> rcases b with ⟨_ | _⟩ | _ | _ | ⟨_ | _, n, f, hn⟩ <;>
    first
    | rfl
    | exact congrArg some (compare_sizes_swap m n e f)
    | exact congrArg some (congrArg Ordering.swap (compare_sizes_swap m n e f))

theorem compare_eq_none_iff {a b : UnpackedFloat} : a.compare b = none ↔ a = .notANumber ∨ b = .notANumber := by
  constructor
  · intro h
    rcases a with ⟨_ | _⟩ | _ | _ | ⟨_ | _, m, e, hm⟩ <;> rcases b with ⟨_ | _⟩ | _ | _ | ⟨_ | _, n, f, hn⟩ <;>
      first
      | exact .inl rfl
      | exact .inr rfl
      | cases h
  · rintro (rfl | rfl)
    · rfl
    · rcases a with ⟨_ | _⟩ | _ | _ | ⟨_ | _, m, e, hm⟩ <;> rfl

theorem compare_self {a : UnpackedFloat} (h : a ≠ .notANumber) : a.compare a = some .eq := by
  have hswap := compare_swap a a
  cases horder : a.compare a with
  | none => exact absurd (compare_eq_none_iff.mp horder) (by simp [h])
  | some order =>
    rw [horder] at hswap
    cases order with
    | eq => rfl
    | lt | gt => cases hswap

/-! ### Comparisons of doubles -/

def unpacked (x : Float) : UnpackedFloat := x.toModel.unpack

theorem le_iff {x y : Float} : x ≤ y ↔ ∃ order, (unpacked x).compare (unpacked y) = some order ∧ order.isLE := by
  have hmodel : x ≤ y ↔ ((unpacked x).compare (unpacked y)).any (·.isLE) = true := decide_eq_true_iff
  rw [hmodel, Option.any_eq_true]

theorem lt_iff {x y : Float} : x < y ↔ (unpacked x).compare (unpacked y) = some .lt := by
  have hmodel : x < y ↔ ((unpacked x).compare (unpacked y) == some .lt) = true := decide_eq_true_iff
  rw [hmodel, beq_iff_eq]

/-- A double is a number when it compares with itself. -/
theorem le_self_iff {x : Float} : x ≤ x ↔ unpacked x ≠ .notANumber := by
  rw [le_iff]
  constructor
  · rintro ⟨order, horder, -⟩ hnan
    rw [compare_eq_none_iff.mpr (.inl hnan)] at horder
    cases horder
  · exact fun hnumber => ⟨.eq, compare_self hnumber, rfl⟩

/-- **What is not at most some number is above it just when it is a number.** -/
theorem lt_iff_of_not_le {x y : Float} (hy : y ≤ y) (h : ¬ x ≤ y) : y < x ↔ x ≤ x := by
  rw [lt_iff, le_self_iff, compare_swap (unpacked x)]
  constructor
  · intro horder hnan
    rw [compare_eq_none_iff.mpr (.inl hnan)] at horder
    cases horder
  · intro hnumber
    cases horder : (unpacked x).compare (unpacked y) with
    | none =>
      obtain hnan | hnan := compare_eq_none_iff.mp horder
      · exact absurd hnan hnumber
      · exact absurd hnan (le_self_iff.mp hy)
    | some order =>
      have habove : ¬ order.isLE := fun hle => h (le_iff.mpr ⟨order, horder, hle⟩)
      cases order with
      | gt => rfl
      | lt | eq => exact absurd rfl habove

end Double

end LeastSquares
