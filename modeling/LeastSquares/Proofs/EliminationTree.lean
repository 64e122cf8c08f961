/-
  LeastSquares/Proofs/EliminationTree.lean
  ========================================
  **The tree of elimination that separators define.**

  The parent of a variable is the earliest variable of its separator.  What the separator holds
  besides the parent is in the separator of the parent, because a path to an earlier variable can be
  continued through it.
-/
import LeastSquares.Proofs.FillPaths

namespace LeastSquares

namespace EliminationOrder

theorem pairwise_place {order : EliminationOrder} (hnodup : order.keys.Nodup) :
    order.keys.Pairwise fun a b => order.place a < order.place b := pairwise_idxOf hnodup

end EliminationOrder

namespace FrontForest

variable {α : Type} {order : EliminationOrder} {g : LinearGraph α} {table : Table (List Key)}

/-- A table holds the separator of each ordered variable: the later variables that it reaches through
    earlier ones. -/
structure Separates (order : EliminationOrder) (g : LinearGraph α) (table : Table (List Key)) :
    Prop where
  nodup : ∀ key ∈ order.keys, (separatorIn table key).Nodup
  mem_iff : ∀ key ∈ order.keys, ∀ other,
    other ∈ separatorIn table key ↔ Fills order g key other

theorem Separates.listed (h : Separates order g table) {key other : Key} (hkey : key ∈ order.keys)
    (hother : other ∈ separatorIn table key) : other ∈ order.keys :=
  ((h.mem_iff key hkey other).mp hother).1

theorem Separates.place_lt (h : Separates order g table) {key other : Key}
    (hkey : key ∈ order.keys) (hother : other ∈ separatorIn table key) :
    order.place key < order.place other :=
  ((h.mem_iff key hkey other).mp hother).2.1

/-- Of two variables in one separator, the later is in the separator of the earlier. -/
theorem Separates.clique (h : Separates order g table) {key a b : Key} (hkey : key ∈ order.keys)
    (ha : a ∈ separatorIn table key) (hb : b ∈ separatorIn table key)
    (hab : order.place a < order.place b) : b ∈ separatorIn table a := by
  obtain ⟨halisted, hka, hpatha⟩ := (h.mem_iff key hkey a).mp ha
  obtain ⟨hblisted, -, hpathb⟩ := (h.mem_iff key hkey b).mp hb
  refine (h.mem_iff a halisted b).mpr ⟨hblisted, hab, ?_⟩
  have hback := (hpatha.symm fun _ _ => LinearGraph.Adjacent.symm).mono
    fun _ hlt => hlt.trans hka
  exact hback.trans hka (hpathb.mono fun _ hlt => hlt.trans hka)

/-! ### Parents -/

theorem parentIn_eq_some (hnodup : order.keys.Nodup) {key parent : Key}
    (hparent : parentIn order table key = some parent) :
    parent ∈ separatorIn table key ∧
      ∀ other ∈ separatorIn table key, order.place parent ≤ order.place other := by
  obtain ⟨hmem, before, after, hsplit, hnone⟩ := List.find?_eq_some_iff_append.mp hparent
  have hmem : parent ∈ separatorIn table key := by simpa using hmem
  refine ⟨hmem, fun other hother => not_lt.mp fun hlt => ?_⟩
  have hbefore := (EliminationOrder.mem_before_iff hnodup hsplit.symm other).mpr hlt
  simpa [hother] using hnone other hbefore

theorem parentIn_eq_none_iff (h : Separates order g table) {key : Key} (hkey : key ∈ order.keys) :
    parentIn order table key = none ↔ separatorIn table key = [] := by
  rw [parentIn, List.find?_eq_none]
  constructor
  · intro hnone
    refine List.eq_nil_iff_forall_not_mem.mpr fun other hother => ?_
    have := hnone other (h.listed hkey hother)
    simp [hother] at this
  · intro hempty other _
    simp [hempty]

/-- What a separator holds besides the parent is in the separator of the parent. -/
theorem separator_subset_parent (h : Separates order g table) (hnodup : order.keys.Nodup)
    {key parent other : Key} (hkey : key ∈ order.keys)
    (hparent : parentIn order table key = some parent) (hother : other ∈ separatorIn table key) :
    other = parent ∨ other ∈ separatorIn table parent := by
  obtain ⟨hmem, hfirst⟩ := parentIn_eq_some hnodup hparent
  rcases (hfirst other hother).eq_or_lt with heq | hlt
  · exact .inl (EliminationOrder.place_inj (h.listed hkey hmem) heq).symm
  · exact .inr (h.clique hkey hmem hother hlt)

/-- The variables whose parent is a given one. -/
def childrenIn (order : EliminationOrder) (table : Table (List Key)) (key : Key) : List Key :=
  order.keys.filter fun child => parentIn order table child = some key

end FrontForest

end LeastSquares
