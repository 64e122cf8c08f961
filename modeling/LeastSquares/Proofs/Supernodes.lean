/-
  LeastSquares/Proofs/Supernodes.lean
  ===================================
  **Fronts that grow along only children.**

  Variables are taken in order, and each joins the front of its only child or starts a front.  The
  fronts so far always hold the variables so far, each once and in order, and along a front every
  variable loses nothing but the next one from its separator.
-/
import LeastSquares.Proofs.EliminationTree

namespace LeastSquares

namespace FrontForest

variable {order : EliminationOrder} {table : Table (List Key)}

/-- One variable follows another in a front: it is the parent of that one alone, and is all that
    leaves the separator. -/
def Follows (order : EliminationOrder) (table : Table (List Key)) (a b : Key) : Prop :=
  childrenIn order table b = [a] ∧
    ∀ other, other ∈ separatorIn table a ↔ other = b ∨ other ∈ separatorIn table b

namespace Growth

/-- The fronts hold the variables so far. -/
structure Holds (order : EliminationOrder) (table : Table (List Key)) (done : List Key)
    (growth : Growth) : Prop where
  placed : growth.frontOf.keys = done
  frontOf_iff : ∀ key index, growth.frontOf.get? key = some index ↔
    ∃ front, growth.fronts[index]? = some front ∧ key ∈ front.1
  heads : ∃ heads : List Key, growth.fronts.map (·.1.head?) = heads.map some ∧ heads.Sublist done
  ascending : ∀ front ∈ growth.fronts, front.1.Sublist done
  follows : ∀ front ∈ growth.fronts, front.1.IsChain (Follows order table)
  separator : ∀ front ∈ growth.fronts, ∀ last, front.1.getLast? = some last →
    front.2 = separatorIn table last

theorem holds_empty : Holds order table [] ⟨[], []⟩ := by
  refine ⟨rfl, fun key index => ?_, ⟨[], rfl, .slnil⟩, by simp, by simp, by simp⟩
  simp [Table.get?]

theorem Holds.start {done : List Key} {growth : Growth} {key : Key}
    (h : growth.Holds order table done) (hkey : key ∉ done) :
    Holds order table (done ++ [key]) ⟨growth.fronts ++ [([key], separatorIn table key)],
      growth.frontOf.set key growth.fronts.length⟩ := by
  have hfresh : key ∉ growth.frontOf.keys := h.placed ▸ hkey
  have hnew : ∀ front ∈ growth.fronts, key ∉ front.1 := fun front hfront hmem =>
    hkey ((h.ascending front hfront).subset hmem)
  obtain ⟨heads, hheads, hsublist⟩ := h.heads
  refine ⟨?_, fun other index => ?_, ⟨heads ++ [key], ?_, ?_⟩, ?_, ?_, ?_⟩
  · rw [Table.keys_set_of_not_mem hfresh, h.placed]
  · rw [Table.get?_set]
    simp only [getElem?_concat_eq_some]
    constructor
    · intro hplace
      split at hplace
      · next heq => exact ⟨_, .inr ⟨(Option.some.inj hplace).symm, rfl⟩, by simp [heq]⟩
      · obtain ⟨front, hfront, hmem⟩ := (h.frontOf_iff other index).mp hplace
        exact ⟨front, .inl hfront, hmem⟩
    · rintro ⟨front, hfront | ⟨rfl, rfl⟩, hmem⟩
      · have hne : other ≠ key := fun heq => hnew front (List.mem_of_getElem? hfront) (heq ▸ hmem)
        rw [if_neg hne]
        exact (h.frontOf_iff other index).mpr ⟨front, hfront, hmem⟩
      · rw [if_pos (List.mem_singleton.mp hmem)]
  · rw [List.map_append, hheads, List.map_append]
    rfl
  · exact hsublist.append (List.Sublist.refl _)
  · intro front hfront
    rcases List.mem_append.mp hfront with hfront | hfront
    · exact (h.ascending front hfront).trans (List.sublist_append_left _ _)
    · rw [List.mem_singleton.mp hfront]
      exact List.sublist_append_right _ _
  · intro front hfront
    rcases List.mem_append.mp hfront with hfront | hfront
    · exact h.follows front hfront
    · rw [List.mem_singleton.mp hfront]
      exact .singleton _
  · intro front hfront last hlast
    rcases List.mem_append.mp hfront with hfront | hfront
    · exact h.separator front hfront last hlast
    · rw [List.mem_singleton.mp hfront] at hlast ⊢
      rw [List.getLast?_singleton, Option.some.injEq] at hlast
      rw [hlast]

theorem Holds.join {done : List Key} {growth : Growth} {key child : Key} {index : ℕ}
    {front : List Key × List Key} (h : growth.Holds order table done) (hkey : key ∉ done)
    (hfront : growth.fronts[index]? = some front) (hlast : front.1.getLast? = some child)
    (hfollows : Follows order table child key) :
    Holds order table (done ++ [key])
      ⟨growth.fronts.set index (front.1 ++ [key], separatorIn table key),
        growth.frontOf.set key index⟩ := by
  have hfresh : key ∉ growth.frontOf.keys := h.placed ▸ hkey
  have hnew : ∀ front ∈ growth.fronts, key ∉ front.1 := fun front hfront hmem =>
    hkey ((h.ascending front hfront).subset hmem)
  have hmemFront := List.mem_of_getElem? hfront
  obtain ⟨hlt, hindex⟩ := List.getElem?_eq_some_iff.mp hfront
  obtain ⟨heads, hheads, hsublist⟩ := h.heads
  have hcases : ∀ other ∈ growth.fronts.set index (front.1 ++ [key], separatorIn table key),
      other ∈ growth.fronts ∨ other = (front.1 ++ [key], separatorIn table key) := fun other hother =>
    List.mem_or_eq_of_mem_set hother
  refine ⟨?_, fun other i => ?_, ⟨heads, ?_, hsublist.trans (List.sublist_append_left _ _)⟩,
    ?_, ?_, ?_⟩
  · rw [Table.keys_set_of_not_mem hfresh, h.placed]
  · rw [Table.get?_set, List.getElem?_set]
    by_cases hi : index = i
    · subst hi
      rw [if_pos rfl, if_pos hlt]
      constructor
      · intro hplace
        refine ⟨_, rfl, ?_⟩
        split at hplace
        · next heq => simp [heq]
        · obtain ⟨f, hf, hmem⟩ := (h.frontOf_iff other index).mp hplace
          rw [hfront, Option.some.injEq] at hf
          exact List.mem_append_left _ (hf ▸ hmem)
      · rintro ⟨f, hf, hmem⟩
        rw [← Option.some.inj hf] at hmem
        split
        · rfl
        · next hne =>
          have hmem : other ∈ front.1 :=
            (List.mem_append.mp hmem).resolve_right fun hkey => hne (List.mem_singleton.mp hkey)
          exact (h.frontOf_iff other index).mpr ⟨front, hfront, hmem⟩
    · rw [if_neg hi, ← h.frontOf_iff]
      split
      · next heq =>
        have hnone : growth.frontOf.get? other = none := Table.get?_eq_none_iff.mpr (heq ▸ hfresh)
        simp [hnone, hi]
      · rfl
  · have hbound : index < (growth.fronts.map (·.1.head?)).length := by simpa using hlt
    have hhead : (front.1 ++ [key]).head? = (growth.fronts.map (·.1.head?))[index] := by
      rw [List.getElem_map, hindex]
      cases hcases : front.1 with
      | nil => simp [hcases] at hlast
      | cons first rest => rfl
    rw [List.map_set, hhead, List.set_getElem_self, hheads]
  · intro other hother
    rcases hcases other hother with hother | rfl
    · exact (h.ascending other hother).trans (List.sublist_append_left _ _)
    · exact (h.ascending front hmemFront).append (List.Sublist.refl _)
  · intro other hother
    rcases hcases other hother with hother | rfl
    · exact h.follows other hother
    · refine List.isChain_append.mpr ⟨h.follows front hmemFront, .singleton _, ?_⟩
      intro a ha b hb
      rw [hlast, Option.mem_some_iff] at ha
      rw [List.head?_cons, Option.mem_some_iff] at hb
      exact ha ▸ hb ▸ hfollows
  · intro other hother last hlast
    rcases hcases other hother with hother | rfl
    · exact h.separator other hother last hlast
    · rw [List.getLast?_concat, Option.some.injEq] at hlast
      rw [hlast]

theorem sameKeys_iff {a b : List Key} : sameKeys a b = true ↔ ∀ key, key ∈ a ↔ key ∈ b := by
  simp only [sameKeys, Bool.and_eq_true, List.all_eq_true, List.elem_eq_mem, decide_eq_true_eq]
  exact ⟨fun h key => ⟨h.1 key, h.2 key⟩, fun h => ⟨fun key => (h key).mp, fun key => (h key).mpr⟩⟩

/-- **One step of the growth**, whichever way it goes. -/
theorem Holds.grow {done : List Key} {growth : Growth} {key : Key}
    (h : growth.Holds order table done) (hkey : key ∉ done) :
    Holds order table (done ++ [key]) (grow table (childrenIn order table) growth key) := by
  have hstart := h.start hkey
  unfold FrontForest.grow
  dsimp only
  split
  · next child hchild =>
    split
    · exact hstart
    · split
      · exact hstart
      · next front hfront =>
        split
        · next hjoin =>
          have hsame := sameKeys_iff.mp hjoin.2
          simp only [List.mem_cons] at hsame
          exact h.join hkey hfront hjoin.1 ⟨hchild, hsame⟩
        · exact hstart
  · exact hstart

theorem holds_foldl {done left : List Key} {growth : Growth} (h : growth.Holds order table done)
    (hnodup : (done ++ left).Nodup) :
    Holds order table (done ++ left)
      (left.foldl (FrontForest.grow table (childrenIn order table)) growth) := by
  induction left generalizing done growth with
  | nil => rwa [List.append_nil]
  | cons key left ih =>
    have hkey : key ∉ done := fun hmem => (List.nodup_append.mp hnodup).2.2 key hmem key (by simp) rfl
    have hsplit : done ++ key :: left = done ++ [key] ++ left := by simp
    rw [hsplit] at hnodup ⊢
    exact ih (h.grow hkey) hnodup

end Growth

/-! ### The fronts -/

/-- The growth over all ordered variables. -/
def growthOf (order : EliminationOrder) (table : Table (List Key)) : Growth :=
  order.keys.foldl (grow table (childrenIn order table)) ⟨[], []⟩

/-- The front that the separator of a front leads to. -/
def parentOf (order : EliminationOrder) (table : Table (List Key)) (front : List Key × List Key) :
    Option ℕ :=
  (front.1.getLast?.bind (parentIn order table)).bind (growthOf order table).frontOf.get?

/-- The forest that separators lead to. -/
def ofSeparators (order : EliminationOrder) (table : Table (List Key)) : FrontForest where
  fronts := (growthOf order table).fronts.mapIdx fun index front =>
    { frontals := front.1
      separator := front.2
      parent := parentOf order table front
      children := (((growthOf order table).fronts.map (parentOf order table)).zipIdx.filter
        fun entry => entry.1 = some index).map (·.2) }
  frontOf := (growthOf order table).frontOf

theorem childrenIn_eq (order : EliminationOrder) (table : Table (List Key)) :
    (fun key => ((order.keys.map fun key => (key, parentIn order table key)).filter
      fun entry => entry.2 = some key).map Prod.fst) = childrenIn order table := by
  funext key
  rw [List.filter_map, List.map_map]
  exact List.map_id _

theorem ofGraph_eq {α : Type} (order : EliminationOrder) (g : LinearGraph α) :
    ofGraph order g = (separatorsOf order g).map (ofSeparators order) := by
  unfold ofGraph separatorsOf
  cases g.factors.foldlM (fun (adjacency : Adjacency) f =>
    adjacency.connect f.keys fun _ => .absentKey) (order.keys.map fun key => (key, [])) with
  | error e => rfl
  | ok adjacency =>
    simp only [bind, Except.bind, childrenIn_eq]
    rfl

end FrontForest

end LeastSquares
