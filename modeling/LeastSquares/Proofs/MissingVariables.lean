/-
  LeastSquares/Proofs/MissingVariables.lean
  =========================================
  **The variables of the factors that are not among given ones.**

  They are looked for twice, by different means: before an estimate is evaluated, and while the neighbours
  of its variables are collected.  Both pass when every factor is covered, and both report the first
  variable that is missing of the first factor that has one.
-/
import LeastSquares.Proofs.NeighbourTables

namespace LeastSquares

/-- The first item of a list that lacks a property. -/
def IsFirstWithout {β : Type} (P : β → Prop) (xs : List β) (x : β) : Prop :=
  ∃ before after, xs = before ++ x :: after ∧ (∀ y ∈ before, P y) ∧ ¬ P x

theorem exists_isFirstWithout {β : Type} {P : β → Prop} {xs : List β} (h : ¬ ∀ x ∈ xs, P x) :
    ∃ x, IsFirstWithout P xs x := by
  induction xs with
  | nil => simp at h
  | cons x xs ih =>
    by_cases hx : P x
    · have hrest : ¬ ∀ y ∈ xs, P y := fun hrest => h (List.forall_mem_cons.mpr ⟨hx, hrest⟩)
      obtain ⟨y, before, after, rfl, hbefore, hy⟩ := ih hrest
      exact ⟨y, x :: before, after, rfl, List.forall_mem_cons.mpr ⟨hx, hbefore⟩, hy⟩
    · exact ⟨x, [], xs, rfl, by simp, hx⟩

theorem IsFirstWithout.mem {β : Type} {P : β → Prop} {xs : List β} {x : β}
    (h : IsFirstWithout P xs x) : x ∈ xs := by
  obtain ⟨before, after, rfl, -, -⟩ := h
  exact List.mem_append_right _ List.mem_cons_self

theorem IsFirstWithout.lacks {β : Type} {P : β → Prop} {xs : List β} {x : β}
    (h : IsFirstWithout P xs x) : ¬ P x := by
  obtain ⟨_, _, _, _, hx⟩ := h
  exact hx

namespace Graph

variable {α : Type} {g : Graph α} {keys : List Key} {values : Values α} {f : Factor α} {key : Key}

/-- Every factor refers to given variables only. -/
def CoveredBy (g : Graph α) (keys : List Key) : Prop := ∀ f ∈ g.factors, ∀ key ∈ f.keys, key ∈ keys

/-- The first factor that refers to other variables, and the first of these. -/
structure FirstMissing (g : Graph α) (keys : List Key) (f : Factor α) (key : Key) : Prop where
  factor : IsFirstWithout (fun f : Factor α => ∀ key ∈ f.keys, key ∈ keys) g.factors f
  among : IsFirstWithout (· ∈ keys) f.keys key

theorem exists_firstMissing (h : ¬ g.CoveredBy keys) : ∃ f key, g.FirstMissing keys f key := by
  obtain ⟨f, hf⟩ := exists_isFirstWithout h
  obtain ⟨key, hkey⟩ := exists_isFirstWithout hf.lacks
  exact ⟨f, key, hf, hkey⟩

/-! ### Before an estimate is evaluated -/

theorem checkFactor_of_covered (h : ∀ key ∈ f.keys, key ∈ values.keys) : checkFactor values f = .ok () := by
  have hnone : f.keys.find? (fun key => !values.contains key) = none := by
    rw [List.find?_eq_none]
    intro key hkey
    simpa [Values.contains] using (Table.contains_iff values.entries key).mpr (h key hkey)
  rw [checkFactor, hnone]

theorem checkFactor_error (h : IsFirstWithout (· ∈ values.keys) f.keys key) :
    checkFactor values f = .error (.missingVariable key f.label) := by
  obtain ⟨before, after, hsplit, hbefore, hkey⟩ := h
  have hsome : f.keys.find? (fun key => !values.contains key) = some key := by
    rw [List.find?_eq_some_iff_append]
    refine ⟨?_, before, after, hsplit, fun k hk => ?_⟩
    · simpa [Values.contains] using (Table.contains_iff values.entries key).not.mpr hkey
    · simpa [Values.contains] using (Table.contains_iff values.entries k).mpr (hbefore k hk)
  rw [checkFactor, hsome]

theorem forM_checkFactor {factors : List (Factor α)}
    (h : ∀ f ∈ factors, ∀ key ∈ f.keys, key ∈ values.keys) :
    forM factors (checkFactor values) = Except.ok () := by
  induction factors with
  | nil => rfl
  | cons f factors ih =>
    obtain ⟨hf, hrest⟩ := List.forall_mem_cons.mp h
    exact bind_eq_ok.mpr ⟨(), checkFactor_of_covered hf, ih hrest⟩

theorem checkKeys_of_covered (h : g.CoveredBy values.keys) : g.checkKeys values = .ok () :=
  forM_checkFactor h

theorem checkKeys_error (h : g.FirstMissing values.keys f key) :
    g.checkKeys values = .error (.missingVariable key f.label) := by
  obtain ⟨before, after, hsplit, hbefore, -⟩ := h.factor
  change forM g.factors (checkFactor values) = _
  simp only [hsplit, List.forM_append, List.forM_cons, forM_checkFactor hbefore,
    checkFactor_error h.among, bind, Except.bind]

theorem covered_of_checkKeys (h : g.checkKeys values = .ok ()) : g.CoveredBy values.keys := by
  by_contra hnot
  obtain ⟨f, key, hmissing⟩ := exists_firstMissing hnot
  rw [checkKeys_error hmissing] at h
  cases h

/-! ### While neighbours are collected -/

/-- Two different variables that some factor refers to. -/
def Adjacent (g : Graph α) (a b : Key) : Prop := a ≠ b ∧ ∃ f ∈ g.factors, a ∈ f.keys ∧ b ∈ f.keys

theorem Adjacent.symm {a b : Key} (h : g.Adjacent a b) : g.Adjacent b a :=
  ⟨h.1.symm, h.2.imp fun _ ⟨hf, ha, hb⟩ => ⟨hf, hb, ha⟩⟩

/-- **The neighbours that are collected** are the variables that share a factor. -/
theorem adjacency_of_covered (hnodup : keys.Nodup) (h : g.CoveredBy keys) :
    ∃ adjacency, g.adjacency keys = .ok adjacency ∧ adjacency.Records keys g.Adjacent := by
  obtain ⟨adjacency, hadjacency, hrecords⟩ := (Adjacency.records_empty keys).connectAll
    Factor.keys (fun f key => .missingVariable key f.label) h
  refine ⟨adjacency, ?_, hrecords.congr fun a _ b => by simp [Adjacent]⟩
  rw [Graph.adjacency, distinct_of_nodup hnodup]
  exact hadjacency

theorem adjacency_error (h : g.FirstMissing keys f key) :
    g.adjacency keys = .error (.missingVariable key f.label) := by
  obtain ⟨before, after, hsplit, hbefore, -⟩ := h.factor
  obtain ⟨done, rest, hkeys, hdone, hkey⟩ := h.among
  have hlisted : ∀ f ∈ before, ∀ key ∈ f.keys, key ∈ distinct keys := fun f hf key hkey =>
    mem_distinct.mpr (hbefore f hf key hkey)
  obtain ⟨adjacency, hadjacency, hrecords⟩ := (Adjacency.records_empty (distinct keys)).connectAll
    Factor.keys (fun f key => .missingVariable key f.label) hlisted
  rw [Graph.adjacency, hsplit]
  refine foldlM_error hadjacency ?_
  rw [hkeys]
  refine Adjacency.connect_error (fun k hk => ?_) ?_ _
  · rw [hrecords.keys_eq, mem_distinct]
    exact hdone k hk
  · rwa [hrecords.keys_eq, mem_distinct]

end Graph

end LeastSquares
