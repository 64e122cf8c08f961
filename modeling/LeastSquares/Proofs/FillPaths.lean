/-
  LeastSquares/Proofs/FillPaths.lean
  ==================================
  **The neighbours of a variable at the time it is eliminated.**

  While variables are eliminated, the rows that are left relate two variables exactly when a path
  through eliminated variables joins them.  So the neighbours of a variable at its turn are the later
  variables that it reaches through earlier ones.
-/
import LeastSquares.Linear.BayesTree
import LeastSquares.Proofs.NeighbourTables
import LeastSquares.Proofs.Positions

namespace LeastSquares

namespace FrontForest

variable {α : Type} {order : EliminationOrder} {g : LinearGraph α}

/-- Every variable with its separator, for the factors of a linear problem. -/
def separatorsOf (order : EliminationOrder) (g : LinearGraph α) : Except Error (Table (List Key)) := do
  let adjacency ← g.factors.foldlM
    (fun (adjacency : Adjacency) f => adjacency.connect f.keys fun _ => .absentKey)
    (order.keys.map fun key => (key, []))
  return separators order.keys adjacency

/-- One variable comes after another, and is reached from it through earlier ones. -/
def Fills (order : EliminationOrder) (g : LinearGraph α) (key other : Key) : Prop :=
  other ∈ order.keys ∧ order.place key < order.place other ∧
    Through g.Adjacent (fun between => order.place between < order.place key) key other

theorem adjacency_records (hlisted : ∀ f ∈ g.factors, ∀ key ∈ f.keys, key ∈ order.keys) :
    ∃ adjacency : Adjacency, g.factors.foldlM
        (fun (adjacency : Adjacency) f => adjacency.connect f.keys fun _ => .absentKey)
        (order.keys.map fun key => (key, [])) = .ok adjacency ∧
      adjacency.Records order.keys g.Adjacent := by
  obtain ⟨adjacency, hadjacency, hrecords⟩ := (Adjacency.records_empty order.keys).connectAll
    LinearFactor.keys (fun _ _ => .absentKey) hlisted
  exact ⟨adjacency, hadjacency, hrecords.congr fun a _ b => by simp [LinearGraph.Adjacent]⟩

/-- Fronts are found only for factors of ordered variables. -/
theorem listed_of_ofGraph {forest : FrontForest} (h : ofGraph order g = .ok forest) :
    ∀ f ∈ g.factors, ∀ key ∈ f.keys, key ∈ order.keys := by
  obtain ⟨adjacency, hadjacency, -⟩ := bind_eq_ok.mp h
  have hkeys : Table.keys (order.keys.map fun key => (key, ([] : List Key))) = order.keys := by
    simp [Table.keys, Function.comp_def]
  exact hkeys ▸ Adjacency.mem_of_connectAll LinearFactor.keys (fun _ _ => .absentKey) hadjacency

/-- **The separators of the variables that are left** are the later variables that they reach through
    earlier ones. -/
theorem separators_spec (hnodup : order.keys.Nodup) {adjacency : Adjacency} {before left : List Key}
    (hsplit : before ++ left = order.keys)
    (h : adjacency.Records left (Adjacency.Joined g.Adjacent before left)) :
    (separators left adjacency).keys = left ∧
      ∀ key ∈ left, (separatorIn (separators left adjacency) key).Nodup ∧
        ∀ other, other ∈ separatorIn (separators left adjacency) key ↔ Fills order g key other := by
  induction left generalizing before adjacency with
  | nil => exact ⟨rfl, by simp⟩
  | cons key left ih =>
    have hleft : (key :: left).Nodup := (List.nodup_append.mp (hsplit ▸ hnodup)).2.1
    have hbefore := EliminationOrder.mem_before_iff hnodup hsplit
    have hafter := EliminationOrder.mem_after_iff hnodup hsplit
    have hmoved : (before ++ [key]) ++ left = order.keys := by rw [List.append_assoc]; exact hsplit
    have hnext := h.eliminate_joined hleft (List.mem_cons_self : key ∈ key :: left)
      fun _ _ => LinearGraph.Adjacent.symm
    rw [List.erase_cons_head] at hnext
    obtain ⟨hkeys, hrest⟩ := ih hmoved hnext
    refine ⟨congrArg (key :: ·) hkeys, fun k hk => ?_⟩
    rcases List.mem_cons.mp hk with rfl | hk
    · have hrow : separatorIn (separators (k :: left) adjacency) k = adjacency.neighbours k := by
        rw [separatorIn, separators, Table.get?_cons, if_pos rfl]
        rfl
      rw [hrow]
      refine ⟨h.nodup k (by simp), fun other => ?_⟩
      have hchosen : (fun between => between ∈ before) =
          fun between => order.place between < order.place k := funext fun between =>
        propext (hbefore between)
      rw [h.mem_iff k (by simp), Adjacency.Joined, Fills, hchosen, ← and_assoc, ← and_assoc, ← hafter other,
        List.mem_cons]
      refine and_congr_left fun _ => ?_
      constructor
      · rintro ⟨hmem, hne⟩
        exact hmem.resolve_left hne.symm
      · exact fun hmem => ⟨.inr hmem, fun heq => (List.nodup_cons.mp hleft).1 (heq ▸ hmem)⟩
    · have hne : k ≠ key := fun heq => (List.nodup_cons.mp hleft).1 (heq ▸ hk)
      have hrow : separatorIn (separators (key :: left) adjacency) k =
          separatorIn (separators left (adjacency.eliminate key)) k := by
        rw [separatorIn, separators, Table.get?_cons, if_neg hne]
        rfl
      rw [hrow]
      exact hrest k hk

/-- **Fill paths**: every ordered variable has a separator, which lists without repetitions the later
    variables that it reaches through earlier ones. -/
theorem separatorsOf_spec (hnodup : order.keys.Nodup)
    (hlisted : ∀ f ∈ g.factors, ∀ key ∈ f.keys, key ∈ order.keys) :
    ∃ table, separatorsOf order g = .ok table ∧ table.keys = order.keys ∧
      ∀ key ∈ order.keys, (separatorIn table key).Nodup ∧
        ∀ other, other ∈ separatorIn table key ↔ Fills order g key other := by
  obtain ⟨adjacency, hadjacency, hrecords⟩ := adjacency_records hlisted
  have hlast : ∀ a b, g.Adjacent a b → b ∈ order.keys := fun a b ⟨_, f, hf, _, hb⟩ => hlisted f hf b hb
  have hstart : adjacency.Records order.keys (Adjacency.Joined g.Adjacent [] order.keys) :=
    hrecords.congr fun a _ b => (Adjacency.joined_nil_iff hlast (fun _ h => h.1 rfl) a b).symm
  exact ⟨separators order.keys adjacency, by simp only [separatorsOf, hadjacency]; rfl,
    separators_spec hnodup (List.nil_append _) hstart⟩

end FrontForest

end LeastSquares
