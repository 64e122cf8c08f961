/-
  LeastSquares/Proofs/ComputedOrder.lean
  ======================================
  **The order that is computed for an estimate.**

  Every method lists the variables of the estimate, each once, or reports the first variable that the
  estimate lacks.  Which order it is depends on the estimate and on which variables share a factor: two
  tables of neighbours that record the same relation are ordered the same.
-/
import LeastSquares.Order.Choice
import LeastSquares.Proofs.BreadthFirst
import LeastSquares.Proofs.GreedyOrder
import LeastSquares.Proofs.MissingVariables

namespace LeastSquares

variable {α : Type}

/-! ### Estimates -/

/-- A variable is inserted once. -/
theorem Values.nodup_of_insert [Scalar α] {v w : Values α} (hv : v.keys.Nodup) {key : Key} {value : Given α}
    (h : v.insert key value = .ok w) : w.keys.Nodup := by
  rw [keys_of_insert h]
  rw [insert] at h
  split_ifs at h with hkey
  have hfresh : key ∉ v.keys := (Table.contains_iff v.entries key).not.mp hkey
  refine List.nodup_append.mpr ⟨hv, List.nodup_singleton _, ?_⟩
  rintro a ha b hb rfl
  exact hfresh (List.mem_singleton.mp hb ▸ ha)

/-- An estimate that is put together has different variables. -/
theorem Values.nodup_of_ofRows [Scalar α] {rows : List (Key × Given α)} {v : Values α}
    (h : ofRows rows = .ok v) : v.keys.Nodup := by
  have hfold : ∀ (rows : List (Key × Given α)) (start : Values α), start.keys.Nodup →
      rows.foldlM (fun v row => v.insert row.1 row.2) start = .ok v → v.keys.Nodup := by
    intro rows
    induction rows with
    | nil =>
      rintro start hstart ⟨⟩
      exact hstart
    | cons row rows ih =>
      intro start hstart h
      obtain ⟨next, hnext, h⟩ := bind_eq_ok.mp h
      exact ih next (nodup_of_insert hstart hnext) h
  exact hfold rows empty List.nodup_nil h

/-! ### The same factors, listed differently -/

namespace Graph

variable {g g' : Graph α}

/-- Two graphs have factors of the same variables, up to the order of the factors and that of the
    variables within each. -/
def SameFactors (g g' : Graph α) : Prop :=
  ∃ factors, g.factors.Perm factors ∧
    List.Forall₂ (fun f f' => f.keys.Perm f'.keys) factors g'.factors

theorem SameFactors.exists_iff (h : g.SameFactors g') {P : List Key → Prop}
    (hP : ∀ keys keys' : List Key, keys.Perm keys' → (P keys ↔ P keys')) :
    (∃ f ∈ g.factors, P f.keys) ↔ ∃ f ∈ g'.factors, P f.keys := by
  obtain ⟨factors, hperm, hall⟩ := h
  constructor
  · rintro ⟨f, hf, hkeys⟩
    obtain ⟨f', hf', hsame⟩ := exists_right_of_mem hall (hperm.mem_iff.mp hf)
    exact ⟨f', hf', (hP _ _ hsame).mp hkeys⟩
  · rintro ⟨f', hf', hkeys⟩
    obtain ⟨f, hf, hsame⟩ := exists_right_of_mem hall.flip hf'
    exact ⟨f, hperm.mem_iff.mpr hf, (hP _ _ hsame).mpr hkeys⟩

theorem SameFactors.adjacent_iff (h : g.SameFactors g') (a b : Key) : g.Adjacent a b ↔ g'.Adjacent a b :=
  and_congr_right fun _ => h.exists_iff (P := fun keys => a ∈ keys ∧ b ∈ keys) fun _ _ hperm => by
    rw [hperm.mem_iff, hperm.mem_iff]

theorem SameFactors.coveredBy_iff (h : g.SameFactors g') (keys : List Key) :
    g.CoveredBy keys ↔ g'.CoveredBy keys := by
  have hmissing := h.exists_iff (P := fun listed => ∃ key ∈ listed, key ∉ keys) fun _ _ hperm => by
    simp only [hperm.mem_iff]
  simpa only [CoveredBy, not_exists, not_and, not_not] using not_congr hmissing

end Graph

/-! ### Orders -/

/-- **The neighbours of a graph are symmetric**, as minimum degree needs them. -/
theorem Graph.isSymmetric_of_records {g : Graph α} {keys : List Key} {adjacency : Adjacency}
    (hcovered : g.CoveredBy keys) (h : adjacency.Records keys g.Adjacent) : adjacency.IsSymmetric keys := by
  have hlisted : ∀ a ∈ keys, ∀ b ∈ adjacency.neighbours a, g.Adjacent a b ∧ b ∈ keys := by
    intro a ha b hb
    obtain ⟨hne, f, hf, hboth⟩ := (h.mem_iff a ha b).mp hb
    exact ⟨⟨hne, f, hf, hboth⟩, hcovered f hf b hboth.2⟩
  refine ⟨.of_eq h.keys_eq, h.nodup, fun a ha b hb => (hlisted a ha b hb).2, ?_, fun a ha b hb => ?_⟩
  · exact fun a ha haa => (hlisted a ha a haa).1.1 rfl
  · obtain ⟨hadjacent, hmem⟩ := hlisted a ha b hb
    exact (h.mem_iff b hmem a).mpr hadjacent.symm

namespace EliminationOrder

variable {g g' : Graph α} {values : Values α} {method : String}

/-- The methods that are known. -/
def methods : List String := ["amd", "rcm", "natural"]

/-- **An order that is computed** lists the variables of the estimate, each once. -/
theorem compute_perm {order : EliminationOrder} (h : compute g values method = .ok order) :
    order.keys.Nodup ∧ order.keys.Perm values.keys := by
  have hlisted : ∀ keys : List Key, keys.Perm values.keys → ofKeys keys = .ok order →
      order.keys.Nodup ∧ order.keys.Perm values.keys := by
    intro keys hperm hkeys
    obtain ⟨rfl, hnodup⟩ := (ofKeys_eq_ok_iff _ _).mp hkeys
    exact ⟨hnodup, hperm⟩
  rw [compute] at h
  split_ifs at h <;> obtain ⟨_, -, h⟩ := bind_eq_ok.mp h
  · exact hlisted _ (.refl _) h
  · exact hlisted _ (MinimumDegree.order_perm _ _) h
  · exact hlisted _ (Bandwidth.order_perm _ _) h
  · cases h

/-- **Every known method orders an estimate of all variables of the factors.** -/
theorem compute_of_covered (hnodup : values.keys.Nodup) (hcovered : g.CoveredBy values.keys)
    (hmethod : method ∈ methods) : ∃ order, compute g values method = .ok order := by
  have hkeys : ∀ keys : List Key, keys.Perm values.keys → ofKeys keys = .ok ⟨keys⟩ := fun keys hperm =>
    (ofKeys_eq_ok_iff _ _).mpr ⟨rfl, hperm.nodup_iff.mpr hnodup⟩
  obtain ⟨adjacency, hadjacency, -⟩ := Graph.adjacency_of_covered hnodup hcovered
  rw [compute]
  split_ifs with hnatural hdegree hbandwidth
  · exact ⟨_, bind_eq_ok.mpr ⟨(), Graph.checkKeys_of_covered hcovered, hkeys _ (.refl _)⟩⟩
  · exact ⟨_, bind_eq_ok.mpr ⟨adjacency, hadjacency, hkeys _ (MinimumDegree.order_perm _ _)⟩⟩
  · exact ⟨_, bind_eq_ok.mpr ⟨adjacency, hadjacency, hkeys _ (Bandwidth.order_perm _ _)⟩⟩
  · simp [methods, hnatural, hdegree, hbandwidth] at hmethod

/-- **Every method reports the first variable that the estimate lacks.** -/
theorem compute_error {f : Factor α} {key : Key} (h : g.FirstMissing values.keys f key) (method : String) :
    compute g values method = .error (.missingVariable key f.label) := by
  simp only [compute, Graph.checkKeys_error h, Graph.adjacency_error h, bind, Except.bind, ite_self]

/-- **The order depends on which variables share a factor only.** -/
theorem compute_congr (hnodup : values.keys.Nodup) (hcovered : g.CoveredBy values.keys)
    (hcovered' : g'.CoveredBy values.keys) (hadjacent : ∀ a b, g.Adjacent a b ↔ g'.Adjacent a b)
    (method : String) : compute g values method = compute g' values method := by
  obtain ⟨adjacency, hadjacency, hrecords⟩ := Graph.adjacency_of_covered hnodup hcovered
  obtain ⟨adjacency', hadjacency', hrecords'⟩ := Graph.adjacency_of_covered hnodup hcovered'
  have hsame : ∀ a ∈ values.keys, ∀ b, b ∈ adjacency.neighbours a ↔ b ∈ adjacency'.neighbours a :=
    fun a ha b => by rw [hrecords.mem_iff a ha, hrecords'.mem_iff a ha, hadjacent]
  have hdegree := MinimumDegree.order_congr hnodup (Graph.isSymmetric_of_records hcovered hrecords)
    (Graph.isSymmetric_of_records hcovered' hrecords') hsame
  have hbandwidth := Bandwidth.order_congr fun a ha b _ => hsame a ha b
  simp only [compute, Graph.checkKeys_of_covered hcovered, Graph.checkKeys_of_covered hcovered',
    hadjacency, hadjacency', bind, Except.bind, hdegree, hbandwidth]

/-- **What the computation of an order comes to**, for each of the known methods.  An estimate of all
    variables of the factors is ordered, each of its variables once.  Otherwise the first variable that is
    missing of the first factor that has one is reported.  The order stays the same when factors, or the
    variables within a factor, change places. -/
theorem compute_orders_estimate (hnodup : values.keys.Nodup) (hmethod : method ∈ methods) :
    (g.CoveredBy values.keys → ∃ order, compute g values method = .ok order ∧ order.keys.Nodup ∧
      order.keys.Perm values.keys) ∧
    (¬ g.CoveredBy values.keys → ∃ f key, g.FirstMissing values.keys f key ∧
      compute g values method = .error (.missingVariable key f.label)) ∧
    ∀ g', g.SameFactors g' → ∀ order,
      compute g values method = .ok order ↔ compute g' values method = .ok order := by
  refine ⟨fun hcovered => ?_, fun hmissing => ?_, fun g' hsame order => ?_⟩
  · obtain ⟨order, horder⟩ := compute_of_covered hnodup hcovered hmethod
    exact ⟨order, horder, compute_perm horder⟩
  · obtain ⟨f, key, hfirst⟩ := Graph.exists_firstMissing hmissing
    exact ⟨f, key, hfirst, compute_error hfirst method⟩
  · by_cases hcovered : g.CoveredBy values.keys
    · rw [compute_congr hnodup hcovered ((hsame.coveredBy_iff _).mp hcovered) hsame.adjacent_iff]
    · obtain ⟨f, key, hfirst⟩ := Graph.exists_firstMissing hcovered
      obtain ⟨f', key', hfirst'⟩ :=
        Graph.exists_firstMissing ((hsame.coveredBy_iff _).not.mp hcovered)
      simp [compute_error hfirst, compute_error hfirst']

/-- Two variables that share a factor and one that no factor refers to: all three are ordered, and the same
    way when the factor names its variables the other way around. -/
theorem compute_orders_estimate_link :
    let values : Values Int := ⟨[(.number 0, [0]), (.number 1, [0]), (.number 2, [0])]⟩
    let link : Key → Key → Graph Int := fun a b => ⟨[⟨.between a b (.ofVector [0]), none, some "link"⟩]⟩
    let g := link (.number 0) (.number 1)
    values.keys.Nodup ∧ "rcm" ∈ methods ∧
      (∃ order, compute g values "rcm" = .ok order ∧ order.keys.Nodup ∧ order.keys.Perm values.keys) ∧
      ∀ order, compute g values "rcm" = .ok order ↔
        compute (link (.number 1) (.number 0)) values "rcm" = .ok order := by
  intro values link g
  have hnodup : values.keys.Nodup := by decide
  have hmethod : "rcm" ∈ methods := by decide
  have hcovered : g.CoveredBy values.keys := List.forall_mem_singleton.mpr (by decide)
  have hsame : g.SameFactors (link (.number 1) (.number 0)) :=
    ⟨_, .refl _, .cons (List.Perm.swap _ _ _) .nil⟩
  obtain ⟨hordered, -, hcongr⟩ := compute_orders_estimate (g := g) hnodup hmethod
  exact ⟨hnodup, hmethod, hordered hcovered, hcongr _ hsame⟩

end EliminationOrder

end LeastSquares
