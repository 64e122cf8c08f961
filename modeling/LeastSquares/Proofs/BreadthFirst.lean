/-
  LeastSquares/Proofs/BreadthFirst.lean
  =====================================
  **Breadth-first visits reach every place once.**

  A visit adds the neighbours that are new, so no place comes twice, and every place that is not reached
  from an earlier one is a seed itself.  The bound on the number of steps of a visit is never what ends it.
-/
import LeastSquares.Order.Bandwidth
import LeastSquares.Proofs.NeighbourTables
import Mathlib.Data.List.Perm.Subperm

namespace LeastSquares

namespace Bandwidth

variable {neighbours : ℕ → List ℕ} {degree : ℕ → ℕ} {count n place : ℕ} {waiting visited seeds : List ℕ}

theorem sortBy_perm (degree : ℕ → ℕ) (places : List ℕ) : (sortBy degree places).Perm places :=
  List.mergeSort_perm _ _

/-- Places below a bound, none of them twice. -/
structure Distinct (n : ℕ) (places : List ℕ) : Prop where
  nodup : places.Nodup
  lt : ∀ place ∈ places, place < n

theorem Distinct.length_le {places : List ℕ} (h : Distinct n places) : places.length ≤ n := by
  have hsub : places ⊆ List.range n := fun place hplace => List.mem_range.mpr (h.lt place hplace)
  simpa using (List.subperm_of_subset h.nodup hsub).length_le

theorem Distinct.concat (h : Distinct n visited) {seed : ℕ} (hseed : seed < n) (hnew : seed ∉ visited) :
    Distinct n (visited ++ [seed]) := by
  refine ⟨List.nodup_append.mpr ⟨h.nodup, List.nodup_singleton _, ?_⟩, fun place hplace => ?_⟩
  · rintro a ha b hb rfl
    exact hnew (List.mem_singleton.mp hb ▸ ha)
  · rcases List.mem_append.mp hplace with hplace | hplace
    · exact h.lt place hplace
    · exact List.mem_singleton.mp hplace ▸ hseed

/-- **One step of a visit** adds places that are new. -/
theorem Distinct.found (h : Distinct n visited) (hplace : Distinct n (neighbours place))
    (degree : ℕ → ℕ) :
    Distinct n (visited ++
      sortBy degree ((neighbours place).filter fun other => !visited.elem other)) := by
  have hmem : ∀ other ∈ sortBy degree ((neighbours place).filter fun other => !visited.elem other),
      other ∈ neighbours place ∧ other ∉ visited := by
    intro other hother
    simpa using (sortBy_perm degree _).mem_iff.mp hother
  constructor
  · rw [List.nodup_append]
    refine ⟨h.nodup, (sortBy_perm degree _).nodup_iff.mpr (hplace.nodup.filter _), ?_⟩
    rintro a ha b hb rfl
    exact (hmem a hb).2 ha
  · intro other hother
    rcases List.mem_append.mp hother with hother | hother
    · exact h.lt other hother
    · exact hplace.lt other (hmem other hother).1

/-- **A visit** keeps the places so far and adds others, each once. -/
theorem Distinct.visit (h : Distinct n visited) (hplaces : ∀ place, Distinct n (neighbours place))
    (degree : ℕ → ℕ) (count : ℕ) (waiting : List ℕ) :
    Distinct n (visit neighbours degree count waiting visited) ∧
      visited <+: Bandwidth.visit neighbours degree count waiting visited := by
  induction count generalizing waiting visited with
  | zero => exact ⟨h, List.prefix_refl _⟩
  | succ count ih =>
    cases waiting with
    | nil => exact ⟨h, List.prefix_refl _⟩
    | cons place waiting =>
      obtain ⟨hdistinct, hprefix⟩ := ih (h.found (hplaces place) degree) _
      exact ⟨hdistinct, (List.prefix_append _ _).trans hprefix⟩

/-- **The bound on the steps is never what ends a visit**: there are as many as places that wait or are
    still to be found. -/
theorem visit_of_bound (hplaces : ∀ place, Distinct n (neighbours place)) (h : Distinct n visited)
    (hbound : waiting.length + n ≤ count + visited.length) (more : ℕ) :
    visit neighbours degree (count + more) waiting visited =
      visit neighbours degree count waiting visited := by
  induction count generalizing waiting visited with
  | zero =>
    have hlength := h.length_le
    obtain rfl := List.eq_nil_of_length_eq_zero (l := waiting) (by omega)
    cases more <;> simp [visit]
  | succ count ih =>
    cases waiting with
    | nil => rw [visit, visit] <;> simp
    | cons place waiting =>
      rw [Nat.add_right_comm, visit, visit]
      refine ih (h.found (hplaces place) degree) ?_
      simp only [List.length_append, List.length_cons] at hbound ⊢
      omega

/-- What a visit from one seed leads to: the seed is visited, and so is what was before. -/
theorem Distinct.visitFrom (h : Distinct n visited) (hplaces : ∀ place, Distinct n (neighbours place))
    (degree : ℕ → ℕ) (count : ℕ) {seed : ℕ} (hseed : seed < n) :
    let next := if visited.elem seed then visited
      else Bandwidth.visit neighbours degree (count + 1) [seed] (visited ++ [seed])
    Distinct n next ∧ visited ⊆ next ∧ seed ∈ next := by
  intro next
  by_cases hmem : seed ∈ visited
  · have hnext : next = visited := if_pos (by simpa using hmem)
    rw [hnext]
    exact ⟨h, fun _ h => h, hmem⟩
  · have hnext : next = Bandwidth.visit neighbours degree (count + 1) [seed] (visited ++ [seed]) :=
      if_neg (by simpa using hmem)
    obtain ⟨hvisit, hprefix⟩ := (h.concat hseed hmem).visit hplaces degree (count + 1) [seed]
    rw [hnext]
    exact ⟨hvisit, fun place hplace => hprefix.subset (List.mem_append_left _ hplace),
      hprefix.subset (by simp)⟩

/-- **The bound on the steps is never what ends the visits** from all seeds either. -/
theorem visitAll_of_bound (hplaces : ∀ place, Distinct n (neighbours place)) (degree : ℕ → ℕ)
    (hseeds : ∀ seed ∈ seeds, seed < n) (hbound : n ≤ count) (more : ℕ) :
    visitAll neighbours degree (count + more) seeds = visitAll neighbours degree count seeds := by
  have hfold : ∀ visited : List ℕ, Distinct n visited →
      seeds.foldl (fun visited seed =>
        if visited.elem seed then visited
        else visit neighbours degree (count + more + 1) [seed] (visited ++ [seed])) visited =
      seeds.foldl (fun visited seed =>
        if visited.elem seed then visited
        else visit neighbours degree (count + 1) [seed] (visited ++ [seed])) visited := by
    induction seeds with
    | nil => exact fun _ _ => rfl
    | cons seed seeds ih =>
      intro visited h
      have hseed := hseeds seed (by simp)
      have hrest := ih fun seed hseed => hseeds seed (List.mem_cons_of_mem _ hseed)
      have hnext := (h.visitFrom hplaces degree count hseed).1
      rw [List.foldl_cons, List.foldl_cons, ← hrest _ hnext]
      by_cases hmem : seed ∈ visited
      · simp [hmem]
      · have hstart := h.concat hseed hmem
        rw [if_neg (by simpa using hmem), if_neg (by simpa using hmem), Nat.add_right_comm,
          visit_of_bound hplaces hstart (by simp; omega)]
  exact hfold [] ⟨List.nodup_nil, by simp⟩

/-- **The visits from all seeds** find each place once, and all seeds. -/
theorem visitAll_spec (hplaces : ∀ place, Distinct n (neighbours place)) (degree : ℕ → ℕ) (count : ℕ)
    (hseeds : ∀ seed ∈ seeds, seed < n) :
    Distinct n (visitAll neighbours degree count seeds) ∧
      seeds ⊆ visitAll neighbours degree count seeds := by
  -- what is kept from seed to seed: places found stay found
  have hfold : ∀ visited : List ℕ, Distinct n visited →
      let last := seeds.foldl (fun visited seed =>
        if visited.elem seed then visited
        else visit neighbours degree (count + 1) [seed] (visited ++ [seed])) visited
      Distinct n last ∧ visited ⊆ last ∧ seeds ⊆ last := by
    induction seeds with
    | nil => exact fun visited h => ⟨h, fun _ h => h, by simp⟩
    | cons seed seeds ih =>
      intro visited h
      obtain ⟨hnext, hkept, hseed⟩ := h.visitFrom hplaces degree count (hseeds seed (by simp))
      obtain ⟨hlast, hlater, hrest⟩ :=
        ih (fun seed hseed => hseeds seed (List.mem_cons_of_mem _ hseed)) _ hnext
      exact ⟨hlast, fun place hplace => hlater (hkept hplace),
        List.cons_subset.mpr ⟨hlater hseed, hrest⟩⟩
  obtain ⟨hdistinct, -, hall⟩ := hfold [] ⟨List.nodup_nil, by simp⟩
  exact ⟨hdistinct, hall⟩

/-! ### The order of the variables -/

variable {keys : List Key} {adjacency adjacency' : Adjacency}

theorem distinct_places (keys : List Key) (adjacency : Adjacency) (place : ℕ) :
    Distinct keys.length (places keys adjacency place) := by
  rw [places]
  split
  · exact ⟨List.nodup_nil, by simp⟩
  · exact ⟨List.nodup_range.filter _, fun other hother => List.mem_range.mp (List.mem_filter.mp hother).1⟩

theorem places_of_le (adjacency : Adjacency) {place : ℕ} (h : keys.length ≤ place) :
    places keys adjacency place = [] := by
  rw [places, List.getElem?_eq_none h]

/-- The table that is built first holds the places of the neighbours, and nothing past its end. -/
theorem table_getD (keys : List Key) (adjacency : Adjacency) (place : ℕ) :
    ((List.range keys.length).map (places keys adjacency)).toArray.getD place [] =
      places keys adjacency place := by
  rcases Nat.lt_or_ge place keys.length with hlt | hge
  · simp [hlt]
  · simp [places_of_le adjacency hge, Nat.not_lt.mpr hge]

/-- **Every variable comes once**, whether or not it has neighbours. -/
theorem order_perm (keys : List Key) (adjacency : Adjacency) : (order keys adjacency).Perm keys := by
  simp only [order, table_getD]
  generalize hdegree : (fun place => (places keys adjacency place).length) = degree
  have hseeds := sortBy_perm degree (List.range keys.length)
  obtain ⟨hdistinct, hall⟩ := visitAll_spec (distinct_places keys adjacency) degree keys.length
    fun seed hseed => List.mem_range.mp (hseeds.mem_iff.mp hseed)
  have hperm := (List.perm_ext_iff_of_nodup hdistinct.nodup List.nodup_range).mpr fun place =>
    ⟨fun hplace => List.mem_range.mpr (hdistinct.lt place hplace),
      fun hplace => hall (hseeds.mem_iff.mpr hplace)⟩
  have hfound := ((List.reverse_perm _).trans hperm).filterMap (keys[·]?)
  rwa [filterMap_range_getElem?] at hfound

/-- **The order depends on which variables are neighbours only**, not on how the rows list them. -/
theorem order_congr (h : ∀ a ∈ keys, ∀ b ∈ keys, b ∈ adjacency.neighbours a ↔ b ∈ adjacency'.neighbours a) :
    order keys adjacency = order keys adjacency' := by
  have hplaces : places keys adjacency = places keys adjacency' := by
    funext place
    rw [places, places]
    split
    · rfl
    · next key hkey =>
      refine List.filter_congr fun other _ => ?_
      split
      · next key' hkey' =>
        have hiff := h key (List.mem_of_getElem? hkey) key' (List.mem_of_getElem? hkey')
        rw [Adjacency.neighbours, Adjacency.neighbours] at hiff
        simpa using hiff
      · rfl
  simp only [order, hplaces]

end Bandwidth

end LeastSquares
