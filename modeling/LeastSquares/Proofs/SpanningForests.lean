/-
  LeastSquares/Proofs/SpanningForests.lean
  ========================================
  **Both ways to choose edges give a spanning forest.**

  Whether edges are tried by weight or vertices are visited breadth first, each edge that is chosen
  joins two vertices that the edges chosen before it do not connect.  So no cycle closes, and no two
  chosen edges are parallel.  That the ends of every other edge are connected already is told by the
  labels of the vertices in the one case, and in the other by the vertices that were visited.
-/
import LeastSquares.Linear.SpanningForest
import LeastSquares.Proofs.BreadthFirst
import Mathlib.Combinatorics.SimpleGraph.Acyclic

namespace LeastSquares

/-! ### Connected vertices -/

section

variable {V W : Type} {G : SimpleGraph V}

/-- Where the ends of every edge go to connected vertices, so do all vertices that are connected. -/
theorem reachable_map_of_forall_adj {H : SimpleGraph W} {f : V → W}
    (h : ∀ a b, G.Adj a b → H.Reachable (f a) (f b)) {a b : V} (hab : G.Reachable a b) :
    H.Reachable (f a) (f b) := by
  obtain ⟨walk⟩ := hab
  induction walk with
  | nil => exact .refl _
  | cons hadj _ ih => exact (h _ _ hadj).trans ih

theorem reachable_of_forall_adj {H : SimpleGraph V} (h : ∀ a b, G.Adj a b → H.Reachable a b) {a b : V}
    (hab : G.Reachable a b) : H.Reachable a b :=
  reachable_map_of_forall_adj (f := id) h hab

/-- What one more edge connects: its two ends, and what was connected to them. -/
theorem reachable_sup_edge {x y a b : V} :
    (G ⊔ SimpleGraph.edge x y).Reachable a b ↔
      G.Reachable a b ∨ G.Reachable a x ∧ G.Reachable y b ∨ G.Reachable a y ∧ G.Reachable x b := by
  constructor
  · rintro ⟨walk⟩
    induction walk with
    | nil => exact .inl (.refl _)
    | cons hadj _ ih =>
      rcases hadj with hadj | hadj
      · have hstep := hadj.reachable
        rcases ih with h | ⟨h, h'⟩ | ⟨h, h'⟩
        · exact .inl (hstep.trans h)
        · exact .inr (.inl ⟨hstep.trans h, h'⟩)
        · exact .inr (.inr ⟨hstep.trans h, h'⟩)
      · rcases ((SimpleGraph.edge_adj ..).mp hadj).1 with ⟨rfl, rfl⟩ | ⟨rfl, rfl⟩
        · rcases ih with h | ⟨-, h⟩ | ⟨-, h⟩
          · exact .inr (.inl ⟨.refl _, h⟩)
          · exact .inr (.inl ⟨.refl _, h⟩)
          · exact .inl h
        · rcases ih with h | ⟨-, h⟩ | ⟨-, h⟩
          · exact .inr (.inr ⟨.refl _, h⟩)
          · exact .inl h
          · exact .inr (.inr ⟨.refl _, h⟩)
  · have hmono : ∀ {u v}, G.Reachable u v → (G ⊔ SimpleGraph.edge x y).Reachable u v :=
      fun h => h.mono le_sup_left
    have hedge : (G ⊔ SimpleGraph.edge x y).Reachable x y := by
      by_cases hxy : x = y
      · exact hxy ▸ .refl _
      · exact SimpleGraph.Adj.reachable (.inr ((SimpleGraph.edge_adj ..).mpr ⟨.inl ⟨rfl, rfl⟩, hxy⟩))
    rintro (h | ⟨h, h'⟩ | ⟨h, h'⟩)
    · exact hmono h
    · exact (hmono h).trans (hedge.trans (hmono h'))
    · exact (hmono h).trans (hedge.symm.trans (hmono h'))

end

variable {α : Type}

/-- The two vertices of an edge. -/
def Edge.ends (e : Edge α) : Sym2 ℕ := s(e.first, e.second)

theorem Edge.reachable_iff {e : Edge α} {a b : ℕ} (hends : e.ends = s(a, b)) (G : SimpleGraph ℕ) :
    G.Reachable e.first e.second ↔ G.Reachable a b := by
  rcases Sym2.eq_iff.mp hends with ⟨rfl, rfl⟩ | ⟨rfl, rfl⟩
  · exact Iff.rfl
  · exact SimpleGraph.reachable_comm

namespace SpanningForest

variable {count : ℕ} {e : Edge α} {edges forest before : List (Edge α)}

/-- The graph in which the ends of each edge of a list are joined. -/
def graphOf (edges : List (Edge α)) : SimpleGraph ℕ :=
  .fromEdgeSet {p | ∃ e ∈ edges, e.ends = p}

theorem graphOf_nil : graphOf ([] : List (Edge α)) = ⊥ := by
  simp [graphOf]

theorem graphOf_concat (edges : List (Edge α)) (e : Edge α) :
    graphOf (edges ++ [e]) = graphOf edges ⊔ SimpleGraph.edge e.first e.second := by
  have hsets : {p | ∃ f ∈ edges ++ [e], f.ends = p} = {p | ∃ f ∈ edges, f.ends = p} ∪ {e.ends} := by
    ext p
    simp [or_and_right, exists_or, or_comm, eq_comm (a := p)]
  rw [graphOf, hsets, SimpleGraph.fromEdgeSet_union]
  rfl

theorem graphOf_mono (h : edges ⊆ forest) : graphOf edges ≤ graphOf forest :=
  SimpleGraph.fromEdgeSet_mono fun _ ⟨e, he, hends⟩ => ⟨e, h he, hends⟩

theorem reachable_ends (h : e ∈ edges) {a b : ℕ} (hends : e.ends = s(a, b)) :
    (graphOf edges).Reachable a b := by
  by_cases hab : a = b
  · exact hab ▸ .refl _
  · exact SimpleGraph.Adj.reachable ⟨⟨e, h, hends⟩, hab⟩

/-! ### Spanning forests -/

/-- A choice of edges without parallel ones and without cycles, which connects what all edges
    connect. -/
structure Spans (forest edges : List (Edge α)) : Prop where
  subset : forest ⊆ edges
  nodup : (forest.map Edge.ends).Nodup
  acyclic : (graphOf forest).IsAcyclic
  connects : ∀ e ∈ edges, (graphOf forest).Reachable e.first e.second

/-- A list of edges each of which joins two vertices that those before it do not connect. -/
inductive Grown : List (Edge α) → Prop where
  | nil : Grown []
  | concat {forest : List (Edge α)} {e : Edge α} : Grown forest →
      ¬(graphOf forest).Reachable e.first e.second → Grown (forest ++ [e])

theorem Grown.acyclic (h : Grown forest) : (graphOf forest).IsAcyclic := by
  induction h with
  | nil => exact graphOf_nil (α := α) ▸ SimpleGraph.isAcyclic_bot
  | concat _ hapart ih => exact graphOf_concat _ _ ▸ ih.sup_edge_of_not_reachable hapart

theorem Grown.nodup (h : Grown forest) : (forest.map Edge.ends).Nodup := by
  induction h with
  | nil => exact List.nodup_nil
  | @concat forest e _ hapart ih =>
    rw [List.map_append, List.map_singleton, ← List.concat_eq_append, List.nodup_concat]
    refine ⟨fun hmem => ?_, ih⟩
    obtain ⟨f, hf, hends⟩ := List.mem_map.mp hmem
    exact hapart (reachable_ends hf hends)

/-! ### By weight -/

/-- Vertices have the same label exactly when they are connected. -/
structure Labels (count : ℕ) (labels : List ℕ) (G : SimpleGraph ℕ) : Prop where
  length : labels.length = count
  same_iff : ∀ a < count, ∀ b < count,
    component labels a = component labels b ↔ G.Reachable a b

theorem labels_separate (count : ℕ) : Labels count (separate count) ⊥ := by
  refine ⟨List.length_range, fun a ha b hb => ?_⟩
  have hown : ∀ v < count, component (separate count) v = v := fun v hv => by
    simp [component, separate, List.getD_eq_getElem?_getD, hv]
  rw [hown a ha, hown b hb, SimpleGraph.reachable_bot]

theorem component_join {labels : List ℕ} {v : ℕ} (hv : v < labels.length) (a b : ℕ) :
    component (join labels a b) v = if component labels v = a then b else component labels v := by
  simp [component, join, List.getD_eq_getElem?_getD, hv]

/-- **One edge** between two components makes one of them. -/
theorem Labels.join {labels : List ℕ} {G : SimpleGraph ℕ} (h : Labels count labels G) {x y : ℕ}
    (hx : x < count) (hy : y < count) (hapart : component labels x ≠ component labels y) :
    Labels count (join labels (component labels x) (component labels y))
      (G ⊔ SimpleGraph.edge x y) := by
  refine ⟨by rw [SpanningForest.join, List.length_map, h.length], fun a ha b hb => ?_⟩
  rw [component_join (h.length ▸ ha), component_join (h.length ▸ hb), reachable_sup_edge,
    ← h.same_iff a ha b hb, ← h.same_iff a ha x hx, ← h.same_iff y hy b hb, ← h.same_iff a ha y hy,
    ← h.same_iff x hx b hb]
  split_ifs <;> grind

theorem takeJoining_subset (edges : List (Edge α)) (labels : List ℕ) : takeJoining edges labels ⊆ edges := by
  induction edges generalizing labels with
  | nil => exact List.nil_subset _
  | cons e edges ih =>
    rw [takeJoining]
    split
    · exact List.subset_cons_of_subset _ (ih _)
    · exact List.cons_subset_cons e (ih _)

/-- **The edges that are taken** grow a forest, which connects the ends of every edge that was tried. -/
theorem takeJoining_spec {labels : List ℕ} (hgrown : Grown before)
    (hlabels : Labels count labels (graphOf before))
    (hedges : ∀ e ∈ edges, e.first < count ∧ e.second < count) :
    Grown (before ++ takeJoining edges labels) ∧
      ∀ e ∈ edges, (graphOf (before ++ takeJoining edges labels)).Reachable e.first e.second := by
  induction edges generalizing labels before with
  | nil => simpa [takeJoining] using hgrown
  | cons e edges ih =>
    obtain ⟨⟨hfirst, hsecond⟩, hrest⟩ := List.forall_mem_cons.mp hedges
    rw [takeJoining]
    split
    · next hjoined =>
      obtain ⟨hgrows, hconnects⟩ := ih hgrown hlabels hrest
      have hends := (hlabels.same_iff _ hfirst _ hsecond).mp hjoined
      refine ⟨hgrows, List.forall_mem_cons.mpr ⟨?_, hconnects⟩⟩
      exact hends.mono (graphOf_mono (List.subset_append_left _ _))
    · next hapart =>
      have hnew : ¬(graphOf before).Reachable e.first e.second :=
        fun h => hapart ((hlabels.same_iff _ hfirst _ hsecond).mpr h)
      have hlabels' := hlabels.join hfirst hsecond hapart
      rw [← graphOf_concat] at hlabels'
      obtain ⟨hgrows, hconnects⟩ := ih (.concat hgrown hnew) hlabels' hrest
      rw [List.append_assoc, List.singleton_append] at hgrows hconnects
      refine ⟨hgrows, List.forall_mem_cons.mpr ⟨?_, hconnects⟩⟩
      exact reachable_ends (by simp) rfl

variable [Scalar α]

/-- Nothing of what is taken is left out when no weight is zero. -/
theorem minimum_eq (hcounts : ∀ e ∈ edges, e.counts = true) :
    minimum count edges = takeJoining (edges.mergeSort Edge.before) (separate count) :=
  List.filter_eq_self.mpr fun e he =>
    hcounts e ((List.mergeSort_perm edges Edge.before).mem_iff.mp (takeJoining_subset _ _ he))

/-- **The edges of least weight** are a spanning forest when no weight is zero. -/
theorem minimum_spans (hedges : ∀ e ∈ edges, e.first < count ∧ e.second < count)
    (hcounts : ∀ e ∈ edges, e.counts = true) : Spans (minimum count edges) edges := by
  have hperm := List.mergeSort_perm edges Edge.before
  obtain ⟨hgrown, hconnects⟩ := takeJoining_spec (.nil : Grown [])
    (graphOf_nil (α := α) ▸ labels_separate count) fun e he => hedges e (hperm.mem_iff.mp he)
  rw [minimum_eq hcounts]
  exact ⟨fun e he => hperm.mem_iff.mp (takeJoining_subset _ _ he), hgrown.nodup, hgrown.acyclic,
    fun e he => hconnects e (hperm.mem_iff.mpr he)⟩

/-! ### By breadth-first visits -/

omit [Scalar α] in
/-- The neighbours of a vertex, once each, with an edge that leads there. -/
theorem neighbours_spec (count : ℕ) (edges : List (Edge α)) (v : ℕ) :
    ((neighbours count edges v).map Prod.fst).Nodup ∧
      (∀ entry ∈ neighbours count edges v,
        entry.1 < count ∧ entry.2 ∈ edges ∧ entry.2.ends = s(v, entry.1)) ∧
      ∀ e ∈ edges, ∀ w < count, e.ends = s(v, w) → w ∈ (neighbours count edges v).map Prod.fst := by
  have hleads : ∀ (e : Edge α) (w : ℕ), e.ends = s(v, w) ↔
      ((e.first = v && e.second = w) || (e.first = w && e.second = v)) = true := fun e w => by
    simp [Edge.ends]
  refine ⟨?_, fun entry hentry => ?_, fun e he w hw hends => ?_⟩
  · rw [neighbours, List.map_filterMap]
    refine List.nodup_range.filterMap fun a b w ha hb => ?_
    simp only [Option.map_map, Option.mem_def, Option.map_eq_some_iff, Function.comp_apply] at ha hb
    obtain ⟨⟨_, -, rfl⟩, _, -, rfl⟩ := And.intro ha hb
    rfl
  · obtain ⟨w, hw, hfound⟩ := List.mem_filterMap.mp hentry
    obtain ⟨e, he, rfl⟩ := Option.map_eq_some_iff.mp hfound
    have hfits := List.find?_some he
    exact ⟨List.mem_range.mp hw, List.mem_of_find?_eq_some he, (hleads e w).mpr hfits⟩
  · have hsome : (edges.find? fun e => (e.first = v && e.second = w) ||
        (e.first = w && e.second = v)).isSome :=
      List.find?_isSome.mpr ⟨e, he, (hleads e w).mp hends⟩
    obtain ⟨f, hf⟩ := Option.isSome_iff_exists.mp hsome
    refine List.mem_map.mpr ⟨(w, f), List.mem_filterMap.mpr ⟨w, List.mem_range.mpr hw, ?_⟩, rfl⟩
    rw [hf]
    rfl

/-- What holds while vertices are visited: the edges that were used grow a forest on the visited
    vertices, which connects those of them that are connected, and the neighbours of a vertex that
    does not wait are all visited. -/
structure Visiting (count : ℕ) (edges : List (Edge α)) (waiting visited : List ℕ)
    (used : List (Edge α)) : Prop where
  distinct : Bandwidth.Distinct count visited
  waits : waiting ⊆ visited
  subset : used ⊆ edges
  grown : Grown used
  inside : ∀ e ∈ used, e.first ∈ visited ∧ e.second ∈ visited
  connects : ∀ a ∈ visited, ∀ b ∈ visited,
    (graphOf edges).Reachable a b → (graphOf used).Reachable a b
  closed : ∀ a ∈ visited, a ∉ waiting → ∀ b, (graphOf edges).Adj a b → b ∈ visited

section

omit [Scalar α]

variable {waiting visited : List ℕ} {used : List (Edge α)} {v w : ℕ}

theorem Visiting.not_reachable (h : Visiting count edges waiting visited used) (hv : v ∈ visited)
    (hnew : w ∉ visited) : ¬(graphOf used).Reachable v w := by
  intro hreach
  have hne : v ≠ w := fun hvw => hnew (hvw ▸ hv)
  obtain ⟨x, ⟨e, he, hends⟩, -⟩ := hreach.nonempty_neighborSet_right hne
  rcases Sym2.eq_iff.mp hends with ⟨hw, -⟩ | ⟨-, hw⟩
  · exact hnew (hw ▸ (h.inside e he).1)
  · exact hnew (hw ▸ (h.inside e he).2)

/-- **One more vertex** is visited along an edge from a visited one. -/
theorem Visiting.add (h : Visiting count edges waiting visited used) (hv : v ∈ visited)
    (hw : w < count) (hnew : w ∉ visited) (he : e ∈ edges) (hends : e.ends = s(v, w)) :
    Visiting count edges (waiting ++ [w]) (visited ++ [w]) (used ++ [e]) where
  distinct := h.distinct.concat hw hnew
  waits := List.append_subset.mpr
    ⟨fun _ hx => List.mem_append_left _ (h.waits hx), List.subset_append_right _ _⟩
  subset := List.append_subset.mpr ⟨h.subset, by simpa using he⟩
  grown := .concat h.grown fun hreach =>
    h.not_reachable hv hnew ((Edge.reachable_iff hends _).mp hreach)
  inside := by
    intro f hf
    rcases List.mem_append.mp hf with hf | hf
    · exact (h.inside f hf).imp (List.mem_append_left _) (List.mem_append_left _)
    · obtain rfl := List.mem_singleton.mp hf
      rcases Sym2.eq_iff.mp hends with ⟨rfl, rfl⟩ | ⟨rfl, rfl⟩ <;> simp [hv]
  connects := by
    have hmono {a b : ℕ} (hab : (graphOf used).Reachable a b) :
        (graphOf (used ++ [e])).Reachable a b :=
      hab.mono (graphOf_mono (List.subset_append_left _ _))
    -- whatever is connected to the new vertex is connected to the one it is visited from
    have hnext : ∀ a ∈ visited, (graphOf edges).Reachable a w →
        (graphOf (used ++ [e])).Reachable a w := fun a ha haw =>
      (hmono (h.connects a ha v hv (haw.trans (reachable_ends he hends).symm))).trans
        (reachable_ends (by simp) hends)
    intro a ha b hb hab
    rcases List.mem_append.mp ha with hold | hlast <;>
      rcases List.mem_append.mp hb with hold' | hlast'
    · exact hmono (h.connects a hold b hold' hab)
    · rw [List.mem_singleton.mp hlast'] at hab ⊢
      exact hnext a hold hab
    · rw [List.mem_singleton.mp hlast] at hab ⊢
      exact (hnext b hold' hab.symm).symm
    · rw [List.mem_singleton.mp hlast, List.mem_singleton.mp hlast']
  closed := by
    intro a ha hwaits b hab
    rw [List.mem_append, not_or] at hwaits
    have hold := (List.mem_append.mp ha).resolve_right hwaits.2
    exact List.mem_append_left _ (h.closed a hold hwaits.1 b hab)

/-- **All new neighbours** of a visited vertex are visited. -/
theorem Visiting.addAll (h : Visiting count edges waiting visited used) (hv : v ∈ visited)
    {found : List (ℕ × Edge α)} (hnodup : (found.map Prod.fst).Nodup)
    (hfound : ∀ entry ∈ found, entry.1 < count ∧ entry.1 ∉ visited ∧ entry.2 ∈ edges ∧
      entry.2.ends = s(v, entry.1)) :
    Visiting count edges (waiting ++ found.map Prod.fst) (visited ++ found.map Prod.fst)
      (used ++ found.map Prod.snd) := by
  induction found generalizing waiting visited used with
  | nil => simpa using h
  | cons entry found ih =>
    obtain ⟨⟨hw, hnew, he, hends⟩, hrest⟩ := List.forall_mem_cons.mp hfound
    obtain ⟨hfresh, hnodup⟩ := List.nodup_cons.mp hnodup
    have hnext := ih (h.add hv hw hnew he hends) (List.mem_append_left _ hv) hnodup
      fun other hother => by
        obtain ⟨hlt, hunvisited, hleads⟩ := hrest other hother
        refine ⟨hlt, fun hmem => ?_, hleads⟩
        rcases List.mem_append.mp hmem with hmem | hmem
        · exact hunvisited hmem
        · exact hfresh (List.mem_map.mpr ⟨other, hother, List.mem_singleton.mp hmem⟩)
    simpa using hnext

/-- **One step of a visit** looks at the neighbours of the first vertex that waits. -/
theorem Visiting.step (h : Visiting count edges (v :: waiting) visited used)
    (hedges : ∀ e ∈ edges, e.first < count ∧ e.second < count) :
    let found := (neighbours count edges v).filter fun entry => !visited.elem entry.1
    Visiting count edges (waiting ++ found.map (·.1)) (visited ++ found.map (·.1))
      (used ++ found.map (·.2)) := by
  intro found
  obtain ⟨hnodup, hentries, hall⟩ := neighbours_spec count edges v
  have hv : v ∈ visited := h.waits List.mem_cons_self
  have hfound : ∀ entry ∈ found, entry.1 < count ∧ entry.1 ∉ visited ∧ entry.2 ∈ edges ∧
      entry.2.ends = s(v, entry.1) := by
    intro entry hentry
    obtain ⟨hmem, hnew⟩ := List.mem_filter.mp hentry
    obtain ⟨hlt, hused, hends⟩ := hentries entry hmem
    exact ⟨hlt, by simpa using hnew, hused, hends⟩
  have hadded := h.addAll hv (hnodup.sublist (List.filter_sublist.map _)) hfound
  have hseen : ∀ b, (graphOf edges).Adj v b → b ∈ visited ++ found.map (·.1) := by
    rintro b ⟨⟨e, he, hends⟩, -⟩
    have hlt : b < count := by
      rcases Sym2.eq_iff.mp hends with ⟨-, rfl⟩ | ⟨rfl, -⟩
      · exact (hedges e he).2
      · exact (hedges e he).1
    obtain ⟨entry, hentry, rfl⟩ := List.mem_map.mp (hall e he b hlt hends)
    by_cases hvisited : entry.1 ∈ visited
    · exact List.mem_append_left _ hvisited
    · exact List.mem_append_right _ (List.mem_map.mpr
        ⟨entry, List.mem_filter.mpr ⟨hentry, by simpa using hvisited⟩, rfl⟩)
  refine { hadded with waits := ?_, closed := fun a ha hwaits b hab => ?_ }
  · exact fun x hx => hadded.waits (List.mem_cons_of_mem _ hx)
  · by_cases hav : a = v
    · exact hseen b (hav ▸ hab)
    · exact hadded.closed a ha (fun hmem => hwaits (List.mem_of_ne_of_mem hav hmem)) b hab

/-- **A visit** ends with no vertex waiting: its steps are enough for the vertices that wait and for
    those that are still to be found. -/
theorem Visiting.visit (h : Visiting count edges waiting visited used)
    (hedges : ∀ e ∈ edges, e.first < count ∧ e.second < count) {steps : ℕ}
    (hbound : waiting.length + count ≤ steps + visited.length) :
    let result := visit (neighbours count edges) steps waiting visited used
    Visiting count edges [] result.1 result.2 ∧ visited ⊆ result.1 := by
  induction steps generalizing waiting visited used with
  | zero =>
    have hlength := h.distinct.length_le
    obtain rfl := List.eq_nil_of_length_eq_zero (l := waiting) (by omega)
    exact ⟨h, List.Subset.refl _⟩
  | succ steps ih =>
    cases waiting with
    | nil => exact ⟨h, List.Subset.refl _⟩
    | cons v waiting =>
      have hstep := h.step hedges
      obtain ⟨hdone, hkept⟩ := ih hstep (by
        simp only [List.length_append, List.length_map, List.length_cons] at hbound ⊢
        omega)
      exact ⟨hdone, fun x hx => hkept (List.mem_append_left _ hx)⟩

theorem Visiting.mem_of_reachable (h : Visiting count edges [] visited used) (hv : v ∈ visited)
    (hreach : (graphOf edges).Reachable v w) : w ∈ visited := by
  obtain ⟨walk⟩ := hreach
  induction walk with
  | nil => exact hv
  | cons hadj _ ih => exact ih (h.closed _ hv (List.not_mem_nil) _ hadj)

/-- A vertex that was not visited is connected to none that was. -/
theorem Visiting.start (h : Visiting count edges [] visited used) (hw : w < count)
    (hnew : w ∉ visited) : Visiting count edges [w] (visited ++ [w]) used where
  distinct := h.distinct.concat hw hnew
  waits := List.subset_append_right _ _
  subset := h.subset
  grown := h.grown
  inside := fun e he => (h.inside e he).imp (List.mem_append_left _) (List.mem_append_left _)
  connects := by
    intro a ha b hb hab
    rcases List.mem_append.mp ha with hold | hlast <;>
      rcases List.mem_append.mp hb with hold' | hlast'
    · exact h.connects a hold b hold' hab
    · exact absurd (h.mem_of_reachable hold hab) (List.mem_singleton.mp hlast' ▸ hnew)
    · exact absurd (h.mem_of_reachable hold' hab.symm) (List.mem_singleton.mp hlast ▸ hnew)
    · rw [List.mem_singleton.mp hlast, List.mem_singleton.mp hlast']
  closed := by
    intro a ha hwaits b hab
    exact List.mem_append_left _
      (h.closed a ((List.mem_append.mp ha).resolve_right hwaits) List.not_mem_nil b hab)

/-- **One start** is visited, unless it was before, and whatever was visited stays so. -/
theorem Visiting.visitFrom {state : List ℕ × List (Edge α)}
    (h : Visiting count edges [] state.1 state.2)
    (hedges : ∀ e ∈ edges, e.first < count ∧ e.second < count) (hw : w < count) :
    let next := if state.1.elem w then state
      else SpanningForest.visit (neighbours count edges) (count + 1) [w] (state.1 ++ [w]) state.2
    Visiting count edges [] next.1 next.2 ∧ state.1 ⊆ next.1 ∧ w ∈ next.1 := by
  intro next
  by_cases hmem : w ∈ state.1
  · have hnext : next = state := if_pos (by simpa using hmem)
    rw [hnext]
    exact ⟨h, List.Subset.refl _, hmem⟩
  · have hnext : next = SpanningForest.visit (neighbours count edges) (count + 1) [w]
        (state.1 ++ [w]) state.2 := if_neg (by simpa using hmem)
    have hbound : [w].length + count ≤ count + 1 + (state.1 ++ [w]).length := by
      simp only [List.length_append, List.length_singleton]
      omega
    obtain ⟨hvisited, hkept⟩ := (h.start hw hmem).visit hedges hbound
    rw [hnext]
    exact ⟨hvisited, fun x hx => hkept (List.mem_append_left _ hx), hkept (by simp)⟩

/-- **All starts** are visited in the end. -/
theorem visiting_visitAll (hedges : ∀ e ∈ edges, e.first < count ∧ e.second < count)
    (starts : List ℕ) (hstarts : ∀ v ∈ starts, v < count) (state : List ℕ × List (Edge α))
    (h : Visiting count edges [] state.1 state.2) :
    let last := starts.foldl (fun state start => if state.1.elem start then state
      else visit (neighbours count edges) (count + 1) [start] (state.1 ++ [start]) state.2) state
    Visiting count edges [] last.1 last.2 ∧ state.1 ⊆ last.1 ∧ starts ⊆ last.1 := by
  induction starts generalizing state with
  | nil => exact ⟨h, List.Subset.refl _, List.nil_subset _⟩
  | cons start starts ih =>
    obtain ⟨hstart, hrest⟩ := List.forall_mem_cons.mp hstarts
    obtain ⟨hnext, hstays, hfound⟩ := h.visitFrom hedges hstart
    obtain ⟨hlast, hkept, hall⟩ := ih hrest _ hnext
    exact ⟨hlast, fun x hx => hkept (hstays hx), List.cons_subset.mpr ⟨hkept hfound, hall⟩⟩

end

/-- **The breadth-first trees** are a spanning forest when no weight is zero. -/
theorem breadthFirst_spans (hedges : ∀ e ∈ edges, e.first < count ∧ e.second < count)
    (hcounts : ∀ e ∈ edges, e.counts = true) : Spans (breadthFirst count edges) edges := by
  have hnone : Visiting count edges [] [] [] :=
    ⟨⟨List.nodup_nil, by simp⟩, List.nil_subset _, List.nil_subset _, .nil, by simp, by simp, by simp⟩
  obtain ⟨hlast, -, hall⟩ := visiting_visitAll hedges (List.range count) (by simp) ([], []) hnone
  rw [breadthFirst, List.filter_eq_self.mpr hcounts]
  refine ⟨hlast.subset, hlast.grown.nodup, hlast.grown.acyclic, fun e he => ?_⟩
  obtain ⟨hfirst, hsecond⟩ := hedges e he
  exact hlast.connects _ (hall (List.mem_range.mpr hfirst)) _ (hall (List.mem_range.mpr hsecond))
    (reachable_ends he rfl)

end SpanningForest

end LeastSquares
