/-
  LeastSquares/Proofs/LightestForests.lean
  ========================================
  **The forest that is chosen by weight weighs least.**

  Edges are tried by ascending weight.  Whatever forest is compared, an edge that is taken and that the
  other forest lacks closes a cycle there, and some edge of that cycle is not among those taken so far; it
  was not tried before, so it is no lighter, and the two can be exchanged.  Of parallel factors only the
  lightest has an edge, so what holds of the edges holds of all sets of factors of two variables.
-/
import LeastSquares.Proofs.SubgraphMasks

namespace LeastSquares

namespace SpanningForest

section

variable {α : Type} {e f : Edge α} {before forest others : List (Edge α)}

/-! ### Exchanging edges -/

theorem Grown.of_concat (h : Grown (forest ++ [e])) :
    Grown forest ∧ ¬(graphOf forest).Reachable e.first e.second := by
  generalize hall : forest ++ [e] = all at h
  cases h with
  | nil => simp at hall
  | concat hgrown hapart =>
    obtain ⟨rfl, hlast⟩ := List.append_inj' hall rfl
    obtain rfl := List.singleton_inj.mp hlast
    exact ⟨hgrown, hapart⟩

/-- The edges before one of a forest do not connect its ends. -/
theorem Grown.not_reachable (h : Grown (before ++ others)) (hf : f ∈ others) :
    ¬(graphOf before).Reachable f.first f.second := by
  induction others using List.reverseRecOn with
  | nil => cases hf
  | append_singleton others e ih =>
    rw [← List.append_assoc] at h
    obtain ⟨hbefore, hnew⟩ := h.of_concat
    rcases List.mem_append.mp hf with hf | hf
    · exact ih hbefore hf
    · rw [List.mem_singleton.mp hf]
      exact fun hreach => hnew (hreach.mono (graphOf_mono (List.subset_append_left _ _)))

/-- What a list of edges connects depends on which edges it has, not on their order. -/
theorem graphOf_congr (h : ∀ e, e ∈ forest ↔ e ∈ others) : graphOf forest = graphOf others :=
  le_antisymm (graphOf_mono fun e he => (h e).mp he) (graphOf_mono fun e he => (h e).mpr he)

theorem graphOf_middle (before others : List (Edge α)) (e : Edge α) :
    graphOf (before ++ e :: others) =
      graphOf (before ++ others) ⊔ SimpleGraph.edge e.first e.second := by
  rw [← graphOf_concat]
  exact graphOf_congr fun f => by simp [or_comm, or_left_comm]

/-- An edge that a forest does not connect can as well have been taken earlier. -/
theorem Grown.insert (h : Grown (before ++ others))
    (hapart : ¬(graphOf (before ++ others)).Reachable e.first e.second) :
    Grown (before ++ e :: others) := by
  induction others using List.reverseRecOn with
  | nil => exact .concat (by simpa using h) (by simpa using hapart)
  | append_singleton others f ih =>
    rw [← List.append_assoc] at h hapart
    obtain ⟨hbefore, hnew⟩ := h.of_concat
    rw [graphOf_concat, reachable_sup_edge] at hapart
    simp only [not_or, not_and] at hapart
    obtain ⟨hapart, hacross, hacross'⟩ := hapart
    have hgrown := Grown.concat (ih hbefore hapart) (e := f) fun hreach => by
      rw [graphOf_middle, reachable_sup_edge] at hreach
      rcases hreach with hreach | ⟨hfirst, hsecond⟩ | ⟨hfirst, hsecond⟩
      · exact hnew hreach
      · exact hacross hfirst.symm hsecond.symm
      · exact hacross' hsecond hfirst
    rwa [List.append_assoc, List.cons_append] at hgrown

/-- Two edges that each connect the ends of the other connect the same. -/
theorem reachable_sup_edge_comm {G : SimpleGraph ℕ} {x y u v : ℕ} (hapart : ¬G.Reachable x y)
    (hacross : (G ⊔ SimpleGraph.edge u v).Reachable x y) (a b : ℕ) :
    (G ⊔ SimpleGraph.edge x y).Reachable a b ↔ (G ⊔ SimpleGraph.edge u v).Reachable a b := by
  have hswap : ∀ {a b}, G.Reachable a b → G.Reachable b a := fun h => h.symm
  have hjoin : ∀ {a b c}, G.Reachable a b → G.Reachable b c → G.Reachable a c := fun h h' => h.trans h'
  rw [reachable_sup_edge] at hacross ⊢
  rw [reachable_sup_edge]
  grind

/-- **An edge that a forest lacks is exchanged** for one of those that were not taken before it.  What the
    forest connects stays the same. -/
theorem Grown.exchange (h : Grown (before ++ others))
    (hapart : ¬(graphOf before).Reachable e.first e.second)
    (hacross : (graphOf (before ++ others)).Reachable e.first e.second) :
    ∃ head f tail, others = head ++ f :: tail ∧ Grown (before ++ [e] ++ (head ++ tail)) ∧
      ∀ a b, (graphOf (before ++ [e] ++ (head ++ tail))).Reachable a b ↔
        (graphOf (before ++ others)).Reachable a b := by
  induction others using List.reverseRecOn with
  | nil => exact absurd (by simpa using hacross) hapart
  | append_singleton others f ih =>
    rw [← List.append_assoc] at h hacross ⊢
    obtain ⟨hbefore, hnew⟩ := h.of_concat
    by_cases hearlier : (graphOf (before ++ others)).Reachable e.first e.second
    · -- the edge to be given up is found earlier, and the last one is kept
      obtain ⟨head, g, tail, rfl, hgrown, hsame⟩ := ih hbefore hearlier
      refine ⟨head, g, tail ++ [f], by simp, ?_, fun a b => ?_⟩
      · rw [← List.append_assoc head, ← List.append_assoc]
        exact .concat hgrown fun hreach => hnew ((hsame _ _).mp hreach)
      · rw [← List.append_assoc head, ← List.append_assoc, graphOf_concat, graphOf_concat,
          reachable_sup_edge, reachable_sup_edge]
        simp only [hsame]
    · refine ⟨others, f, [], rfl, ?_, fun a b => ?_⟩
      · rw [List.append_nil, List.append_assoc, List.singleton_append]
        exact hbefore.insert hearlier
      · rw [List.append_nil, List.append_assoc, List.singleton_append, graphOf_middle, graphOf_concat]
        rw [graphOf_concat] at hacross
        exact reachable_sup_edge_comm hearlier hacross a b

end

/-! ### By ascending weight -/

variable {count : ℕ} {edges before others : List (Edge ℝ)}

/-- The weight of some edges together. -/
def totalWeight (edges : List (Edge ℝ)) : ℝ := (edges.map Edge.weight).sum

theorem totalWeight_middle (head tail : List (Edge ℝ)) (f : Edge ℝ) :
    totalWeight (head ++ f :: tail) = f.weight + totalWeight (head ++ tail) := by
  simp only [totalWeight, List.map_append, List.map_cons, List.sum_append, List.sum_cons]
  ring

/-- Where the ends of an edge are already connected, no edge of a forest that goes on is parallel to it: that
    would close a cycle. -/
theorem Grown.lighter_of_reachable {e : Edge ℝ} (hgrown : Grown (before ++ others))
    (hjoined : (graphOf before).Reachable e.first e.second)
    (hlight : ∀ f ∈ others, ∃ e' ∈ e :: edges, e'.ends = f.ends ∧ e'.weight ≤ f.weight) :
    ∀ f ∈ others, ∃ e' ∈ edges, e'.ends = f.ends ∧ e'.weight ≤ f.weight := by
  intro f hf
  obtain ⟨e', he', hends, hweight⟩ := hlight f hf
  rcases List.mem_cons.mp he' with rfl | he'
  · exact absurd ((Edge.reachable_iff hends _).mp hjoined) (hgrown.not_reachable hf)
  · exact ⟨e', he', hends, hweight⟩

/-- **What is taken weighs no more than any other way to go on**: than edges that continue those taken
    before to a forest which connects the ends of all edges still to be tried, where each edge has a parallel
    one that is still to be tried and no heavier. -/
theorem takeJoining_lightest {labels : List ℕ} (hgrown : Grown (before ++ others))
    (hlabels : Labels count labels (graphOf before))
    (hedges : ∀ e ∈ edges, e.first < count ∧ e.second < count)
    (hsorted : edges.Pairwise fun e f => e.weight ≤ f.weight)
    (hconnects : ∀ e ∈ edges, (graphOf (before ++ others)).Reachable e.first e.second)
    (hlight : ∀ f ∈ others, ∃ e ∈ edges, e.ends = f.ends ∧ e.weight ≤ f.weight) :
    totalWeight (takeJoining edges labels) ≤ totalWeight others := by
  induction edges generalizing labels before others with
  | nil =>
    obtain rfl : others = [] := List.eq_nil_iff_forall_not_mem.mpr fun f hf => by simpa using hlight f hf
    exact le_rfl
  | cons e edges ih =>
    obtain ⟨⟨hfirst, hsecond⟩, hedges⟩ := List.forall_mem_cons.mp hedges
    obtain ⟨hleast, hsorted⟩ := List.pairwise_cons.mp hsorted
    obtain ⟨hacross, hconnects⟩ := List.forall_mem_cons.mp hconnects
    rw [takeJoining]
    split
    · next hjoined =>
      have hends := (hlabels.same_iff _ hfirst _ hsecond).mp hjoined
      exact ih hgrown hlabels hedges hsorted hconnects (hgrown.lighter_of_reachable hends hlight)
    · next hapart =>
      have hnew : ¬(graphOf before).Reachable e.first e.second :=
        fun h => hapart ((hlabels.same_iff _ hfirst _ hsecond).mpr h)
      obtain ⟨head, f, tail, rfl, hgrown', hsame⟩ := hgrown.exchange hnew hacross
      have hlabels' := hlabels.join hfirst hsecond hapart
      rw [← graphOf_concat] at hlabels'
      have hlater := ih hgrown' hlabels' hedges hsorted
        (fun e' he' => (hsame _ _).mpr (hconnects e' he'))
        (hgrown'.lighter_of_reachable (reachable_ends (by simp) rfl) fun f' hf' => hlight f' (by
          rcases List.mem_append.mp hf' with hf' | hf' <;> simp [hf']))
      obtain ⟨e', he', -, hweight⟩ := hlight f (by simp)
      have hle : e.weight ≤ f.weight := by
        rcases List.mem_cons.mp he' with rfl | he'
        · exact hweight
        · exact (hleast e' he').trans hweight
      rw [totalWeight_middle]
      exact add_le_add hle hlater

/-! ### The order in which edges are tried -/

/-- Edges are tried by weight, and where that is the same by their vertices. -/
theorem before_iff (e f : Edge ℝ) : e.before f = true ↔ e.weight < f.weight ∨
    e.weight = f.weight ∧ (e.first < f.first ∨ e.first = f.first ∧ e.second ≤ f.second) := by
  have hnumber : ∀ x : ℝ, Scalar.isNumber x = true := fun x => decide_eq_true le_rfl
  simp only [Edge.before, hnumber, bne_self_eq_false]
  rcases lt_trichotomy e.weight f.weight with hlt | heq | hlt
  · simp [hlt]
  · by_cases hfirst : e.first = f.first <;> simp [heq, hfirst]
  · simp [hlt, hlt.not_gt, hlt.ne']

theorem pairwise_sorted (edges : List (Edge ℝ)) :
    (edges.mergeSort Edge.before).Pairwise fun e f => e.weight ≤ f.weight := by
  have htrans : ∀ e f g : Edge ℝ, e.before f = true → f.before g = true → e.before g = true := by
    intro e f g
    simp only [before_iff]
    rintro (hef | ⟨hef, hplace⟩) (hfg | ⟨hfg, hplace'⟩)
    · exact .inl (hef.trans hfg)
    · exact .inl (hfg ▸ hef)
    · exact .inl (hef ▸ hfg)
    · exact .inr ⟨hef.trans hfg, by omega⟩
  have htotal : ∀ e f : Edge ℝ, (e.before f || f.before e) = true := by
    intro e f
    rw [Bool.or_eq_true, before_iff, before_iff]
    rcases lt_trichotomy e.weight f.weight with hlt | heq | hlt
    · exact .inl (.inl hlt)
    · by_cases hplace : e.first < f.first ∨ e.first = f.first ∧ e.second ≤ f.second
      · exact .inl (.inr ⟨heq, hplace⟩)
      · exact .inr (.inr ⟨heq.symm, by omega⟩)
    · exact .inr (.inl hlt)
  refine (List.pairwise_mergeSort htrans htotal edges).imp fun {e f} h => ?_
  rcases (before_iff e f).mp h with hlt | ⟨heq, -⟩
  · exact hlt.le
  · exact heq.le

/-- **The forest that is chosen by weight** weighs no more than any forest that connects what the edges
    connect, where each edge of it has a parallel one to choose that is no heavier. -/
theorem minimum_lightest (hedges : ∀ e ∈ edges, e.first < count ∧ e.second < count)
    (hcounts : ∀ e ∈ edges, e.counts = true) (hgrown : Grown others)
    (hconnects : ∀ e ∈ edges, (graphOf others).Reachable e.first e.second)
    (hlight : ∀ f ∈ others, ∃ e ∈ edges, e.ends = f.ends ∧ e.weight ≤ f.weight) :
    totalWeight (minimum count edges) ≤ totalWeight others := by
  have hperm := List.mergeSort_perm edges Edge.before
  have hall : Grown ([] ++ others) := hgrown
  rw [minimum_eq hcounts]
  apply takeJoining_lightest hall (graphOf_nil (α := ℝ) ▸ labels_separate count)
  · exact fun e he => hedges e (hperm.mem_iff.mp he)
  · exact pairwise_sorted edges
  · exact fun e he => hconnects e (hperm.mem_iff.mp he)
  · exact fun f hf => (hlight f hf).imp fun e he => ⟨hperm.mem_iff.mpr he.1, he.2⟩

end SpanningForest

namespace Subgraph

open SpanningForest

/-! ### Parallel factors -/

section

variable {order : EliminationOrder} {rows : List (List Key)} {edges : List (Edge ℝ)} {e f : Edge ℝ}

/-- An edge that makes way leaves a parallel one that is no heavier. -/
theorem exists_lighter_enter (hf : f = e ∨ f ∈ edges) :
    ∃ kept ∈ enter edges e, kept.ends = f.ends ∧ kept.weight ≤ f.weight := by
  induction edges with
  | nil =>
    obtain rfl := hf.resolve_right List.not_mem_nil
    exact ⟨f, List.mem_singleton_self f, rfl, le_rfl⟩
  | cons other edges ih =>
    rw [enter]
    split_ifs with hparallel hlighter
    · rcases hf with rfl | hf
      · exact ⟨f, List.mem_cons_self, rfl, le_rfl⟩
      · rcases List.mem_cons.mp hf with rfl | hf
        · exact ⟨e, List.mem_cons_self, (ends_eq_of_parallel hparallel).symm, hlighter.le⟩
        · exact ⟨f, List.mem_cons_of_mem _ hf, rfl, le_rfl⟩
    · rcases hf with rfl | hf
      · exact ⟨other, List.mem_cons_self, ends_eq_of_parallel hparallel, not_lt.mp hlighter⟩
      · exact ⟨f, hf, rfl, le_rfl⟩
    · by_cases hother : f = other
      · exact ⟨other, List.mem_cons_self, by rw [hother], by rw [hother]⟩
      · have hlater := hf.imp_right fun hf => (List.mem_cons.mp hf).resolve_left hother
        obtain ⟨kept, hkept, hlight⟩ := ih hlater
        exact ⟨kept, List.mem_cons_of_mem _ hkept, hlight⟩

theorem exists_lighter {entered : List (Edge ℝ)} (hf : f ∈ entered ∨ f ∈ edges) :
    ∃ kept ∈ entered.foldl enter edges, kept.ends = f.ends ∧ kept.weight ≤ f.weight := by
  induction entered generalizing edges f with
  | nil => exact ⟨f, hf.resolve_left List.not_mem_nil, rfl, le_rfl⟩
  | cons e entered ih =>
    rcases hf with hf | hf
    · rcases List.mem_cons.mp hf with rfl | hf
      · have hentered : f = f ∨ f ∈ edges := .inl rfl
        obtain ⟨kept, hkept, hends, hweight⟩ := exists_lighter_enter hentered
        obtain ⟨last, hlast, hends', hweight'⟩ := ih (.inr hkept)
        exact ⟨last, hlast, hends'.trans hends, hweight'.trans hweight⟩
      · exact ih (.inl hf)
    · obtain ⟨kept, hkept, hends, hweight⟩ := exists_lighter_enter (e := e) (.inr hf)
      obtain ⟨last, hlast, hends', hweight'⟩ := ih (.inr hkept)
      exact ⟨last, hlast, hends'.trans hends, hweight'.trans hweight⟩

/-! ### Sets of factors of two variables -/

/-- A set of factors of two variables that is a spanning forest of all of them: no two are about the same
    variables, they close no cycle, and they connect what all factors of two variables connect. -/
structure IsPairForest (rows : List (List Key)) (chosen : Finset ℕ) : Prop where
  pairs : ∀ i ∈ chosen, (pairAt rows i).isSome
  apart : ∀ i ∈ chosen, ∀ j ∈ chosen, pairAt rows i = pairAt rows j → i = j
  acyclic : (variableGraph rows (· ∈ chosen)).IsAcyclic
  connects : ∀ a b, (variableGraph rows (· ∈ chosen)).Reachable a b ↔
    (variableGraph rows fun _ => True).Reachable a b

/-- The factors of two variables that are marked. -/
def markedPairs (rows : List (List Key)) (marks : List Bool) : Finset ℕ :=
  (Finset.range rows.length).filter fun i => marks[i]? = some true ∧ (pairAt rows i).isSome

theorem mem_markedPairs {marks : List Bool} {i : ℕ} :
    i ∈ markedPairs rows marks ↔ marks[i]? = some true ∧ (pairAt rows i).isSome := by
  rw [markedPairs, Finset.mem_filter, Finset.mem_range, and_iff_right_iff_imp]
  rintro ⟨-, hpair⟩
  obtain ⟨p, hp⟩ := Option.isSome_iff_exists.mp hpair
  obtain ⟨a, b, hrow, -⟩ := pairAt_eq_some.mp hp
  exact (List.getElem?_eq_some_iff.mp hrow).1

/-- The marks of a spanning subgraph mark such a set. -/
theorem IsSpanning.isPairForest {marks : List Bool} (h : IsSpanning rows marks) :
    IsPairForest rows (markedPairs rows marks) := by
  have hgraph : variableGraph rows (· ∈ markedPairs rows marks) =
      variableGraph rows fun i => marks[i]? = some true := by
    refine congrArg SimpleGraph.fromEdgeSet (Set.ext fun p => exists_congr fun i => ?_)
    exact and_congr_left fun hp => mem_markedPairs.trans (and_iff_left (hp ▸ rfl))
  constructor
  case pairs => exact fun i hi => (mem_markedPairs.mp hi).2
  case apart =>
    intro i hi j hj hsame
    obtain ⟨hi, hpair⟩ := mem_markedPairs.mp hi
    obtain ⟨p, hp⟩ := Option.isSome_iff_exists.mp hpair
    exact h.apart i j p hi (mem_markedPairs.mp hj).1 hp (hsame ▸ hp)
  case acyclic => exact hgraph ▸ h.acyclic
  case connects => exact hgraph ▸ h.connects

/-- The edges of a set of factors that closes no cycle form a forest, in whatever order they are taken. -/
theorem Represents.grown {forest : List (Edge ℝ)} (h : Represents order rows edges)
    (hrows : Within order rows) {chosen : Finset ℕ} (hforest : IsPairForest rows chosen)
    (hsubset : forest ⊆ edges) (hnodup : (forest.map Edge.factor).Nodup)
    (hchosen : ∀ e ∈ forest, e.factor ∈ chosen) : Grown forest := by
  induction forest using List.reverseRecOn with
  | nil => exact .nil
  | append_singleton forest e ih =>
    rw [List.map_append, List.map_singleton, ← List.concat_eq_append, List.nodup_concat] at hnodup
    obtain ⟨hfresh, hnodup⟩ := hnodup
    obtain ⟨hsubset, hlast⟩ := List.append_subset.mp hsubset
    obtain ⟨hchosen, hlastChosen⟩ := List.forall_mem_append.mp hchosen
    have he : e ∈ edges := hlast (List.mem_singleton_self e)
    refine .concat (ih hsubset hnodup hchosen) fun hreach => ?_
    obtain ⟨p, hp, hends⟩ := h.of_edge e he
    obtain ⟨a, b, hrow, rfl⟩ := pairAt_eq_some.mp hp
    have hne : a ≠ b := by
      have hdifferent := (hrows _ (List.mem_of_getElem? hrow)).1
      simpa using hdifferent
    -- the variables are connected without the edge, which therefore closes a cycle
    have hjoined := h.reachable hrows hsubset (mem_of_pairAt hrows hp a (Sym2.mem_mk_left a b))
      (mem_of_pairAt hrows hp b (Sym2.mem_mk_right a b)) ((Edge.reachable_iff hends _).mp hreach)
    have hacyclic : (variableGraph rows (fun i => ∃ e ∈ forest, e.factor = i) ⊔
        SimpleGraph.edge a b).IsAcyclic := by
      refine hforest.acyclic.anti (sup_le (SimpleGraph.fromEdgeSet_mono ?_) ?_)
      · rintro q ⟨_, ⟨f, hf, rfl⟩, hq⟩
        exact ⟨f.factor, hchosen f hf, hq⟩
      · refine SimpleGraph.fromEdgeSet_mono (Set.singleton_subset_iff.mpr ?_)
        exact ⟨e.factor, hlastChosen e (List.mem_singleton_self e), hp⟩
    rcases (SimpleGraph.isAcyclic_sup_fromEdgeSet_iff.mp hacyclic).2 hjoined with heq | hadj
    · exact hne heq
    · obtain ⟨⟨_, ⟨f, hf, rfl⟩, hq⟩, -⟩ := hadj
      have hsame := hforest.apart _ (hchosen f hf) _ (hlastChosen e (List.mem_singleton_self e))
        (hq.trans hp.symm)
      exact hfresh (hsame ▸ List.mem_map_of_mem hf)

/-- The edges of factors connect the places of the variables that the factors connect. -/
theorem Represents.reachable_place {forest : List (Edge ℝ)} (h : Represents order rows edges)
    (hsubset : forest ⊆ edges) {a b : Key}
    (hreach : (variableGraph rows fun i => ∃ e ∈ forest, e.factor = i).Reachable a b) :
    (graphOf forest).Reachable (order.place a) (order.place b) := by
  refine reachable_map_of_forall_adj (fun a b => ?_) hreach
  rintro ⟨⟨_, ⟨e, he, rfl⟩, hp⟩, -⟩
  exact reachable_ends he (h.ends_eq (hsubset he) hp)

end

/-! ### What sets of factors weigh -/

section

variable {order : EliminationOrder} {g : LinearGraph ℝ} {forest : List (Edge ℝ)} {e f : Edge ℝ}

/-- All entries of the blocks of a factor. -/
def blockEntries : LinearFactor ℝ → List ℝ
  | .dense blocks _ => blocks.flatMap fun row => row.2.rows.flatten
  | .arrays blocks _ => blocks.flatMap fun row => row.2.data

/-- The weight of the factor at a place: one, divided by one more than the sum of the squares of the
    entries of its blocks. -/
noncomputable def weightAt (g : LinearGraph ℝ) (i : ℕ) : ℝ :=
  (g.factors[i]?.map fun f => 1 / (1 + Vec.squares (blockEntries f))).getD 0

/-- The weight of a set of factors together. -/
noncomputable def setWeight (g : LinearGraph ℝ) (chosen : Finset ℕ) : ℝ := ∑ i ∈ chosen, weightAt g i

theorem weightAt_nonneg (g : LinearGraph ℝ) (i : ℕ) : 0 ≤ weightAt g i := by
  rw [weightAt]
  cases g.factors[i]? with
  | none => exact le_rfl
  | some f => exact one_div_nonneg.mpr (add_nonneg zero_le_one (Vec.squares_nonneg _))

theorem squares_flatMap {β : Type} (entries : β → List ℝ) (xs : List β) :
    Vec.squares (xs.flatMap entries) = (xs.map fun x => Vec.squares (entries x)).sum := by
  induction xs with
  | nil => rfl
  | cons x xs ih => rw [List.flatMap_cons, Vec.squares_append, ih, List.map_cons, List.sum_cons]

theorem sumSq_eq_squares (f : LinearFactor ℝ) : f.sumSq = Vec.squares (blockEntries f) := by
  have hsquares : ∀ xs : List ℝ, Vec.sum (xs.map Scalar.sq) = Vec.squares xs := fun xs => by
    rw [Vec.sum_real, Vec.squares]
    exact congrArg List.sum (List.map_congr_left fun x _ => (sq x).symm)
  rw [LinearFactor.sumSq, Vec.sum_real]
  simp only [hsquares]
  cases f with
  | dense blocks rhs =>
    rw [LinearFactor.blockArrays, Table.mapEntries, List.map_map, blockEntries, squares_flatMap]
    rfl
  | arrays blocks rhs => rw [LinearFactor.blockArrays, blockEntries, squares_flatMap]

/-- The weight that is computed is one, divided by one more than the sum of the squares. -/
theorem weight_eq_squares (f : LinearFactor ℝ) :
    weight f = 1 / (1 + Vec.squares (blockEntries f)) := by
  rw [weight, sumSq_eq_squares]
  norm_num

theorem weight_eq (he : e ∈ allEdges order g) : e.weight = weightAt g e.factor := by
  obtain ⟨i, f, hf, hedge⟩ := mem_allEdges.mp he
  obtain ⟨-, -, -, -, hweight, rfl⟩ := edgeAt_eq_some hedge
  rw [hweight, weightAt, hf, weight_eq_squares]
  rfl

theorem eq_of_factor (he : e ∈ allEdges order g) (hf : f ∈ allEdges order g)
    (h : e.factor = f.factor) : e = f := by
  obtain ⟨i, factor, hfactor, hedge⟩ := mem_allEdges.mp he
  obtain ⟨j, factor', hfactor', hedge'⟩ := mem_allEdges.mp hf
  obtain ⟨-, -, -, -, -, rfl⟩ := edgeAt_eq_some hedge
  obtain ⟨-, -, -, -, -, rfl⟩ := edgeAt_eq_some hedge'
  rw [← h, hfactor] at hfactor'
  obtain rfl := Option.some.inj hfactor'
  exact Option.some.inj (hedge.symm.trans (h ▸ hedge'))

theorem nodup_allEdges (order : EliminationOrder) (g : LinearGraph ℝ) : (allEdges order g).Nodup := by
  have hindices : (g.factors.zipIdx.map Prod.snd).Nodup := by
    rw [List.zipIdx_map_snd]
    exact List.nodup_range'
  rw [allEdges, List.Nodup, List.pairwise_filterMap]
  refine (List.pairwise_map.mp hindices).imp fun {entry entry'} hne e he e' he' heq => hne ?_
  obtain ⟨-, -, -, -, -, hindex⟩ := edgeAt_eq_some he
  obtain ⟨-, -, -, -, -, hindex'⟩ := edgeAt_eq_some he'
  rw [← hindex, ← hindex', heq]

theorem nodup_factors (hsubset : forest ⊆ allEdges order g) (hnodup : forest.Nodup) :
    (forest.map Edge.factor).Nodup :=
  hnodup.map_on fun _ he _ hf heq => eq_of_factor (hsubset he) (hsubset hf) heq

/-- Different edges of factors weigh what the set of their factors weighs. -/
theorem totalWeight_eq (hsubset : forest ⊆ allEdges order g) (hnodup : forest.Nodup) :
    totalWeight forest = setWeight g (forest.map Edge.factor).toFinset := by
  rw [setWeight, List.sum_toFinset _ (nodup_factors hsubset hnodup), List.map_map, totalWeight]
  exact congrArg List.sum (List.map_congr_left fun e he => weight_eq (hsubset he))

/-- The edges of a set of factors. -/
theorem exists_edges (order : EliminationOrder) {chosen : Finset ℕ}
    (h : ∀ i ∈ chosen, (pairAt g.structureKey i).isSome) :
    ∃ forest ⊆ allEdges order g, forest.Nodup ∧ (forest.map Edge.factor).toFinset = chosen := by
  refine ⟨(allEdges order g).filter fun e => e.factor ∈ chosen, List.filter_sublist.subset,
    (nodup_allEdges order g).filter _, Finset.ext fun i => ?_⟩
  simp only [List.mem_toFinset, List.mem_map, List.mem_filter, decide_eq_true_eq]
  constructor
  · rintro ⟨e, ⟨-, he⟩, rfl⟩
    exact he
  · intro hi
    obtain ⟨p, hp⟩ := Option.isSome_iff_exists.mp (h i hi)
    obtain ⟨e, he, rfl, -⟩ := exists_mem_allEdges order hp
    exact ⟨e, ⟨he, hi⟩, rfl⟩

/-- What a forest of edges marks are its factors. -/
theorem markedPairs_marksOf (hsubset : forest ⊆ allEdges order g) :
    markedPairs g.structureKey (marksOf g.structureKey forest) =
      (forest.map Edge.factor).toFinset := by
  ext i
  rw [mem_markedPairs, List.mem_toFinset, List.mem_map]
  constructor
  · rintro ⟨hmark, hpair⟩
    obtain ⟨p, hp⟩ := Option.isSome_iff_exists.mp hpair
    exact (marksOf_pair hp).mp hmark
  · rintro ⟨e, he, rfl⟩
    obtain ⟨p, hp, -⟩ := (represents_allEdges order g).of_edge e (hsubset he)
    exact ⟨(marksOf_pair hp).mpr ⟨e, he, rfl⟩, hp ▸ rfl⟩

/-- The lightest edges weigh no more than a spanning forest of the factors. -/
theorem IsPairForest.minimum_le {chosen : Finset ℕ} (h : IsPairForest g.structureKey chosen)
    (hg : Within order g.structureKey) :
    totalWeight (minimum order.size ((allEdges order g).foldl enter [])) ≤ setWeight g chosen := by
  have hall := represents_allEdges order g
  have hedges : Represents order g.structureKey ((allEdges order g).foldl enter []) :=
    represents_edges order g
  obtain ⟨others, hothers, hnodup, rfl⟩ := exists_edges order h.pairs
  rw [← totalWeight_eq hothers hnodup]
  apply minimum_lightest (fun e he => hedges.lt hg he) fun e he => counts_edges order he
  · refine hall.grown hg h hothers (nodup_factors hothers hnodup) fun e he => ?_
    exact List.mem_toFinset.mpr (List.mem_map_of_mem he)
  · intro e he
    obtain ⟨p, hp, hends⟩ := hedges.of_edge e he
    obtain ⟨a, b, -, rfl⟩ := pairAt_eq_some.mp hp
    have hjoined : (variableGraph g.structureKey fun _ => True).Reachable a b := by
      by_cases hab : a = b
      · exact hab ▸ .refl _
      · exact SimpleGraph.Adj.reachable ⟨⟨e.factor, trivial, hp⟩, hab⟩
    refine (Edge.reachable_iff hends _).mpr (hall.reachable_place hothers ?_)
    simpa only [List.mem_toFinset, List.mem_map] using (h.connects a b).mpr hjoined
  · exact fun f hf => exists_lighter (.inl (hothers hf))

/-- **The marked factors of two variables weigh least**, when the forest is chosen by weight, among all sets
    of factors of two variables that are a spanning forest of them; a factor weighs one, divided by one more
    than the sum of the squares of its entries. -/
theorem minimum_mask_lightest (hg : ∀ f ∈ g.factors, f.keys.Nodup ∧ f.keys ⊆ order.keys) :
    ∃ marks, mask order .minimum g = .ok marks ∧
      IsPairForest g.structureKey (markedPairs g.structureKey marks) ∧
      ∀ chosen, IsPairForest g.structureKey chosen →
        setWeight g (markedPairs g.structureKey marks) ≤ setWeight g chosen := by
  have hwithin : Within order g.structureKey := List.forall_mem_map.mpr hg
  have hedges : Represents order g.structureKey ((allEdges order g).foldl enter []) :=
    represents_edges order g
  have hspans := minimum_spans (fun e he => hedges.lt hwithin he) fun e he => counts_edges order he
  have hsubset : minimum order.size ((allEdges order g).foldl enter []) ⊆ allEdges order g := fun e he =>
    edges_subset order g (hspans.subset he)
  refine ⟨_, mask_eq hwithin .minimum, (hedges.isSpanning hwithin hspans).isPairForest,
    fun chosen hchosen => ?_⟩
  rw [markedPairs_marksOf hsubset, ← totalWeight_eq hsubset hspans.nodup.of_map]
  exact hchosen.minimum_le hwithin

end

namespace Parallel

open SubgraphSolver.Triangle (factor vertices)

/-- Two factors of the same two variables, with entries of one and of another number. -/
def problem (c : ℝ) : LinearGraph ℝ := ⟨[factor [0, 1] 1, factor [1, 0] c]⟩

theorem structureKey_problem (c : ℝ) :
    (problem c).structureKey = [[.number 0, .number 1], [.number 1, .number 0]] := rfl

/-- The second factor alone connects the two variables. -/
theorem second_isPairForest (c : ℝ) : IsPairForest (problem c).structureKey {1} := by
  have hne : (.number 0 : Key) ≠ .number 1 := by decide
  have hpair : ∀ {i p}, pairAt (problem c).structureKey i = some p → p = s(.number 0, .number 1) := by
    intro i p hp
    obtain ⟨a, b, hrow, rfl⟩ := pairAt_eq_some.mp hp
    rw [structureKey_problem] at hrow
    match i, hrow with
    | 0, hrow => cases hrow; rfl
    | 1, hrow => cases hrow; exact Sym2.eq_swap
  constructor
  case pairs =>
    intro i hi
    rw [Finset.mem_singleton.mp hi]
    rfl
  case apart =>
    intro i hi j hj _
    rw [Finset.mem_singleton.mp hi, Finset.mem_singleton.mp hj]
  case acyclic =>
    have hedge : (⊥ ⊔ SimpleGraph.edge (.number 0 : Key) (.number 1)).IsAcyclic :=
      SimpleGraph.isAcyclic_bot.sup_edge_of_not_reachable fun h => hne (SimpleGraph.reachable_bot.mp h)
    refine hedge.anti (le_sup_of_le_right (SimpleGraph.fromEdgeSet_mono ?_))
    rintro p ⟨i, -, hp⟩
    exact hpair hp
  case connects =>
    intro a b
    constructor
    · refine fun h => h.mono (SimpleGraph.fromEdgeSet_mono ?_)
      exact fun p ⟨i, _, hp⟩ => ⟨i, trivial, hp⟩
    · refine reachable_of_forall_adj fun a b => ?_
      rintro ⟨⟨i, -, hp⟩, hab⟩
      refine SimpleGraph.Adj.reachable ⟨⟨1, Finset.mem_singleton_self 1, ?_⟩, hab⟩
      rw [hpair hp]
      exact congrArg some Sym2.eq_swap

theorem weightAt_problem (c : ℝ) :
    weightAt (problem c) 0 = 1 / 3 ∧ weightAt (problem c) 1 = 1 / (1 + 2 * c ^ 2) := by
  have hfirst : blockEntries (factor [0, 1] 1) = [1, 1] := rfl
  have hsecond : blockEntries (factor [1, 0] c) = [c, c] := rfl
  have hweight : weightAt (problem c) 0 = 1 / (1 + Vec.squares (blockEntries (factor [0, 1] 1))) := rfl
  have hweight' : weightAt (problem c) 1 = 1 / (1 + Vec.squares (blockEntries (factor [1, 0] c))) := rfl
  rw [hweight, hweight', hfirst, hsecond]
  simp only [Vec.squares_cons, Vec.squares_nil]
  constructor
  · norm_num
  · ring

/-- A spanning forest that weighs less than the first factor is the second one alone. -/
theorem eq_second_of_light {c : ℝ} {chosen : Finset ℕ}
    (h : IsPairForest (problem c).structureKey chosen) (hlight : setWeight (problem c) chosen < 1 / 3) :
    chosen = {1} := by
  have hplaces : ∀ i ∈ chosen, i = 0 ∨ i = 1 := by
    intro i hi
    obtain ⟨p, hp⟩ := Option.isSome_iff_exists.mp (h.pairs i hi)
    obtain ⟨a, b, hrow, -⟩ := pairAt_eq_some.mp hp
    have hlt := (List.getElem?_eq_some_iff.mp hrow).1
    rw [structureKey_problem] at hlt
    exact Nat.le_one_iff_eq_zero_or_eq_one.mp (Nat.le_of_lt_succ hlt)
  have hfirst : 0 ∉ chosen := by
    intro hmem
    have hle := Finset.single_le_sum (fun i _ => weightAt_nonneg (problem c) i) hmem
    rw [(weightAt_problem c).1] at hle
    exact absurd hle (not_le.mpr hlight)
  have hsubset : chosen ⊆ {1} := by
    intro i hi
    rcases hplaces i hi with rfl | rfl
    · exact absurd hi hfirst
    · exact Finset.mem_singleton_self 1
  rcases Finset.subset_singleton_iff.mp hsubset with rfl | hone
  · -- without any factor the two variables would not be connected
    have hjoined := (h.connects (.number 0) (.number 1)).mpr
      (((second_isPairForest c).connects (.number 0) (.number 1)).mp ?_)
    · have hnone : variableGraph (problem c).structureKey (· ∈ (∅ : Finset ℕ)) = ⊥ := by
        refine le_bot_iff.mp ((SimpleGraph.fromEdgeSet_mono ?_).trans SimpleGraph.fromEdgeSet_empty.le)
        rintro p ⟨i, hi, -⟩
        exact absurd hi (Finset.notMem_empty i)
      rw [hnone] at hjoined
      exact absurd (SimpleGraph.reachable_bot.mp hjoined) (by decide)
    · refine SimpleGraph.Adj.reachable ⟨⟨1, Finset.mem_singleton_self 1, ?_⟩, by decide⟩
      exact congrArg some Sym2.eq_swap
  · exact hone

/-- Where the second factor has the greater entries it is the lighter one, and it is the one that is
    marked. -/
theorem minimum_mask_parallel :
    (∀ f ∈ (problem 2).factors, f.keys.Nodup ∧ f.keys ⊆ vertices.keys) ∧
      weightAt (problem 2) 0 = 1 / 3 ∧ weightAt (problem 2) 1 = 1 / 9 ∧
      IsPairForest (problem 2).structureKey {1} ∧
      ∃ marks, mask vertices .minimum (problem 2) = .ok marks ∧
        markedPairs (problem 2).structureKey marks = {1} := by
  have hg : ∀ f ∈ (problem 2).factors, f.keys.Nodup ∧ f.keys ⊆ vertices.keys := by
    simp [problem, factor, LinearFactor.keys, Table.keys, vertices]
  obtain ⟨hfirst, hsecond⟩ := weightAt_problem 2
  have hninth : weightAt (problem 2) 1 = 1 / 9 := by
    rw [hsecond]
    norm_num
  obtain ⟨marks, hmarks, hforest, hleast⟩ := minimum_mask_lightest hg
  have hlight : setWeight (problem 2) (markedPairs (problem 2).structureKey marks) < 1 / 3 := by
    refine (hleast {1} (second_isPairForest 2)).trans_lt ?_
    rw [setWeight, Finset.sum_singleton, hninth]
    norm_num
  exact ⟨hg, hfirst, hninth, second_isPairForest 2, marks, hmarks, eq_second_of_light hforest hlight⟩

end Parallel

end Subgraph

end LeastSquares
