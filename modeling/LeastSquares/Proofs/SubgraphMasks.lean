/-
  LeastSquares/Proofs/SubgraphMasks.lean
  ======================================
  **The marks of a spanning subgraph.**

  The factors of one variable are all marked, and of the factors of two variables one for each edge of
  a spanning forest.  What that says depends on the variables of the factors alone, so marks that were
  chosen for one problem are those of a spanning subgraph of every problem of the same structure.
-/
import LeastSquares.Linear.Subgraph
import LeastSquares.Proofs.Positions
import LeastSquares.Proofs.Reals
import LeastSquares.Proofs.SpanningForests

namespace LeastSquares

/-! ### Subgraphs in terms of the variables of the factors -/

namespace Subgraph

/-- The two variables of the factor at a place, when it is about two. -/
def pairAt (rows : List (List Key)) (i : ℕ) : Option (Sym2 Key) :=
  match rows[i]? with
  | some [a, b] => some s(a, b)
  | _ => none

/-- The graph of the variables in which the two of each chosen factor are joined. -/
def variableGraph (rows : List (List Key)) (chosen : ℕ → Prop) : SimpleGraph Key :=
  .fromEdgeSet {p | ∃ i, chosen i ∧ pairAt rows i = some p}

/-- The marks of a spanning subgraph: every factor of one variable, none of no variable or of more
    than two, and a spanning forest of the factors of two. -/
structure IsSpanning (rows : List (List Key)) (mask : List Bool) : Prop where
  length : mask.length = rows.length
  single : ∀ (i : ℕ) key, rows[i]? = some [key] → mask[i]? = some true
  other : ∀ (i : ℕ) (keys : List Key), rows[i]? = some keys → keys.length = 0 ∨ 3 ≤ keys.length →
    mask[i]? = some false
  /-- No two marked factors are about the same two variables. -/
  apart : ∀ i j p, mask[i]? = some true → mask[j]? = some true →
    pairAt rows i = some p → pairAt rows j = some p → i = j
  acyclic : (variableGraph rows fun i => mask[i]? = some true).IsAcyclic
  connects : ∀ a b, (variableGraph rows fun i => mask[i]? = some true).Reachable a b ↔
    (variableGraph rows fun _ => True).Reachable a b

/-- Each list is of different variables, all of them ordered. -/
def Within (order : EliminationOrder) (rows : List (List Key)) : Prop :=
  ∀ keys ∈ rows, keys.Nodup ∧ keys ⊆ order.keys

variable {α : Type} {order : EliminationOrder} {rows : List (List Key)} {edges forest : List (Edge α)}
  {e f : Edge α}

theorem pairAt_eq_some {i : ℕ} {p : Sym2 Key} :
    pairAt rows i = some p ↔ ∃ a b, rows[i]? = some [a, b] ∧ s(a, b) = p := by
  unfold pairAt
  split
  · next a b h => simp [h]
  · next h =>
    simp only [reduceCtorEq, false_iff, not_exists, not_and]
    exact fun a b hrow => absurd hrow (h a b)

/-! ### Edges and the factors that they stand for -/

/-- Variables of a factor of two are ordered. -/
theorem mem_of_pairAt (hrows : Within order rows) {i : ℕ} {p : Sym2 Key} (h : pairAt rows i = some p) :
    ∀ key ∈ p, key ∈ order.keys := by
  obtain ⟨a, b, hrow, rfl⟩ := pairAt_eq_some.mp h
  have hkeys := (hrows _ (List.mem_of_getElem? hrow)).2
  intro key hkey
  rcases Sym2.mem_iff.mp hkey with rfl | rfl
  · exact hkeys (by simp)
  · exact hkeys (by simp)

/-- Each edge is that of a factor of two variables, between their places, and each such factor has an
    edge between the places of its variables, be it its own or that of another factor. -/
structure Represents (order : EliminationOrder) (rows : List (List Key)) (edges : List (Edge α)) :
    Prop where
  of_edge : ∀ e ∈ edges, ∃ p, pairAt rows e.factor = some p ∧ e.ends = p.map order.place
  of_pair : ∀ i p, pairAt rows i = some p → ∃ e ∈ edges, e.ends = p.map order.place

theorem ends_eq_of_parallel (h : e.parallel f = true) : e.ends = f.ends := by
  simp only [Edge.parallel, Bool.and_eq_true, decide_eq_true_eq] at h
  rw [Edge.ends, Edge.ends, h.1, h.2]

section

variable [Scalar α]

theorem mem_of_mem_enter (h : f ∈ enter edges e) : f = e ∨ f ∈ edges := by
  induction edges with
  | nil => exact .inl (List.mem_singleton.mp h)
  | cons other rest ih =>
    rw [enter] at h
    split_ifs at h
    · exact (List.mem_cons.mp h).imp_right (List.mem_cons_of_mem _)
    · exact .inr h
    · rcases List.mem_cons.mp h with rfl | h
      · exact .inr List.mem_cons_self
      · exact (ih h).imp_right (List.mem_cons_of_mem _)

/-- The ends of an edge stay those of some edge, even if the edge makes way for a lighter one. -/
theorem exists_ends_enter {p : Sym2 ℕ} :
    (∃ f ∈ enter edges e, f.ends = p) ↔ e.ends = p ∨ ∃ f ∈ edges, f.ends = p := by
  induction edges with
  | nil => simp [enter]
  | cons other rest ih =>
    rw [enter]
    split_ifs with hparallel hlighter
    · simp [ends_eq_of_parallel hparallel]
    · simp [ends_eq_of_parallel hparallel]
    · simp only [List.exists_mem_cons_iff, ih]
      exact or_left_comm

theorem mem_of_mem_foldl_enter {entered : List (Edge α)} (h : f ∈ entered.foldl enter edges) :
    f ∈ entered ∨ f ∈ edges := by
  induction entered generalizing edges with
  | nil => exact .inr h
  | cons e entered ih =>
    rcases ih h with h | h
    · exact .inl (List.mem_cons_of_mem _ h)
    · exact (mem_of_mem_enter h).imp_left fun hfe => List.mem_cons.mpr (.inl hfe)

theorem exists_ends_foldl_enter {entered : List (Edge α)} {p : Sym2 ℕ} :
    (∃ f ∈ entered.foldl enter edges, f.ends = p) ↔
      (∃ f ∈ entered, f.ends = p) ∨ ∃ f ∈ edges, f.ends = p := by
  induction entered generalizing edges with
  | nil => simp
  | cons e entered ih =>
    rw [List.foldl_cons, ih, exists_ends_enter, List.exists_mem_cons_iff, or_assoc, or_left_comm]

/-- The edge of a factor of two ordered variables, where it stands among the factors. -/
def edgeAt (order : EliminationOrder) (f : LinearFactor α) (index : ℕ) : Option (Edge α) :=
  match f.keys with
  | [a, b] => some ⟨min (order.place a) (order.place b), max (order.place a) (order.place b),
      weight f, index⟩
  | _ => none

theorem edgeOf?_eq {f : LinearFactor α} (h : f.keys ⊆ order.keys) (i : ℕ) :
    edgeOf? order.positions f i = .ok (edgeAt order f i) := by
  unfold edgeOf? edgeAt
  generalize f.keys = keys at h
  match keys, h with
  | [a, b], h =>
    have ha := EliminationOrder.find_positions (h (List.mem_cons_self : a ∈ [a, b]))
    have hb := EliminationOrder.find_positions (h (by simp : b ∈ [a, b]))
    simp only [ha, hb]
    rfl
  | [], _ => rfl
  | [_], _ => rfl
  | _ :: _ :: _ :: _, _ => rfl

theorem edgeAt_eq_some {f : LinearFactor α} {i : ℕ} (h : edgeAt order f i = some e) :
    ∃ a b, f.keys = [a, b] ∧ e.ends = s(order.place a, order.place b) ∧ e.weight = weight f ∧
      e.factor = i := by
  unfold edgeAt at h
  split at h
  · next a b hkeys =>
    obtain rfl := Option.some.inj h
    refine ⟨a, b, hkeys, ?_, rfl, rfl⟩
    rcases le_total (order.place a) (order.place b) with hle | hle
    · simp [Edge.ends, hle]
    · simp [Edge.ends, hle, Sym2.eq_swap]
  · cases h

/-- The edges of all factors of two variables, in the order of the factors. -/
def allEdges (order : EliminationOrder) (g : LinearGraph α) : List (Edge α) :=
  g.factors.zipIdx.filterMap fun entry => edgeAt order entry.1 entry.2

theorem edgesOf_eq {g : LinearGraph α} (h : Within order g.structureKey) :
    edgesOf order.positions g = .ok ((allEdges order g).foldl enter []) := by
  rw [allEdges, List.foldl_filterMap, edgesOf]
  refine foldlM_eq_ok_foldl (fun edges entry hentry => ?_) []
  have hkeys := (h entry.1.keys (List.mem_map_of_mem (List.fst_mem_of_mem_zipIdx hentry))).2
  rw [edgeOf?_eq hkeys]
  cases edgeAt order entry.1 entry.2 <;> rfl

theorem mem_allEdges {g : LinearGraph α} :
    e ∈ allEdges order g ↔ ∃ i f, g.factors[i]? = some f ∧ edgeAt order f i = some e := by
  simp only [allEdges, List.mem_filterMap, Prod.exists, List.mem_zipIdx_iff_getElem?]
  exact exists_comm

/-- Each factor of two variables has an edge between their places. -/
theorem exists_mem_allEdges (order : EliminationOrder) {g : LinearGraph α} {i : ℕ} {p : Sym2 Key}
    (hp : pairAt g.structureKey i = some p) :
    ∃ e ∈ allEdges order g, e.factor = i ∧ e.ends = p.map order.place := by
  obtain ⟨a, b, hrow, rfl⟩ := pairAt_eq_some.mp hp
  rw [LinearGraph.structureKey, List.getElem?_map, Option.map_eq_some_iff] at hrow
  obtain ⟨f, hf, hkeys⟩ := hrow
  obtain ⟨e, he⟩ : ∃ e, edgeAt order f i = some e := ⟨_, by rw [edgeAt, hkeys]⟩
  obtain ⟨a', b', hkeys', hends, -, hindex⟩ := edgeAt_eq_some he
  obtain ⟨rfl, rfl⟩ : a' = a ∧ b' = b := by simpa [hkeys] using hkeys'.symm
  exact ⟨e, mem_allEdges.mpr ⟨i, f, hf, he⟩, hindex, hends⟩

theorem represents_allEdges (order : EliminationOrder) (g : LinearGraph α) :
    Represents order g.structureKey (allEdges order g) := by
  constructor
  · intro e he
    obtain ⟨i, f, hf, hedge⟩ := mem_allEdges.mp he
    obtain ⟨a, b, hkeys, hends, -, rfl⟩ := edgeAt_eq_some hedge
    have hrow : g.structureKey[e.factor]? = some [a, b] := by
      rw [LinearGraph.structureKey, List.getElem?_map, hf, ← hkeys]
      rfl
    exact ⟨s(a, b), pairAt_eq_some.mpr ⟨a, b, hrow, rfl⟩, hends⟩
  · intro i p hp
    obtain ⟨e, he, -, hends⟩ := exists_mem_allEdges order hp
    exact ⟨e, he, hends⟩

/-- The edges that are kept are among all edges. -/
theorem edges_subset (order : EliminationOrder) (g : LinearGraph α) :
    (allEdges order g).foldl enter [] ⊆ allEdges order g := fun _ he =>
  (mem_of_mem_foldl_enter he).resolve_right List.not_mem_nil

theorem represents_edges (order : EliminationOrder) (g : LinearGraph α) :
    Represents order g.structureKey ((allEdges order g).foldl enter []) := by
  have hall := represents_allEdges order g
  constructor
  · exact fun e he => hall.of_edge e (edges_subset order g he)
  · exact fun i p hp => exists_ends_foldl_enter.mpr (.inl (hall.of_pair i p hp))

end

/-! ### What a forest of edges marks -/

theorem Represents.lt (h : Represents order rows edges) (hrows : Within order rows) (he : e ∈ edges) :
    e.first < order.size ∧ e.second < order.size := by
  obtain ⟨p, hp, hends⟩ := h.of_edge e he
  have hplaces : ∀ place ∈ e.ends, place < order.size := by
    intro place hplace
    obtain ⟨key, hkey, rfl⟩ := Sym2.mem_map.mp (hends ▸ hplace)
    exact List.idxOf_lt_length_iff.mpr (mem_of_pairAt hrows hp key hkey)
  exact ⟨hplaces _ (Sym2.mem_mk_left _ _), hplaces _ (Sym2.mem_mk_right _ _)⟩

/-- The ends of an edge are the places of the variables of its factor. -/
theorem Represents.ends_eq (h : Represents order rows edges) (he : e ∈ edges) {p : Sym2 Key}
    (hp : pairAt rows e.factor = some p) : e.ends = p.map order.place := by
  obtain ⟨q, hq, hends⟩ := h.of_edge e he
  rw [hends, Option.some.inj (hq.symm.trans hp)]

/-- Where different vertices keep different images, a graph has no cycle if its image has none. -/
theorem isAcyclic_of_injOn {V W : Type} {G : SimpleGraph V} {H : SimpleGraph W} {f : V → W}
    (hadj : ∀ a b, G.Adj a b → H.Adj (f a) (f b)) (hinj : Set.InjOn f G.support)
    (hH : H.IsAcyclic) : G.IsAcyclic := by
  rw [SimpleGraph.isAcyclic_iff_forall_adj_isBridge] at hH ⊢
  intro u v huv hreach
  -- without the edge, what connects its ends would connect their images without its image
  refine hH (hadj u v huv) (hreach.map ⟨f, fun {a b} hab => ?_⟩)
  obtain ⟨hab, hother⟩ := SimpleGraph.deleteEdges_adj.mp hab
  have ha : a ∈ G.support := ⟨b, hab⟩
  have hb : b ∈ G.support := ⟨a, hab.symm⟩
  have hu : u ∈ G.support := ⟨v, huv⟩
  have hv : v ∈ G.support := ⟨u, huv.symm⟩
  refine SimpleGraph.deleteEdges_adj.mpr ⟨hadj a b hab, fun hends => hother ?_⟩
  rcases Sym2.eq_iff.mp hends with ⟨hau, hbv⟩ | ⟨hav, hbu⟩
  · rw [hinj ha hu hau, hinj hb hv hbv]
    rfl
  · rw [hinj ha hv hav, hinj hb hu hbu]
    exact Sym2.eq_swap

/-- **The factors of a forest of edges form no cycle** of variables. -/
theorem Represents.isAcyclic (h : Represents order rows edges) (hrows : Within order rows)
    (hsubset : forest ⊆ edges) (hforest : (SpanningForest.graphOf forest).IsAcyclic) :
    (variableGraph rows fun i => ∃ e ∈ forest, e.factor = i).IsAcyclic := by
  have hplace : ∀ {i a b c}, pairAt rows i = some s(a, b) → order.place a = order.place c → a = c :=
    fun hpair hsame =>
      EliminationOrder.place_inj (mem_of_pairAt hrows hpair _ (Sym2.mem_mk_left _ _)) hsame
  refine isAcyclic_of_injOn (f := order.place) ?_ ?_ hforest
  · rintro a b ⟨⟨_, ⟨e, he, rfl⟩, hpair⟩, hne⟩
    exact ⟨⟨e, he, h.ends_eq (hsubset he) hpair⟩, fun hsame => hne (hplace hpair hsame)⟩
  · rintro a ⟨c, ⟨_, _, hpair⟩, _⟩ b - hsame
    exact hplace hpair hsame

/-- **The factors of a forest of edges connect** what the edges connect. -/
theorem Represents.reachable (h : Represents order rows edges) (hrows : Within order rows)
    (hsubset : forest ⊆ edges) {a b : Key} (ha : a ∈ order.keys) (hb : b ∈ order.keys)
    (hreach : (SpanningForest.graphOf forest).Reachable (order.place a) (order.place b)) :
    (variableGraph rows fun i => ∃ e ∈ forest, e.factor = i).Reachable a b := by
  let name (place : ℕ) : Key := order.keys.getD place a
  have hname : ∀ key ∈ order.keys, name (order.place key) = key := fun key hkey => by
    simp [name, EliminationOrder.place, List.getElem?_eq_getElem (List.idxOf_lt_length_iff.mpr hkey)]
  have hadj : ∀ {x y}, (SpanningForest.graphOf forest).Adj x y →
      (variableGraph rows fun i => ∃ e ∈ forest, e.factor = i).Adj (name x) (name y) := by
    rintro x y ⟨⟨e, he, hends⟩, hne⟩
    obtain ⟨p, hp, hplaces⟩ := h.of_edge e (hsubset he)
    have hnames : p = s(name x, name y) := by
      have hback : p.map (name ∘ order.place) = p.map id :=
        Sym2.map_congr fun key hkey => hname key (mem_of_pairAt hrows hp key hkey)
      rw [Sym2.map_id, ← Sym2.map_map, ← hplaces, hends] at hback
      exact hback.symm
    refine ⟨⟨e.factor, ⟨e, he, rfl⟩, hnames ▸ hp⟩, fun hsame => hne ?_⟩
    rw [hends, hnames, hsame] at hplaces
    rcases Sym2.eq_iff.mp hplaces with ⟨hx, hy⟩ | ⟨hx, hy⟩
    · exact hx.trans hy.symm
    · exact hx.trans hy.symm
  have hback := hreach.map (⟨name, hadj⟩ : SpanningForest.graphOf forest →g
    variableGraph rows fun i => ∃ e ∈ forest, e.factor = i)
  rw [RelHom.coeFn_mk, hname a ha, hname b hb] at hback
  exact hback

/-- The marks of the factors of one variable and of those whose edges are in a forest. -/
def marksOf (rows : List (List Key)) (forest : List (Edge α)) : List Bool :=
  rows.zipIdx.map fun entry => entry.1.length = 1 || forest.any fun e => e.factor = entry.2

theorem getElem?_marksOf (rows : List (List Key)) (forest : List (Edge α)) (i : ℕ) :
    (marksOf rows forest)[i]? =
      rows[i]?.map fun keys => decide (keys.length = 1) || forest.any fun e => e.factor = i := by
  simp [marksOf, Function.comp_def]

theorem marksOf_pair {i : ℕ} {p : Sym2 Key} (hp : pairAt rows i = some p) :
    (marksOf rows forest)[i]? = some true ↔ ∃ e ∈ forest, e.factor = i := by
  obtain ⟨a, b, hrow, -⟩ := pairAt_eq_some.mp hp
  rw [getElem?_marksOf, hrow]
  simp

/-- **The marks of a spanning forest** are those of a spanning subgraph. -/
theorem Represents.isSpanning (h : Represents order rows edges) (hrows : Within order rows)
    (hforest : SpanningForest.Spans forest edges) : IsSpanning rows (marksOf rows forest) := by
  have hgraph : variableGraph rows (fun i => (marksOf rows forest)[i]? = some true) =
      variableGraph rows fun i => ∃ e ∈ forest, e.factor = i := by
    refine congrArg SimpleGraph.fromEdgeSet (Set.ext fun p => exists_congr fun i => ?_)
    exact and_congr_left marksOf_pair
  have hpairs : ∀ {i p}, (marksOf rows forest)[i]? = some true → pairAt rows i = some p →
      ∃ e ∈ forest, e.factor = i ∧ e.ends = p.map order.place := by
    intro i p hmarked hp
    obtain ⟨e, he, rfl⟩ := (marksOf_pair hp).mp hmarked
    exact ⟨e, he, rfl, h.ends_eq (hforest.subset he) hp⟩
  constructor
  case length => simp [marksOf]
  case single =>
    intro i key hrow
    rw [getElem?_marksOf, hrow]
    rfl
  case other =>
    intro i keys hrow hcount
    have hnone : (forest.any fun e => e.factor = i) = false := by
      refine List.any_eq_false.mpr fun e he hfactor => ?_
      obtain ⟨p, hp, -⟩ := h.of_edge e (hforest.subset he)
      obtain ⟨a, b, hpair, -⟩ := pairAt_eq_some.mp hp
      rw [of_decide_eq_true hfactor, hrow] at hpair
      obtain rfl := Option.some.inj hpair
      simp at hcount
    rw [getElem?_marksOf, hrow, Option.map_some, hnone, Bool.or_false, decide_eq_false (by omega)]
  case apart =>
    intro i j p hi hj hp hp'
    obtain ⟨e, he, rfl, hends⟩ := hpairs hi hp
    obtain ⟨f, hf, rfl, hends'⟩ := hpairs hj hp'
    exact congrArg Edge.factor
      (List.inj_on_of_nodup_map hforest.nodup he hf (hends.trans hends'.symm))
  case acyclic => exact hgraph ▸ h.isAcyclic hrows hforest.subset hforest.acyclic
  case connects =>
    intro a b
    constructor
    · refine fun hab => hab.mono (SimpleGraph.fromEdgeSet_mono ?_)
      exact fun p ⟨i, _, hp⟩ => ⟨i, trivial, hp⟩
    · refine reachable_of_forall_adj fun a b => ?_
      rintro ⟨⟨i, -, hp⟩, -⟩
      have ha := mem_of_pairAt hrows hp a (Sym2.mem_mk_left a b)
      have hb := mem_of_pairAt hrows hp b (Sym2.mem_mk_right a b)
      obtain ⟨e, he, hends⟩ := h.of_pair i _ hp
      rw [hgraph]
      exact h.reachable hrows hforest.subset ha hb
        ((Edge.reachable_iff hends _).mp (hforest.connects e he))

/-! ### The marks of a problem -/

theorem sumSq_nonneg (f : LinearFactor ℝ) : 0 ≤ f.sumSq := by
  rw [LinearFactor.sumSq, Vec.sum_real]
  refine List.sum_nonneg fun x hx => ?_
  obtain ⟨row, -, rfl⟩ := List.mem_map.mp hx
  rw [Vec.sum_real]
  exact List.sum_nonneg (List.forall_mem_map.mpr fun y _ => mul_self_nonneg y)

theorem weight_pos (f : LinearFactor ℝ) : 0 < weight f := by
  have hsum := sumSq_nonneg f
  have hone : (1.0 : ℝ) = 1 := by norm_num
  rw [weight, hone]
  positivity

theorem counts_edges (order : EliminationOrder) {g : LinearGraph ℝ} {e : Edge ℝ}
    (h : e ∈ (allEdges order g).foldl enter []) : e.counts = true := by
  obtain ⟨i, f, -, hedge⟩ := mem_allEdges.mp (edges_subset order g h)
  obtain ⟨-, -, -, -, hweight, -⟩ := edgeAt_eq_some hedge
  simp [Edge.counts, Scalar.isZero_real, hweight, (weight_pos f).ne']

/-- The marks of a problem are those of a forest of its edges. -/
theorem mask_eq {g : LinearGraph ℝ} (hg : Within order g.structureKey) (kind : SpanningTree) :
    mask order kind g = .ok (marksOf g.structureKey (match kind with
      | .minimum => SpanningForest.minimum order.size ((allEdges order g).foldl enter [])
      | .breadthFirst => SpanningForest.breadthFirst order.size ((allEdges order g).foldl enter []))) := by
  simp only [mask, edgesOf_eq hg, bind, Except.bind, pure, Except.pure]
  rw [marksOf, LinearGraph.structureKey, List.zipIdx_map, List.map_map]
  rfl

/-- **The marks of a problem** with ordered variables are those of a spanning subgraph, whichever way
    the forest is chosen. -/
theorem exists_mask {g : LinearGraph ℝ} (hg : Within order g.structureKey) (kind : SpanningTree) :
    ∃ marks, mask order kind g = .ok marks ∧ IsSpanning g.structureKey marks := by
  have hedges : Represents order g.structureKey ((allEdges order g).foldl enter []) :=
    represents_edges order g
  refine ⟨_, mask_eq hg kind, hedges.isSpanning hg ?_⟩
  cases kind with
  | minimum =>
    exact SpanningForest.minimum_spans (fun e he => hedges.lt hg he) fun e he => counts_edges order he
  | breadthFirst =>
    exact SpanningForest.breadthFirst_spans (fun e he => hedges.lt hg he) fun e he => counts_edges order he

end Subgraph

/-! ### Problems one after another -/

namespace SubgraphSolver

open Subgraph

/-- The states of a solver with an order, sizes and parameters: it is new, or has solved problems. -/
inductive Reachable {α : Type} [Scalar α] (order : EliminationOrder) (dims : Table ℕ)
    (parameters : IterativeParameters α) : SubgraphSolver α → Prop
  | fresh : Reachable order dims parameters ⟨order, dims, parameters, none, [], 0⟩
  | solve {s : SubgraphSolver α} (g : LinearGraph α) :
      Reachable order dims parameters s → Reachable order dims parameters (s.solve g).memory

/-- The marks that are kept are those of a spanning subgraph for the structure that is remembered, if
    its variables are ordered. -/
def Keeps {α : Type} (s : SubgraphSolver α) : Prop :=
  ∀ rows, s.structureKey = some rows → Within s.order rows → IsSpanning rows s.mask

section

variable {α : Type} [Scalar α] (s : SubgraphSolver α) (g : LinearGraph α)

/-- Preparing for a problem changes only the structure and the marks. -/
theorem prepare_memory : (s.prepare g).memory =
    { s with structureKey := (s.prepare g).memory.structureKey, mask := (s.prepare g).memory.mask } := by
  unfold prepare
  split
  · rfl
  · split <;> rfl

/-- A problem is iterated with the marks that were prepared for it, and leaves them as they are. -/
theorem solve_eq :
    (∃ steps, (s.solve g).memory = { (s.prepare g).memory with lastIterations := steps }) ∧
    (s.solve g).result = (do
      let _ ← (s.prepare g).result
      let found ← (s.prepare g).memory.iterate g
      Delta.fromVector found.solution s.order.keys s.dims) := by
  rw [solve]
  have hmemory := prepare_memory s g
  cases hprepared : (s.prepare g).result with
  | error e => exact ⟨⟨_, rfl⟩, rfl⟩
  | ok =>
    simp only [bind, Except.bind]
    cases hiterated : (s.prepare g).memory.iterate g with
    | error e => exact ⟨⟨_, rfl⟩, rfl⟩
    | ok found => exact ⟨⟨_, rfl⟩, by rw [hmemory]⟩

end

variable {order : EliminationOrder} {dims : Table ℕ} {parameters : IterativeParameters ℝ}
  {s : SubgraphSolver ℝ}

/-- **Preparing for a problem** keeps what the marks are, and with ordered variables succeeds. -/
theorem prepare_spec (hs : s.Keeps) (g : LinearGraph ℝ) :
    (s.prepare g).memory.Keeps ∧ (Within s.order g.structureKey →
      (s.prepare g).result = .ok () ∧ (s.prepare g).memory.structureKey = some g.structureKey) := by
  have hmask (hg : Within s.order g.structureKey) := exists_mask hg s.parameters.spanningTree
  unfold prepare
  by_cases hkey : s.structureKey = some g.structureKey
  · rw [if_pos hkey]
    exact ⟨hs, fun _ => ⟨rfl, hkey⟩⟩
  rw [if_neg hkey]
  cases hmarks : Subgraph.mask s.order s.parameters.spanningTree g with
  | error e =>
    refine ⟨hs, fun hg => ?_⟩
    obtain ⟨marks, hmarks', -⟩ := hmask hg
    rw [hmarks] at hmarks'
    cases hmarks'
  | ok marks =>
    refine ⟨fun rows hrows hwithin => ?_, fun _ => ⟨rfl, rfl⟩⟩
    obtain rfl := Option.some.inj hrows
    obtain ⟨marks', hmarks', hspanning⟩ := hmask hwithin
    rw [hmarks] at hmarks'
    exact Except.ok.inj hmarks' ▸ hspanning

theorem Reachable.keeps (h : s.Reachable order dims parameters) :
    s.order = order ∧ s.dims = dims ∧ s.Keeps := by
  induction h with
  | fresh => exact ⟨rfl, rfl, fun rows hrows => by cases hrows⟩
  | solve g _ ih =>
    obtain ⟨horder, hdims, hkeeps⟩ := ih
    obtain ⟨⟨steps, hmemory⟩, -⟩ := solve_eq _ g
    have hprepared := (prepare_spec hkeeps g).1
    rw [prepare_memory] at hprepared
    rw [hmemory, prepare_memory]
    exact ⟨horder, hdims, hprepared⟩

/-- **The marks that a problem is iterated with are those of a spanning subgraph**, whatever problems
    were solved before, whether the marks are chosen for the problem or were kept from one of the same
    structure, and in either way to choose a forest.  Choosing them never fails. -/
theorem solve_isSpanning (hs : s.Reachable order dims parameters) {g : LinearGraph ℝ}
    (hg : ∀ f ∈ g.factors, f.keys.Nodup ∧ f.keys ⊆ order.keys) :
    IsSpanning g.structureKey (s.prepare g).memory.mask ∧
      (s.solve g).memory.mask = (s.prepare g).memory.mask ∧
      (s.solve g).result = (do
        let found ← (s.prepare g).memory.iterate g
        Delta.fromVector found.solution order.keys dims) := by
  obtain ⟨rfl, rfl, hkeeps⟩ := hs.keeps
  have hwithin : Within s.order g.structureKey := List.forall_mem_map.mpr hg
  obtain ⟨hprepared, hsucceeds⟩ := prepare_spec hkeeps g
  obtain ⟨hresult, hkey⟩ := hsucceeds hwithin
  obtain ⟨⟨steps, hmemory⟩, hsolve⟩ := solve_eq s g
  refine ⟨?_, by rw [hmemory], by rw [hsolve, hresult]; rfl⟩
  have horder : (s.prepare g).memory.order = s.order := by rw [prepare_memory]
  exact hprepared _ hkey (horder.symm ▸ hwithin)

namespace Triangle

def vertices : EliminationOrder := ⟨[.number 0, .number 1, .number 2]⟩

def sizes : Table ℕ := [(.number 0, 1), (.number 1, 1), (.number 2, 1)]

def settings : IterativeParameters ℝ := ⟨100, 0, 1, .breadthFirst⟩

/-- A factor of some variables, with one number for each of them. -/
def factor (keys : List ℤ) (c : ℝ) : LinearFactor ℝ :=
  .dense (keys.map fun k => (.number k, ⟨1, [[c]]⟩)) [1]

/-- A factor of one variable, factors of any two, two of them of the same two, and one of all. -/
def problem (c : ℝ) : LinearGraph ℝ :=
  ⟨[factor [1] c, factor [0, 1] c, factor [1, 0] c, factor [1, 2] c, factor [2, 0] c,
    factor [0, 1, 2] c]⟩

/-- A solver that has solved the problem with other numbers. -/
noncomputable def solver : SubgraphSolver ℝ :=
  (SubgraphSolver.solve ⟨vertices, sizes, settings, none, [], 0⟩ (problem 1)).memory

theorem solve_isSpanning_kept :
    solver.Reachable vertices sizes settings ∧
      (∀ f ∈ (problem 2).factors, f.keys.Nodup ∧ f.keys ⊆ vertices.keys) ∧
      IsSpanning (problem 2).structureKey (solver.solve (problem 2)).memory.mask := by
  have hs : solver.Reachable vertices sizes settings := .solve _ .fresh
  have hg : ∀ f ∈ (problem 2).factors, f.keys.Nodup ∧ f.keys ⊆ vertices.keys := by
    simp [problem, factor, LinearFactor.keys, Table.keys, vertices]
  obtain ⟨hspanning, hmask, -⟩ := solve_isSpanning hs hg
  exact ⟨hs, hg, hmask ▸ hspanning⟩

end Triangle

end SubgraphSolver

end LeastSquares
