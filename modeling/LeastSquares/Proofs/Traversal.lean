/-
  LeastSquares/Proofs/Traversal.lean
  ==================================
  **The fronts are visited from the roots down.**

  What is visited so far together with what is on the stack are the fronts whose parent is visited.
  So every front is visited once, after its parent, and the variables of its separator are in fronts
  that were visited before.
-/
import LeastSquares.Proofs.Pieces
import LeastSquares.Proofs.SupernodalForest

namespace LeastSquares

namespace FrontForest

variable {α : Type} {order : EliminationOrder} {g : LinearGraph α} {table : Table (List Key)}
  {forest : FrontForest}

/-- The variables of the front at an index. -/
def frontalsAt (fronts : List Front) (index : ℕ) : List Key :=
  (fronts[index]?.map (·.frontals)).getD []

theorem frontalsAt_eq {fronts : List Front} {index : ℕ} {front : Front}
    (h : fronts[index]? = some front) : frontalsAt fronts index = front.frontals := by
  rw [frontalsAt, h, Option.map_some, Option.getD_some]

theorem mem_indices_filter {fronts : List Front} {p : Front → Bool} (index : ℕ) :
    index ∈ (fronts.zipIdx.filter fun entry => p entry.1).map (·.2) ↔
      ∃ front, fronts[index]? = some front ∧ p front = true := by
  rw [List.mem_map]
  constructor
  · rintro ⟨⟨front, i⟩, hentry, rfl⟩
    obtain ⟨hmem, hp⟩ := List.mem_filter.mp hentry
    exact ⟨front, List.mem_zipIdx_iff_getElem?.mp hmem, hp⟩
  · rintro ⟨front, hfront, hp⟩
    exact ⟨(front, index), List.mem_filter.mpr ⟨List.mem_zipIdx_iff_getElem?.mpr hfront, hp⟩, rfl⟩

theorem nodup_indices_filter {β : Type} (items : List β) (p : β → Bool) :
    ((items.zipIdx.filter fun entry => p entry.1).map (·.2)).Nodup := by
  have hsublist := (List.filter_sublist (p := fun entry => p entry.1) (l := items.zipIdx)).map (·.2)
  refine hsublist.nodup ?_
  rw [List.zipIdx_map_snd]
  exact List.nodup_range' ..

theorem IsSupernodal.mem_children (h : IsSupernodal order g table forest) {index : ℕ} {front : Front}
    (hfront : forest.fronts[index]? = some front) (child : ℕ) :
    child ∈ front.children ↔ ∃ c, forest.fronts[child]? = some c ∧ c.parent = some index := by
  rw [h.children_eq index front hfront,
    mem_indices_filter (p := fun front => decide (front.parent = some index))]
  simp

theorem IsSupernodal.nodup_frontals (h : IsSupernodal order g table forest) {front : Front}
    (hfront : front ∈ forest.fronts) : front.frontals.Nodup :=
  (h.ascending front hfront).2.imp fun hlt heq => by
    rw [heq] at hlt
    exact lt_irrefl _ hlt

/-! ### The order of visits -/

/-- The state of a traversal: what is visited, and what is on the stack, are the fronts whose parent
    is visited, each once. -/
structure Traverses (fronts : List Front) (visited stack : List ℕ) : Prop where
  nodup : (visited ++ stack).Nodup
  mem_iff : ∀ index, index ∈ visited ++ stack ↔
    ∃ front, fronts[index]? = some front ∧ ∀ parent, front.parent = some parent → parent ∈ visited

/-- The fronts that are visited from a stack. -/
def visits (fronts : List Front) : ℕ → List ℕ → List ℕ
  | 0, _ => []
  | _, [] => []
  | count + 1, index :: stack =>
    index :: visits fronts count (((fronts[index]?.map (·.children)).getD []).reverse ++ stack)

theorem traverses_roots (fronts : List Front) : Traverses fronts []
    ((fronts.zipIdx.filter fun entry => entry.1.parent.isNone).map (·.2)).reverse := by
  constructor
  · exact List.nodup_reverse.mpr (nodup_indices_filter fronts fun front => front.parent.isNone)
  · intro index
    rw [List.nil_append, List.mem_reverse, mem_indices_filter (p := fun front => front.parent.isNone)]
    refine exists_congr fun front => and_congr_right fun _ => ?_
    cases front.parent <;> simp

/-- **One visit**: the front moves from the stack to what is visited, and its children come on the
    stack. -/
theorem Traverses.step (h : IsSupernodal order g table forest) {visited stack : List ℕ} {index : ℕ}
    (htraverses : Traverses forest.fronts visited (index :: stack)) :
    ∃ front, forest.fronts[index]? = some front ∧
      (∀ parent, front.parent = some parent → parent ∈ visited) ∧
      Traverses forest.fronts (visited ++ [index]) (front.children.reverse ++ stack) := by
  obtain ⟨hnodup, hmem⟩ := htraverses
  obtain ⟨front, hfront, hparent⟩ := (hmem index).mp (by simp)
  refine ⟨front, hfront, hparent, ?_, fun other => ?_⟩
  · -- a child was not there yet, because its parent was not visited yet
    have hfresh : ∀ child ∈ front.children, child ∉ visited ++ index :: stack := by
      intro child hchild hold
      obtain ⟨c, hc, hcparent⟩ := (h.mem_children hfront child).mp hchild
      obtain ⟨c', hc', hvisited⟩ := (hmem child).mp hold
      rw [hc, Option.some.injEq] at hc'
      have hindex := hvisited index (hc' ▸ hcparent)
      exact (List.nodup_append.mp hnodup).2.2 index hindex index (by simp) rfl
    have hchildren : front.children.reverse.Nodup := by
      rw [List.nodup_reverse, h.children_eq index front hfront]
      exact nodup_indices_filter forest.fronts fun front => decide (front.parent = some index)
    have hperm : (visited ++ [index] ++ (front.children.reverse ++ stack)).Perm
        (front.children.reverse ++ (visited ++ index :: stack)) := by
      have hmove := List.perm_append_comm_assoc (visited ++ [index]) front.children.reverse stack
      rwa [List.append_assoc visited [index] stack, List.singleton_append] at hmove
    refine hperm.nodup_iff.mpr (List.nodup_append.mpr ⟨hchildren, hnodup, ?_⟩)
    rintro a ha b hb rfl
    exact hfresh a (List.mem_reverse.mp ha) hb
  · have hold := hmem other
    have hnew := h.mem_children hfront other
    simp only [List.mem_append, List.mem_cons, List.mem_reverse, List.not_mem_nil, or_false] at hold ⊢
    constructor
    · rintro ((hvisited | rfl) | hchild | hstack)
      · obtain ⟨f, hf, hparents⟩ := hold.mp (.inl hvisited)
        exact ⟨f, hf, fun parent hp => .inl (hparents parent hp)⟩
      · exact ⟨front, hfront, fun parent hp => .inl (hparent parent hp)⟩
      · obtain ⟨c, hc, hcparent⟩ := hnew.mp hchild
        refine ⟨c, hc, fun parent hp => .inr ?_⟩
        rw [hcparent, Option.some.injEq] at hp
        exact hp.symm
      · obtain ⟨f, hf, hparents⟩ := hold.mp (.inr (.inr hstack))
        exact ⟨f, hf, fun parent hp => .inl (hparents parent hp)⟩
    · rintro ⟨f, hf, hparents⟩
      by_cases hindex : f.parent = some index
      · exact .inr (.inl (hnew.mpr ⟨f, hf, hindex⟩))
      · have hearlier : ∀ parent, f.parent = some parent → parent ∈ visited := fun parent hp =>
          (hparents parent hp).resolve_right fun heq => hindex (heq ▸ hp)
        rcases hold.mpr ⟨f, hf, hearlier⟩ with hvisited | rfl | hstack
        · exact .inl (.inl hvisited)
        · exact .inl (.inr rfl)
        · exact .inr (.inr hstack)

/-- The separator of a front that is visited or on the stack is in fronts that are visited. -/
theorem Traverses.separator_known (h : IsSupernodal order g table forest) {visited stack : List ℕ}
    (htraverses : Traverses forest.fronts visited stack) {index : ℕ} {front : Front}
    (hindex : index ∈ visited ++ stack) (hfront : forest.fronts[index]? = some front) {key : Key}
    (hkey : key ∈ front.separator) : key ∈ visited.flatMap (frontalsAt forest.fronts) := by
  induction hn : forest.fronts.length - index using Nat.strong_induction_on
    generalizing index front with
  | _ n ih =>
    obtain ⟨front', hfront', hparents⟩ := (htraverses.mem_iff index).mp hindex
    rw [hfront, Option.some.injEq] at hfront'
    cases hparent : front.parent with
    | none =>
      rw [(h.parent_eq_none_iff front (List.mem_of_getElem? hfront)).mp hparent] at hkey
      simp at hkey
    | some next =>
      have hvisited : next ∈ visited := hparents next (hfront' ▸ hparent)
      obtain ⟨hlt, parent, -, -, hnext, -, -, -, hcontained⟩ :=
        h.parent_spec index front next hfront hparent
      rcases List.mem_append.mp (hcontained key hkey) with hfrontal | hseparator
      · exact List.mem_flatMap.mpr ⟨next, hvisited, (frontalsAt_eq hnext).symm ▸ hfrontal⟩
      · obtain ⟨hbound, -⟩ := List.getElem?_eq_some_iff.mp hnext
        exact ih (forest.fronts.length - next) (by omega) (List.mem_append_left _ hvisited) hnext
          hseparator rfl

theorem Traverses.frontals_new (h : IsSupernodal order g table forest) {visited stack : List ℕ}
    {index : ℕ} (htraverses : Traverses forest.fronts visited (index :: stack)) {front : Front}
    (hfront : forest.fronts[index]? = some front) {key : Key} (hkey : key ∈ front.frontals) :
    key ∉ visited.flatMap (frontalsAt forest.fronts) := by
  intro hmem
  obtain ⟨other, hother, hkeyOther⟩ := List.mem_flatMap.mp hmem
  obtain ⟨front', hfront', -⟩ := (htraverses.mem_iff other).mp (List.mem_append_left _ hother)
  rw [frontalsAt_eq hfront'] at hkeyOther
  have hsame := (h.frontOf_iff key index).mpr ⟨front, hfront, hkey⟩
  rw [(h.frontOf_iff key other).mpr ⟨front', hfront', hkeyOther⟩, Option.some.injEq] at hsame
  exact (List.nodup_append.mp htraverses.nodup).2.2 other hother index (by simp) hsame

theorem Traverses.subset_range {fronts : List Front} {visited stack : List ℕ}
    (htraverses : Traverses fronts visited stack) : visited ⊆ List.range fronts.length := by
  intro index hindex
  obtain ⟨front, hfront, -⟩ := (htraverses.mem_iff index).mp (List.mem_append_left _ hindex)
  exact List.mem_range.mpr (List.getElem?_eq_some_iff.mp hfront).1

theorem Traverses.all_visited (h : IsSupernodal order g table forest) {visited : List ℕ}
    (htraverses : Traverses forest.fronts visited []) {index : ℕ}
    (hindex : index < forest.fronts.length) : index ∈ visited := by
  have hmem := htraverses.mem_iff
  simp only [List.append_nil] at hmem
  induction hn : forest.fronts.length - index using Nat.strong_induction_on
    generalizing index with
  | _ n ih =>
    have hfront : forest.fronts[index]? = some forest.fronts[index] := List.getElem?_eq_getElem hindex
    refine (hmem index).mpr ⟨_, hfront, fun next hparent => ?_⟩
    obtain ⟨hlt, _, -, -, hnext, -⟩ := h.parent_spec index _ next hfront hparent
    obtain ⟨hbound, -⟩ := List.getElem?_eq_some_iff.mp hnext
    exact ih (forest.fronts.length - next) (by omega) hbound rfl

/-- Conditionals belong to the fronts of a forest when each is on the variables of its front, and
    needs no more than the separator of the front. -/
def Conform (fronts : List Front) (cs : List (Conditional α)) : Prop :=
  ∀ (index : ℕ) (front : Front), fronts[index]? = some front → ∃ c : Conditional α,
    cs[index]? = some c ∧ c.frontals = front.frontals ∧ ∀ key ∈ c.separator, key ∈ front.separator

theorem Conform.mem_flatMap_iff (h : IsSupernodal order g table forest) {cs : List (Conditional α)}
    (hcs : Conform forest.fronts cs) (hlength : cs.length = forest.fronts.length) (key : Key) :
    key ∈ cs.flatMap (·.frontals) ↔ key ∈ order.keys := by
  rw [List.mem_flatMap]
  constructor
  · rintro ⟨c, hc, hkey⟩
    obtain ⟨index, hindex⟩ := List.mem_iff_getElem?.mp hc
    have hbound : index < forest.fronts.length := hlength ▸ (List.getElem?_eq_some_iff.mp hindex).1
    obtain ⟨c', hc', hfrontals, -⟩ := hcs index _ (List.getElem?_eq_getElem hbound)
    rw [hindex, Option.some.injEq] at hc'
    rw [hc', hfrontals] at hkey
    exact (h.covers key).mpr ⟨index, (h.frontOf_iff key index).mpr
      ⟨_, List.getElem?_eq_getElem hbound, hkey⟩⟩
  · intro hkey
    obtain ⟨index, hindex⟩ := (h.covers key).mp hkey
    obtain ⟨front, hfront, hfrontal⟩ := (h.frontOf_iff key index).mp hindex
    obtain ⟨c, hc, hfrontals, -⟩ := hcs index front hfront
    exact ⟨c, List.mem_of_getElem? hc, hfrontals ▸ hfrontal⟩

/-- **The run of visits**: every front is visited once, and the conditionals, in the order of visits,
    form a schedule. -/
theorem Traverses.visits_spec (h : IsSupernodal order g table forest) {cs : List (Conditional α)}
    (hcs : Conform forest.fronts cs) {count : ℕ} {visited stack : List ℕ}
    (htraverses : Traverses forest.fronts visited stack)
    (hcount : visited.length + count = forest.fronts.length) :
    (visited ++ visits forest.fronts count stack).Perm (List.range forest.fronts.length) ∧
      Conditional.Scheduled (visited.flatMap (frontalsAt forest.fronts))
        ((visits forest.fronts count stack).filterMap (cs[·]?)) := by
  have hvisitedNodup : visited.Nodup := (List.nodup_append.mp htraverses.nodup).1
  have hbound := htraverses.subset_range
  induction count generalizing visited stack with
  | zero =>
    rw [visits, List.append_nil]
    refine ⟨(List.subperm_of_subset hvisitedNodup hbound).perm_of_length_le ?_, .nil _⟩
    rw [List.length_range]
    omega
  | succ count ih =>
    cases stack with
    | nil =>
      have hnil : visits forest.fronts (count + 1) [] = [] := rfl
      rw [hnil, List.append_nil]
      refine ⟨(List.perm_ext_iff_of_nodup hvisitedNodup List.nodup_range).mpr fun index => ?_, .nil _⟩
      exact ⟨fun hindex => hbound hindex,
        fun hindex => htraverses.all_visited h (List.mem_range.mp hindex)⟩
    | cons index stack =>
      obtain ⟨front, hfront, -, hnext⟩ := htraverses.step h
      obtain ⟨c, hc, hfrontals, hseparator⟩ := hcs index front hfront
      have hflat : (visited ++ [index]).flatMap (frontalsAt forest.fronts) =
          visited.flatMap (frontalsAt forest.fronts) ++ c.frontals := by
        rw [List.flatMap_append, List.flatMap_singleton, frontalsAt_eq hfront, hfrontals]
      obtain ⟨hperm, hscheduled⟩ := ih hnext (by rw [List.length_append, List.length_singleton]; omega)
        (List.nodup_append.mp hnext.nodup).1 hnext.subset_range
      rw [visits, hfront, Option.map_some, Option.getD_some]
      refine ⟨by rwa [List.append_cons], ?_⟩
      rw [List.filterMap_cons_some hc]
      rw [hflat] at hscheduled
      refine .cons ?_ ?_ ?_ hscheduled
      · rw [hfrontals]
        exact h.nodup_frontals (List.mem_of_getElem? hfront)
      · rw [hfrontals]
        exact fun key hkey => htraverses.frontals_new h hfront hkey
      · exact fun key hkey => htraverses.separator_known h (by simp) hfront (hseparator key hkey)

end FrontForest

namespace BayesTree

variable {α : Type} [Scalar α] {order : EliminationOrder} {g : LinearGraph α}
  {table : Table (List Key)} {forest : FrontForest} {t : BayesTree α} {cs : List (Conditional α)}

/-- The fronts of a tree in the order in which they are solved. -/
def solved (t : BayesTree α) : List ℕ :=
  FrontForest.visits t.fronts t.fronts.length t.roots.reverse

/-- The conditionals of a tree in the order in which they are solved. -/
def schedule (t : BayesTree α) : List (Conditional α) :=
  t.solved.filterMap fun index => t.conditionals[index]?.join

theorem visit_eq {frontOf : Table ℕ} (h : FrontForest.IsSupernodal order g table ⟨t.fronts, frontOf⟩)
    (hcs : FrontForest.Conform t.fronts cs) (hconditionals : t.conditionals = cs.map some) {count : ℕ}
    {visited stack : List ℕ} (htraverses : FrontForest.Traverses t.fronts visited stack)
    (d : Delta α) : t.visit count stack d =
      ((FrontForest.visits t.fronts count stack).filterMap (cs[·]?)).foldlM
        (fun (d : Delta α) (c : Conditional α) => c.solve d) d := by
  induction count generalizing visited stack d with
  | zero => cases stack <;> rfl
  | succ count ih =>
    cases stack with
    | nil => rfl
    | cons index stack =>
      obtain ⟨front, hfront, -, hnext⟩ := htraverses.step h
      obtain ⟨c, hc, -⟩ := hcs index front hfront
      have hstored : t.conditionals[index]? = some (some c) := by
        rw [hconditionals, List.getElem?_map, hc]
        rfl
      rw [FrontForest.visits, hfront, Option.map_some, Option.getD_some,
        List.filterMap_cons_some hc, List.foldlM_cons, visit, itemAt_natCast hfront,
        itemAt_natCast hstored]
      simp only [bind, Except.bind]
      cases c.solve d with
      | error e => rfl
      | ok next => exact ih hnext next

/-- **The conditionals of a tree are solved in a schedule**, in which every front is visited once. -/
theorem optimize_spec (h : FrontForest.IsSupernodal order g table forest)
    (hcs : FrontForest.Conform forest.fronts cs) (hlength : cs.length = forest.fronts.length)
    (hfronts : t.fronts = forest.fronts) (hconditionals : t.conditionals = cs.map some) : t.optimize = t.schedule.foldlM
        (fun (d : Delta α) (c : Conditional α) => c.solve d) Delta.empty ∧
      t.solved.Perm (List.range t.fronts.length) ∧ t.schedule.Perm cs ∧
      Conditional.Scheduled [] t.schedule := by
  obtain ⟨fronts, frontOf⟩ := forest
  subst hfronts
  have hroots := FrontForest.traverses_roots t.fronts
  have hcount : ([] : List ℕ).length + t.fronts.length = t.fronts.length := Nat.zero_add _
  obtain ⟨hperm, hscheduled⟩ := hroots.visits_spec h hcs hcount
  have hschedule : t.schedule = t.solved.filterMap (cs[·]?) := by
    refine List.filterMap_congr fun index _ => ?_
    rw [hconditionals, List.getElem?_map]
    cases cs[index]? <;> rfl
  rw [hschedule]
  refine ⟨visit_eq h hcs hconditionals hroots Delta.empty, hperm, ?_, hscheduled⟩
  have hall := hperm.filterMap (cs[·]?)
  rwa [List.nil_append, ← hlength, filterMap_range_getElem? cs, hlength] at hall

end BayesTree

end LeastSquares
