/-
  LeastSquares/Proofs/SupernodalForest.lean
  =========================================
  **The fronts of a linear problem are its supernodal elimination tree.**

  Where the separator of a front leads is always the start of a front: a variable in the middle has
  an only child, which is in its own front.  Since fronts are numbered by their first variables, the
  parent of a front comes after it, also when other variables lie between the variables of a front.
-/
import LeastSquares.Proofs.Supernodes

namespace LeastSquares

namespace FrontForest

variable {α : Type} {order : EliminationOrder} {g : LinearGraph α} {table : Table (List Key)}

/-- A forest of fronts is the supernodal elimination tree of a linear problem, whose separators are
    in a table. -/
structure IsSupernodal (order : EliminationOrder) (g : LinearGraph α) (table : Table (List Key))
    (forest : FrontForest) : Prop where
  separates : Separates order g table
  covers : ∀ key, key ∈ order.keys ↔ ∃ index, forest.frontOf.get? key = some index
  frontOf_iff : ∀ key index, forest.frontOf.get? key = some index ↔
    ∃ front, forest.fronts[index]? = some front ∧ key ∈ front.frontals
  ascending : ∀ front ∈ forest.fronts,
    front.frontals ≠ [] ∧ front.frontals.Pairwise fun a b => order.place a < order.place b
  separator_iff : ∀ front ∈ forest.fronts, ∀ before key after,
    front.frontals = before ++ key :: after →
      ∀ other, other ∈ separatorIn table key ↔ other ∈ after ++ front.separator
  parent_eq_none_iff : ∀ front ∈ forest.fronts, front.parent = none ↔ front.separator = []
  parent_spec : ∀ (index : ℕ) (front : Front) (next : ℕ), forest.fronts[index]? = some front →
    front.parent = some next → index < next ∧
      ∃ (parent : Front) (first : Key) (rest : List Key), forest.fronts[next]? = some parent ∧
        parent.frontals = first :: rest ∧ first ∈ front.separator ∧
        (∀ other ∈ front.separator, order.place first ≤ order.place other) ∧
        ∀ other ∈ front.separator, other ∈ parent.frontals ++ parent.separator
  children_eq : ∀ (index : ℕ) (front : Front), forest.fronts[index]? = some front → front.children =
    (forest.fronts.zipIdx.filter fun entry => entry.1.parent = some index).map (·.2)

/-! ### Inside a front -/

/-- The separator of a variable in a front: the variables behind it, and what the last of them is
    separated by. -/
theorem separator_of_follows {key last : Key} {after : List Key}
    (h : (key :: after).IsChain (Follows order table)) (hlast : (key :: after).getLast? = some last)
    (other : Key) :
    other ∈ separatorIn table key ↔ other ∈ after ∨ other ∈ separatorIn table last := by
  induction after generalizing key with
  | nil =>
    rw [List.getLast?_singleton, Option.some.injEq] at hlast
    simp [hlast]
  | cons next after ih =>
    rw [List.isChain_cons_cons] at h
    rw [List.getLast?_cons_cons] at hlast
    rw [h.1.2, ih h.2 hlast, List.mem_cons, or_assoc]

variable {growth : Growth}

theorem Growth.Holds.pairwise (h : growth.Holds order table order.keys)
    (hnodup : order.keys.Nodup) {front : List Key × List Key} (hfront : front ∈ growth.fronts) :
    front.1.Pairwise fun a b => order.place a < order.place b :=
  (EliminationOrder.pairwise_place hnodup).sublist (h.ascending front hfront)

theorem Growth.Holds.exists_last (h : growth.Holds order table order.keys)
    {front : List Key × List Key} (hfront : front ∈ growth.fronts) :
    ∃ last, front.1.getLast? = some last ∧ last ∈ order.keys ∧ last ∈ front.1 := by
  obtain ⟨heads, hheads, -⟩ := h.heads
  cases hlast : front.1.getLast? with
  | none =>
    have hnil : front.1 = [] := List.getLast?_eq_none_iff.mp hlast
    have hmem : (none : Option Key) ∈ heads.map some := by
      rw [← hheads]
      exact List.mem_map.mpr ⟨front, hfront, by rw [hnil]; rfl⟩
    simp at hmem
  | some last =>
    have hmem := List.mem_of_getLast? hlast
    exact ⟨last, rfl, (h.ascending front hfront).subset hmem, hmem⟩

/-! ### Between fronts -/

/-- **A front leads to the start of a front**: where a variable is the parent of the last variable of
    a front, it comes first in its own. -/
theorem Growth.Holds.head_of_parent (h : growth.Holds order table order.keys)
    (hnodup : order.keys.Nodup) {front next : List Key × List Key} {index : ℕ} {last parent : Key}
    (hfront : growth.fronts[index]? = some front) (hlast : front.1.getLast? = some last)
    (hparent : parentIn order table last = some parent) {place : ℕ}
    (hnext : growth.fronts[place]? = some next) (hmem : parent ∈ next.1) :
    ∃ rest, next.1 = parent :: rest := by
  obtain ⟨before, after, hsplit⟩ := List.append_of_mem hmem
  rcases List.eq_nil_or_concat before with rfl | ⟨before, child, rfl⟩
  · exact ⟨after, hsplit⟩
  -- otherwise the variable before it is its only child, which is the last of the other front
  exfalso
  have hsplit : next.1 = before ++ child :: parent :: after := by simp [hsplit]
  have hmemNext := List.mem_of_getElem? hnext
  have hmemLast : last ∈ front.1 := List.mem_of_getLast? hlast
  have hlisted : last ∈ order.keys :=
    (h.ascending front (List.mem_of_getElem? hfront)).subset hmemLast
  have hfollows : Follows order table child parent := by
    have hchain := h.follows next hmemNext
    rw [hsplit] at hchain
    exact (List.isChain_cons_cons.mp hchain.right_of_append).1
  have hchild : last ∈ childrenIn order table parent :=
    List.mem_filter.mpr ⟨hlisted, by simpa using hparent⟩
  rw [hfollows.1, List.mem_singleton] at hchild
  subst hchild
  have hplace : index = place := by
    have hleft := (h.frontOf_iff last index).mpr ⟨front, hfront, hmemLast⟩
    have hright := (h.frontOf_iff last place).mpr ⟨next, hnext, by simp [hsplit]⟩
    rw [hleft, Option.some.injEq] at hright
    exact hright
  have hsame : front = next := by
    rw [hplace, hnext, Option.some.injEq] at hfront
    exact hfront.symm
  rw [hsame, hsplit, List.getLast?_append_cons, List.getLast?_cons_cons] at hlast
  have hpairwise := h.pairwise hnodup hmemNext
  rw [hsplit] at hpairwise
  have hbehind := (List.pairwise_cons.mp (List.pairwise_append.mp hpairwise).2.1).1
  exact lt_irrefl _ (hbehind last (List.mem_of_getLast? hlast))

theorem Growth.Holds.index_lt (h : growth.Holds order table order.keys) (hnodup : order.keys.Nodup)
    {front next : List Key × List Key} {index place : ℕ} {key first : Key} {rest : List Key}
    (hfront : growth.fronts[index]? = some front) (hkey : key ∈ front.1)
    (hnext : growth.fronts[place]? = some next) (hfirst : next.1 = first :: rest)
    (hlt : order.place key < order.place first) : index < place := by
  obtain ⟨heads, hheads, hsublist⟩ := h.heads
  have hpairwise := (EliminationOrder.pairwise_place hnodup).sublist hsublist
  have hhead : ∀ {i : ℕ} {f : List Key × List Key}, growth.fronts[i]? = some f →
      ∃ hi : i < heads.length, f.1.head? = some heads[i] := by
    intro i f hf
    have hmap : (growth.fronts.map (·.1.head?))[i]? = some f.1.head? := by
      rw [List.getElem?_map, hf]
      rfl
    rw [hheads, List.getElem?_map, Option.map_eq_some_iff] at hmap
    obtain ⟨head, hhead, hsome⟩ := hmap
    obtain ⟨hi, hget⟩ := List.getElem?_eq_some_iff.mp hhead
    exact ⟨hi, by rw [hget, hsome]⟩
  obtain ⟨hi, hheadFront⟩ := hhead hfront
  obtain ⟨hj, hheadNext⟩ := hhead hnext
  rw [hfirst, List.head?_cons, Option.some.injEq] at hheadNext
  obtain ⟨others, hothers⟩ : ∃ others, front.1 = heads[index] :: others := by
    cases hcases : front.1 with
    | nil => simp [hcases] at hheadFront
    | cons a others =>
      rw [hcases, List.head?_cons, Option.some.injEq] at hheadFront
      exact ⟨others, by rw [hheadFront]⟩
  have hle : order.place heads[index] ≤ order.place key := by
    rw [hothers] at hkey
    rcases List.mem_cons.mp hkey with rfl | hkey
    · exact le_rfl
    · have := h.pairwise hnodup (List.mem_of_getElem? hfront)
      rw [hothers] at this
      exact ((List.pairwise_cons.mp this).1 key hkey).le
  by_contra hnot
  rcases (not_lt.mp hnot).eq_or_lt with heq | hgt
  · subst heq
    rw [hheadNext] at hlt
    omega
  · have := List.pairwise_iff_getElem.mp hpairwise place index hj hi hgt
    rw [hheadNext] at hlt
    omega

/-- In a front that has grown, a variable is separated by those behind it and by the separator. -/
theorem Growth.Holds.separator_iff (h : growth.Holds order table order.keys)
    {front : List Key × List Key} (hfront : front ∈ growth.fronts) {before after : List Key} {key : Key}
    (hsplit : front.1 = before ++ key :: after) (other : Key) :
    other ∈ separatorIn table key ↔ other ∈ after ++ front.2 := by
  obtain ⟨last, hlast, -, -⟩ := h.exists_last hfront
  have hchain := h.follows front hfront
  have hseparator := h.separator front hfront last hlast
  rw [hsplit] at hchain hlast
  rw [List.getLast?_append_cons] at hlast
  rw [separator_of_follows hchain.right_of_append hlast, hseparator, List.mem_append]

/-! ### The forest -/

theorem getElem?_fronts_eq_some {index : ℕ} {front : Front}
    (h : (ofSeparators order table).fronts[index]? = some front) :
    ∃ grown, (growthOf order table).fronts[index]? = some grown ∧ front.frontals = grown.1 ∧
      front.separator = grown.2 ∧ front.parent = parentOf order table grown ∧
      front.children = (((growthOf order table).fronts.map (parentOf order table)).zipIdx.filter
        fun entry => entry.1 = some index).map (·.2) := by
  rw [ofSeparators, List.getElem?_mapIdx, Option.map_eq_some_iff] at h
  obtain ⟨grown, hgrown, rfl⟩ := h
  exact ⟨grown, hgrown, rfl, rfl, rfl, rfl⟩

theorem exists_front {index : ℕ} {grown : List Key × List Key}
    (h : (growthOf order table).fronts[index]? = some grown) :
    ∃ front, (ofSeparators order table).fronts[index]? = some front ∧ front.frontals = grown.1 ∧
      front.separator = grown.2 := by
  refine ⟨_, by rw [ofSeparators, List.getElem?_mapIdx, h, Option.map_some], rfl, rfl⟩

/-- **The forest of separators is the supernodal elimination tree.** -/
theorem isSupernodal_ofSeparators (hnodup : order.keys.Nodup) (h : Separates order g table) :
    IsSupernodal order g table (ofSeparators order table) := by
  have hgrown : Growth.Holds order table order.keys (growthOf order table) :=
    Growth.holds_foldl Growth.holds_empty (by simpa using hnodup)
  have hmem : ∀ front ∈ (ofSeparators order table).fronts, ∃ grown ∈ (growthOf order table).fronts,
      front.frontals = grown.1 ∧ front.separator = grown.2 ∧
        front.parent = parentOf order table grown := by
    intro front hfront
    obtain ⟨index, hindex⟩ := List.mem_iff_getElem?.mp hfront
    obtain ⟨grown, hgrown, hfrontals, hseparator, hparent, -⟩ := getElem?_fronts_eq_some hindex
    exact ⟨grown, List.mem_of_getElem? hgrown, hfrontals, hseparator, hparent⟩
  constructor
  case separates => exact h
  case covers =>
    intro key
    rw [← hgrown.placed]
    exact ⟨Table.exists_get?_of_mem_keys, fun ⟨_, hindex⟩ => Table.mem_keys_of_get? hindex⟩
  case frontOf_iff =>
    intro key index
    refine (hgrown.frontOf_iff key index).trans ⟨?_, ?_⟩
    · rintro ⟨grown, hindex, hkey⟩
      obtain ⟨front, hfront, hfrontals, -⟩ := exists_front hindex
      exact ⟨front, hfront, hfrontals ▸ hkey⟩
    · rintro ⟨front, hindex, hkey⟩
      obtain ⟨grown, hgrown, hfrontals, -⟩ := getElem?_fronts_eq_some hindex
      exact ⟨grown, hgrown, hfrontals ▸ hkey⟩
  case ascending =>
    intro front hfront
    obtain ⟨grown, hmem, hfrontals, -⟩ := hmem front hfront
    obtain ⟨last, hlast, -, hmemLast⟩ := hgrown.exists_last hmem
    rw [hfrontals]
    exact ⟨List.ne_nil_of_mem hmemLast, hgrown.pairwise hnodup hmem⟩
  case separator_iff =>
    intro front hfront before key after hsplit other
    obtain ⟨grown, hmem, hfrontals, hseparator, -⟩ := hmem front hfront
    rw [hseparator]
    exact hgrown.separator_iff hmem (hfrontals ▸ hsplit) other
  case parent_eq_none_iff =>
    intro front hfront
    obtain ⟨grown, hmem, -, hseparator, hparent⟩ := hmem front hfront
    obtain ⟨last, hlast, hlisted, -⟩ := hgrown.exists_last hmem
    rw [hparent, hseparator, hgrown.separator grown hmem last hlast,
      ← parentIn_eq_none_iff h hlisted, parentOf, hlast, Option.bind_some]
    cases hnext : parentIn order table last with
    | none => simp
    | some next =>
      have hnextListed := h.listed hlisted (parentIn_eq_some hnodup hnext).1
      obtain ⟨index, hindex⟩ := Table.exists_get?_of_mem_keys (hgrown.placed.symm ▸ hnextListed)
      simp [hindex]
  case parent_spec =>
    intro index front next hindex hparent
    obtain ⟨grown, hgrownIndex, hfrontals, hseparator, hparentOf, -⟩ := getElem?_fronts_eq_some hindex
    have hmem := List.mem_of_getElem? hgrownIndex
    obtain ⟨last, hlast, hlisted, hmemLast⟩ := hgrown.exists_last hmem
    rw [hparentOf, parentOf, hlast, Option.bind_some, Option.bind_eq_some_iff] at hparent
    obtain ⟨first, hfirst, hnext⟩ := hparent
    obtain ⟨hfirstMem, hearliest⟩ := parentIn_eq_some hnodup hfirst
    obtain ⟨grownNext, hgrownNext, hmemFirst⟩ := (hgrown.frontOf_iff first next).mp hnext
    obtain ⟨rest, hrest⟩ :=
      hgrown.head_of_parent hnodup hgrownIndex hlast hfirst hgrownNext hmemFirst
    obtain ⟨parent, hparentIndex, hparentFrontals, hparentSeparator⟩ := exists_front hgrownNext
    rw [hseparator, hgrown.separator grown hmem last hlast]
    refine ⟨hgrown.index_lt hnodup hgrownIndex hmemLast hgrownNext hrest
      (h.place_lt hlisted hfirstMem), parent, first, rest, hparentIndex, hparentFrontals.trans hrest,
      hfirstMem, hearliest, fun other hother => ?_⟩
    have hsplit : grownNext.1 = [] ++ first :: rest := hrest
    rw [hparentFrontals, hrest, hparentSeparator, List.cons_append, List.mem_cons]
    refine (separator_subset_parent h hnodup hlisted hfirst hother).imp_right fun hother => ?_
    exact (hgrown.separator_iff (List.mem_of_getElem? hgrownNext) hsplit other).mp hother
  case children_eq =>
    intro index front hindex
    obtain ⟨-, -, -, -, -, hchildren⟩ := getElem?_fronts_eq_some hindex
    have hparents : (ofSeparators order table).fronts.map (·.parent) =
        (growthOf order table).fronts.map (parentOf order table) := by
      refine List.ext_getElem? fun i => ?_
      rw [List.getElem?_map, List.getElem?_map, ofSeparators, List.getElem?_mapIdx, Option.map_map]
      rfl
    rw [hchildren, ← hparents, List.zipIdx_map, List.filter_map, List.map_map]
    rfl

theorem ofGraph_isSupernodal (hnodup : order.keys.Nodup)
    (hlisted : ∀ f ∈ g.factors, ∀ key ∈ f.keys, key ∈ order.keys) :
    ∃ table, separatorsOf order g = .ok table ∧
      ofGraph order g = .ok (ofSeparators order table) ∧
      IsSupernodal order g table (ofSeparators order table) := by
  obtain ⟨table, htable, -, hspec⟩ := separatorsOf_spec hnodup hlisted
  refine ⟨table, htable, by rw [ofGraph_eq, htable]; rfl, isSupernodal_ofSeparators hnodup ?_⟩
  exact ⟨fun key hkey => (hspec key hkey).1, fun key hkey => (hspec key hkey).2⟩

end FrontForest

namespace MultifrontalSolver

/-- **The analysis of a linear problem returns its supernodal elimination tree**, and remembers which
    front each variable is in. -/
theorem symbolic_isSupernodal {α : Type} (s : MultifrontalSolver α) (g : LinearGraph α)
    (hnodup : s.order.keys.Nodup) (hlisted : ∀ f ∈ g.factors, ∀ key ∈ f.keys, key ∈ s.order.keys) :
    ∃ table forest, FrontForest.separatorsOf s.order g = .ok table ∧
      FrontForest.ofGraph s.order g = .ok forest ∧ (s.symbolic g).result = .ok forest.fronts ∧
      (s.symbolic g).memory.frontOf = forest.frontOf ∧
      FrontForest.IsSupernodal s.order g table forest := by
  obtain ⟨table, htable, hforest, hspec⟩ := FrontForest.ofGraph_isSupernodal hnodup hlisted
  refine ⟨table, _, htable, hforest, ?_, ?_, hspec⟩
  · simp only [symbolic, hforest]
  · simp only [symbolic, hforest]

/-- Two fronts that interleave: the first and the fourth variable, and the two between them. -/
theorem symbolic_interleaved :
    let block : Mat ℕ := ⟨1, []⟩
    let s : MultifrontalSolver ℕ :=
      ⟨⟨[.number 0, .number 1, .number 2, .number 3, .number 4]⟩, [], none, ⟨[], []⟩, [], none⟩
    let g : LinearGraph ℕ := ⟨[
      .dense [(.number 0, block), (.number 3, block), (.number 4, block)] [],
      .dense [(.number 1, block), (.number 2, block), (.number 4, block)] []]⟩
    (s.symbolic g).result = .ok [
      ⟨[.number 0, .number 3], [.number 4], some 2, []⟩,
      ⟨[.number 1, .number 2], [.number 4], some 2, []⟩,
      ⟨[.number 4], [], none, [0, 1]⟩] ∧
    s.order.keys.Nodup ∧ (∀ f ∈ g.factors, ∀ key ∈ f.keys, key ∈ s.order.keys) ∧
    ∃ table forest, FrontForest.separatorsOf s.order g = .ok table ∧
      FrontForest.ofGraph s.order g = .ok forest ∧ (s.symbolic g).result = .ok forest.fronts ∧
      (s.symbolic g).memory.frontOf = forest.frontOf ∧
      FrontForest.IsSupernodal s.order g table forest := by
  intro block s g
  have hnodup : s.order.keys.Nodup := by decide
  have hlisted : ∀ f ∈ g.factors, ∀ key ∈ f.keys, key ∈ s.order.keys := by decide
  refine ⟨?_, hnodup, hlisted, symbolic_isSupernodal s g hnodup hlisted⟩
  decide +kernel

end MultifrontalSolver

end LeastSquares
