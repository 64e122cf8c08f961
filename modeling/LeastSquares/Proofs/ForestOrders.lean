/-
  LeastSquares/Proofs/ForestOrders.lean
  =====================================
  **Minimum degree creates no fill where the neighbours form a forest.**

  In a forest the end of a longest path has at most one neighbour, so the variable that is taken has at
  most one too.  Its elimination makes no two others neighbours, and what is left is a forest again.  The
  separators of the fronts are found by an elimination of their own, from the factors; they are what the
  variables reach in the same order, and so hold one variable at most.
-/
import LeastSquares.Proofs.GreedyOrder
import LeastSquares.Proofs.SpanningForests
import LeastSquares.Proofs.SupernodalForest

namespace LeastSquares

/-! ### Ends of a forest -/

/-- **A forest has a vertex with at most one neighbour**: the end of a longest path. -/
theorem exists_end {V : Type} [Finite V] [Nonempty V] {G : SimpleGraph V} (hforest : G.IsAcyclic) :
    ∃ v, ∀ a b, G.Adj v a → G.Adj v b → a = b := by
  obtain ⟨v, w, p, hp, hlongest⟩ := SimpleGraph.Walk.exists_isPath_forall_isPath_length_le_length G
  refine ⟨v, ?_⟩
  have hnext : ∀ a, G.Adj v a → a = p.snd := by
    intro a hadj
    -- with another neighbour the path would not be the longest
    apply hforest.eq_snd_of_adj_start hp hadj
    by_contra hfresh
    have hlonger := hlongest _ _ (p.cons hadj.symm) (hp.cons hfresh)
    rw [SimpleGraph.Walk.length_cons] at hlonger
    omega
  intro a b ha hb
  rw [hnext a ha, hnext b hb]

namespace Adjacency

/-- The graph of a table: its edges join a variable to those in its row. -/
def graph (adjacency : Adjacency) : SimpleGraph Key := SimpleGraph.fromRel adjacency.Linked

/-- A forest: a table of neighbours whose graph has no cycle. -/
structure IsForest (adjacency : Adjacency) (keys : List Key) : Prop extends adjacency.IsSymmetric keys where
  acyclic : adjacency.graph.IsAcyclic

end Adjacency

namespace MinimumDegree

variable {adjacent : Key → Key → Prop} {keys gone left sequence before after : List Key} {key : Key}
  {adjacency : Adjacency}

/-! ### No fill -/

/-- A variable that is left reaches only its own neighbours through those that are gone. -/
def Unfilled (adjacent : Key → Key → Prop) (gone left : List Key) : Prop :=
  ∀ a ∈ left, ∀ b, Adjacency.Joined adjacent gone left a b ↔ b ∈ left ∧ adjacent a b

/-- A variable reaches at most one of those that are left. -/
def IsEnd (adjacent : Key → Key → Prop) (gone left : List Key) (key : Key) : Prop :=
  ∀ a b, Adjacency.Joined adjacent gone left key a → Adjacency.Joined adjacent gone left key b → a = b

theorem finite_joined (adjacent : Key → Key → Prop) (gone left : List Key) (key : Key) :
    {other | Adjacency.Joined adjacent gone left key other}.Finite :=
  left.finite_toSet.subset fun _ h => h.1

/-- The variables that reach at most one other are those that reach the fewest. -/
theorem isEnd_iff_reach_le : IsEnd adjacent gone left key ↔ reach adjacent gone left key ≤ 1 := by
  rw [reach, Set.ncard_le_one (finite_joined adjacent gone left key)]
  constructor
  · intro hend a ha b hb
    exact hend a b ha hb
  · intro hset a b ha hb
    exact hset a ha b hb

/-- **Eliminating a variable that reaches at most one other creates no fill.** -/
theorem Unfilled.eliminate (h : Unfilled adjacent gone (key :: left))
    (hsymm : ∀ a b, adjacent a b → adjacent b a) (hkey : key ∉ left)
    (hend : IsEnd adjacent gone (key :: left) key) : Unfilled adjacent (gone ++ [key]) left := by
  intro a ha b
  have hchosen : (fun k => k ∈ gone ++ [key]) = fun k => k ∈ gone ∨ k = key := by
    funext k
    simp
  have hne : a ≠ key := fun heq => hkey (heq ▸ ha)
  have hrow := h a (List.mem_cons_of_mem _ ha) b
  rw [Adjacency.Joined, hchosen, Through.insert_iff]
  constructor
  · rintro ⟨hb, hab, hpath | ⟨hto, hfrom⟩⟩
    · exact ⟨hb, (hrow.mp ⟨List.mem_cons_of_mem _ hb, hab, hpath⟩).2⟩
    · -- a path over the variable would lead from its one neighbour back to it
      have hback : Adjacency.Joined adjacent gone (key :: left) key a :=
        ⟨List.mem_cons_of_mem _ ha, hne.symm, hto.symm hsymm⟩
      have hforth : Adjacency.Joined adjacent gone (key :: left) key b :=
        ⟨List.mem_cons_of_mem _ hb, fun heq => hkey (heq ▸ hb), hfrom⟩
      exact absurd (hend a b hback hforth) hab
  · rintro ⟨hb, hadjacent⟩
    obtain ⟨-, hab, hpath⟩ := hrow.mpr ⟨List.mem_cons_of_mem _ hb, hadjacent⟩
    exact ⟨hb, hab, .inl hpath⟩

/-- As long as there is no fill, some variable that is left reaches at most one other. -/
theorem Unfilled.exists_isEnd (h : Unfilled adjacent gone left)
    (hforest : (SimpleGraph.fromRel adjacent).IsAcyclic) (hleft : left ≠ []) :
    ∃ key ∈ left, IsEnd adjacent gone left key := by
  obtain ⟨first, hfirst⟩ := List.exists_mem_of_ne_nil left hleft
  have : Finite {k | k ∈ left} := left.finite_toSet
  have : Nonempty {k | k ∈ left} := ⟨⟨first, hfirst⟩⟩
  obtain ⟨⟨key, hkey⟩, hend⟩ := exists_end (hforest.induce {k | k ∈ left})
  refine ⟨key, hkey, fun a b ha hb => ?_⟩
  have hadj : ∀ {c}, Adjacency.Joined adjacent gone left key c →
      (SimpleGraph.fromRel adjacent).Adj key c := by
    intro c hc
    exact (SimpleGraph.fromRel_adj ..).mpr ⟨hc.2.1, .inl ((h key hkey c).mp hc).2⟩
  exact congrArg Subtype.val (hend ⟨a, ha.1⟩ ⟨b, hb.1⟩ (hadj ha) (hadj hb))

/-- **A greedy sequence of a forest creates no fill**: each of its variables reaches at most one of those
    that are left when it is taken. -/
theorem Greedy.unfilled (h : Greedy adjacent keys gone sequence)
    (hsymm : ∀ a b, adjacent a b → adjacent b a) (hforest : (SimpleGraph.fromRel adjacent).IsAcyclic)
    (hnodup : sequence.Nodup) (hunfilled : Unfilled adjacent gone sequence)
    (hsplit : sequence = before ++ key :: after) :
    Unfilled adjacent (gone ++ before) (key :: after) ∧
      IsEnd adjacent (gone ++ before) (key :: after) key := by
  induction h generalizing before with
  | nil => simp at hsplit
  | @cons gone first rest hfirst _ ih =>
    -- the first variable reaches no more than one that reaches at most one
    have hend : IsEnd adjacent gone (first :: rest) first := by
      obtain ⟨other, hother, hotherEnd⟩ := hunfilled.exists_isEnd hforest (List.cons_ne_nil _ _)
      obtain rfl | hother := List.mem_cons.mp hother
      · exact hotherEnd
      · rw [isEnd_iff_reach_le] at hotherEnd ⊢
        obtain hlt | ⟨heq, -⟩ := hfirst other hother
        · omega
        · omega
    cases before with
    | nil =>
      obtain ⟨rfl, rfl⟩ := List.cons.inj hsplit
      rw [List.append_nil]
      exact ⟨hunfilled, hend⟩
    | cons head before =>
      obtain ⟨rfl, hrest⟩ := List.cons.inj hsplit
      obtain ⟨hfresh, hnodup⟩ := List.nodup_cons.mp hnodup
      have hlater := ih hnodup (hunfilled.eliminate hsymm hfresh hend) hrest
      rwa [List.append_assoc, List.singleton_append] at hlater

/-! ### The rows when a variable is taken -/

theorem Tracks.perm_left {left' : List Key} (h : Tracks adjacent gone left adjacency)
    (hperm : left.Perm left') : Tracks adjacent gone left' adjacency :=
  ⟨h.perm.trans hperm, h.records.congr fun a _ b => by simp only [Adjacency.Joined, hperm.mem_iff]⟩

/-- **Several variables, one after another**: the rows that are left hold what is reached through all of
    them. -/
theorem Tracks.eliminate_all (h : Tracks adjacent gone (before ++ left) adjacency)
    (hsymm : ∀ a b, adjacent a b → adjacent b a) (hnodup : (before ++ left).Nodup) :
    Tracks adjacent (gone ++ before) left (before.foldl Adjacency.eliminate adjacency) := by
  induction before generalizing gone adjacency with
  | nil => rwa [List.append_nil]
  | cons key before ih =>
    have hmem : key ∈ key :: before ++ left := by simp
    have hnext := h.eliminate hsymm hnodup hmem
    rw [List.cons_append, List.erase_cons_head] at hnext
    have hall := ih hnext (List.nodup_cons.mp hnodup).2
    rwa [List.append_assoc, List.singleton_append] at hall

end MinimumDegree

/-! ### Separators -/

namespace FrontForest

variable {α : Type} {order : EliminationOrder} {g : LinearGraph α} {table : Table (List Key)}

/-- What a variable is separated by is what it reaches of those that are left at its turn. -/
theorem fills_iff_joined (hnodup : order.keys.Nodup) {before after : List Key} {key : Key}
    (hsplit : order.keys = before ++ key :: after) (other : Key) :
    Fills order g key other ↔ Adjacency.Joined g.Adjacent before (key :: after) key other := by
  have hbefore := EliminationOrder.mem_before_iff hnodup hsplit.symm
  have hafter := EliminationOrder.mem_after_iff hnodup hsplit.symm
  have hchosen : (fun between => between ∈ before) =
      fun between => order.place between < order.place key := funext fun k => propext (hbefore k)
  have hfresh : key ∉ after := by
    rw [hsplit] at hnodup
    exact (List.nodup_cons.mp (List.nodup_append.mp hnodup).2.1).1
  rw [Fills, Adjacency.Joined, hchosen, ← and_assoc, ← and_assoc, ← hafter other, List.mem_cons]
  refine and_congr_left fun _ => ?_
  constructor
  · exact fun hmem => ⟨.inr hmem, fun heq => hfresh (heq ▸ hmem)⟩
  · rintro ⟨hmem, hne⟩
    exact hmem.resolve_left (Ne.symm hne)

/-- The separator of a front is that of its last variable. -/
theorem exists_separator_eq (hnodup : order.keys.Nodup) {front : Front}
    (hfront : front ∈ (ofSeparators order table).fronts) :
    ∃ last ∈ order.keys, front.separator = separatorIn table last := by
  have hgrown : Growth.Holds order table order.keys (growthOf order table) :=
    Growth.holds_foldl Growth.holds_empty (by simpa using hnodup)
  obtain ⟨index, hindex⟩ := List.mem_iff_getElem?.mp hfront
  obtain ⟨grown, hgrownIndex, -, hseparator, -⟩ := getElem?_fronts_eq_some hindex
  have hmem := List.mem_of_getElem? hgrownIndex
  obtain ⟨last, hlast, hlisted, -⟩ := hgrown.exists_last hmem
  exact ⟨last, hlisted, hseparator.trans (hgrown.separator grown hmem last hlast)⟩

end FrontForest

/-! ### Forests -/

namespace MinimumDegree

variable {keys : List Key} {adjacency : Adjacency}

/-- Minimum degree takes the variables of a forest without fill. -/
theorem unfilled_of_isForest (hnodup : keys.Nodup) (h : adjacency.IsForest keys)
    {before after : List Key} {key : Key} (hsplit : order keys adjacency = before ++ key :: after) :
    Unfilled adjacency.Linked before (key :: after) ∧ IsEnd adjacency.Linked before (key :: after) key := by
  have hperm := order_perm keys adjacency
  have hlisted : ∀ a b, adjacency.Linked a b → b ∈ order keys adjacency := fun a b hab =>
    hperm.mem_iff.mpr (h.listed a (h.mem_of_linked hab) b hab)
  have hirrefl : ∀ a, ¬ adjacency.Linked a a := fun a haa => h.irrefl a (h.mem_of_linked haa) haa
  have hstart : Unfilled adjacency.Linked [] (order keys adjacency) := fun a _ b =>
    (Adjacency.joined_nil_iff hlisted hirrefl a b).trans
      ⟨fun hab => ⟨hlisted a b hab, hab⟩, fun hab => hab.2⟩
  exact (order_greedy hnodup h.toIsSymmetric).unfilled h.symm_linked h.acyclic
    (hperm.nodup_iff.mpr hnodup) hstart hsplit

/-- **Minimum degree eliminates a forest without fill.**  It takes every variable once, each with at most
    one neighbour left; and those that are left then have the neighbours that they had, less those that
    are gone.  The analysis of a linear problem about the same neighbours, in this order, returns fronts
    whose separators hold one variable at most. -/
theorem forest_without_fill (hnodup : keys.Nodup) (h : adjacency.IsForest keys) :
    (order keys adjacency).Perm keys ∧
    (∀ before key after, order keys adjacency = before ++ key :: after →
      ((before.foldl Adjacency.eliminate adjacency).neighbours key).length ≤ 1 ∧
      ∀ a ∈ key :: after, ∀ b, b ∈ (before.foldl Adjacency.eliminate adjacency).neighbours a ↔
        b ∈ key :: after ∧ b ∈ adjacency.neighbours a) ∧
    ∀ {β : Type} (s : MultifrontalSolver β) (g : LinearGraph β),
      s.order.keys = order keys adjacency → (∀ f ∈ g.factors, ∀ key ∈ f.keys, key ∈ keys) →
      (∀ a b, g.Adjacent a b ↔ b ∈ adjacency.neighbours a) →
      ∃ fronts, (s.symbolic g).result = .ok fronts ∧ ∀ front ∈ fronts, front.separator.length ≤ 1 := by
  have hperm := order_perm keys adjacency
  have horder : (order keys adjacency).Nodup := hperm.nodup_iff.mpr hnodup
  refine ⟨hperm, ?_, ?_⟩
  · intro before key after hsplit
    obtain ⟨hunfilled, hend⟩ := unfilled_of_isForest hnodup h hsplit
    have htracks : Tracks adjacency.Linked before (key :: after)
        (before.foldl Adjacency.eliminate adjacency) :=
      ((tracks_of_isSymmetric h.toIsSymmetric).perm_left (hsplit ▸ hperm.symm)).eliminate_all
        h.symm_linked (hsplit ▸ horder)
    refine ⟨?_, fun a ha b => ?_⟩
    · have hmem : key ∈ key :: after := List.mem_cons_self
      have hdegree := htracks.degree_eq hmem
      rw [isEnd_iff_reach_le, ← hdegree] at hend
      exact hend
    · rw [htracks.records.mem_iff a (htracks.perm.mem_iff.mpr ha)]
      exact hunfilled a ha b
  · intro β s g hkeys hlisted hadjacent
    have hlinked : g.Adjacent = adjacency.Linked := by
      funext a b
      exact propext (hadjacent a b)
    rw [← hkeys] at horder
    obtain ⟨table, -, hforest, hspec⟩ := FrontForest.ofGraph_isSupernodal horder
      fun f hf key hkey => hkeys ▸ hperm.mem_iff.mpr (hlisted f hf key hkey)
    refine ⟨_, by rw [MultifrontalSolver.symbolic, hforest], fun front hfront => ?_⟩
    obtain ⟨last, hlast, hseparator⟩ := FrontForest.exists_separator_eq horder hfront
    obtain ⟨before, after, hsplit⟩ := List.append_of_mem hlast
    have hend := (unfilled_of_isForest hnodup h (hkeys ▸ hsplit)).2
    -- the separator lists what the last variable reaches, without repetitions
    have hjoined : ∀ other ∈ front.separator,
        Adjacency.Joined adjacency.Linked before (last :: after) last other := by
      intro other hother
      rw [hseparator, hspec.separates.mem_iff last hlast,
        FrontForest.fills_iff_joined horder hsplit, hlinked] at hother
      exact hother
    have hdistinct : front.separator.Nodup := hseparator ▸ hspec.separates.nodup last hlast
    rw [← List.toFinset_card_of_nodup hdistinct, Finset.card_le_one]
    intro a ha b hb
    exact hend a b (hjoined a (List.mem_toFinset.mp ha)) (hjoined b (List.mem_toFinset.mp hb))

/-! ### A star -/

namespace Star

/-- A hub, which is listed first, and two leaves. -/
def hubFirst : List Key := [.number 0, .number 1, .number 2]

def table : Adjacency :=
  [(.number 0, [.number 1, .number 2]), (.number 1, [.number 0]), (.number 2, [.number 0])]

/-- A linear problem with a factor for each leaf. -/
def problem : LinearGraph ℕ :=
  ⟨[.dense [(.number 0, ⟨1, []⟩), (.number 1, ⟨1, []⟩)] [],
    .dense [(.number 2, ⟨1, []⟩), (.number 0, ⟨1, []⟩)] []]⟩

theorem table_linked (a b : Key) : table.Linked a b ↔
    a = .number 0 ∧ b = .number 1 ∨ a = .number 0 ∧ b = .number 2 ∨
      a = .number 1 ∧ b = .number 0 ∨ a = .number 2 ∧ b = .number 0 := by
  rw [Adjacency.Linked, Adjacency.neighbours, table]
  simp only [Table.get?_cons]
  split_ifs with h h' h''
  · subst h
    simp
  · subst h'
    simp
  · subst h''
    simp
  · simp [Table.get?, h, h', h'']

theorem table_isForest : table.IsForest hubFirst := by
  refine ⟨⟨.refl _, by decide, by decide, by decide, by decide⟩, ?_⟩
  have hfirst : (⊥ ⊔ SimpleGraph.edge (.number 0 : Key) (.number 1)).IsAcyclic :=
    SimpleGraph.isAcyclic_bot.sup_edge_of_not_reachable fun h => by
      rw [SimpleGraph.reachable_bot] at h
      exact absurd h (by decide)
  have hapart : ¬(⊥ ⊔ SimpleGraph.edge (.number 0 : Key) (.number 1)).Reachable (.number 0) (.number 2) := by
    simp only [reachable_sup_edge, SimpleGraph.reachable_bot]
    decide
  refine (hfirst.sup_edge_of_not_reachable hapart).anti fun a b hab => ?_
  obtain ⟨hne, hab⟩ := (SimpleGraph.fromRel_adj ..).mp hab
  simp only [table_linked] at hab
  simp only [SimpleGraph.sup_adj, SimpleGraph.edge_adj, SimpleGraph.bot_adj]
  tauto

/-- The hub is taken after the first leaf, and leaves no fill; the separators of the fronts hold one variable
    or none. -/
theorem forest_without_fill_star :
    let s : MultifrontalSolver ℕ := ⟨⟨order hubFirst table⟩, [], none, ⟨[], []⟩, [], none⟩
    hubFirst.Nodup ∧ table.IsForest hubFirst ∧ order hubFirst table = [.number 1, .number 0, .number 2] ∧
      ((table.eliminate (.number 1)).neighbours (.number 0)).length ≤ 1 ∧
      ∃ fronts, (s.symbolic problem).result = .ok fronts ∧
        ∀ front ∈ fronts, front.separator.length ≤ 1 := by
  intro s
  have hnodup : hubFirst.Nodup := by decide
  have horder : order hubFirst table = [.number 1, .number 0, .number 2] := by decide
  obtain ⟨-, hrows, hfronts⟩ := forest_without_fill hnodup table_isForest
  refine ⟨hnodup, table_isForest, horder, (hrows [.number 1] _ _ horder).1,
    hfronts s problem rfl (by decide) fun a b => ?_⟩
  rw [← Adjacency.Linked, table_linked]
  simp only [LinearGraph.Adjacent, problem, List.mem_cons, List.not_mem_nil, or_false, exists_eq_or_imp,
    exists_eq_left, LinearFactor.keys, Table.keys, List.map_cons, List.map_nil]
  constructor
  · rintro ⟨hne, ⟨rfl | rfl, rfl | rfl⟩ | ⟨rfl | rfl, rfl | rfl⟩⟩ <;>
      first | exact absurd rfl hne | decide
  · rintro (⟨rfl, rfl⟩ | ⟨rfl, rfl⟩ | ⟨rfl, rfl⟩ | ⟨rfl, rfl⟩) <;> decide

end Star

end MinimumDegree

end LeastSquares
