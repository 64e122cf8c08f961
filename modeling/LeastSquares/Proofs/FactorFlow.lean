/-
  LeastSquares/Proofs/FactorFlow.lean
  ===================================
  **Every factor is used once, at a front that is still to come.**

  What is left of a front goes to a later one.  So in a run over all fronts, the factors that are
  taken are those that were given and those that were left, each once; and solving the conditionals
  from the roots down never needs a variable that is not solved yet.
-/
import LeastSquares.Proofs.FrontRuns
import LeastSquares.Proofs.StructureReuse

namespace LeastSquares

open FrontForest

variable {α : Type} {order : EliminationOrder} {g : LinearGraph α} {table : Table (List Key)}
  {forest : FrontForest} {dims : Table ℕ}

/-! ### What is given -/

/-- The factors of a problem that have variables, each with its place. -/
def LinearGraph.given (g : LinearGraph α) : List (Origin × LinearFactor α) :=
  (g.factors.zipIdx.filter fun entry => !entry.1.keys.isEmpty).map fun entry =>
    (.given entry.2, entry.1)

theorem LinearGraph.map_given (g : LinearGraph α) :
    g.given.map (·.2) = g.factors.filter fun f => !f.keys.isEmpty := by
  have hfilter := List.filter_map (f := Prod.fst (α := LinearFactor α) (β := ℕ))
    (p := fun f => !f.keys.isEmpty) (l := g.factors.zipIdx)
  rw [List.zipIdx_map_fst] at hfilter
  rw [hfilter, given, List.map_map]
  rfl

theorem LinearGraph.nodup_given (g : LinearGraph α) : (g.given.map (·.1)).Nodup := by
  have hplaces := nodup_indices_filter g.factors fun f => !f.keys.isEmpty
  have hinjective : Function.Injective Origin.given := fun a b h => by cases h; rfl
  have hmap : g.given.map (·.1) = ((g.factors.zipIdx.filter fun entry =>
      !entry.1.keys.isEmpty).map (·.2)).map Origin.given := by
    rw [given, List.map_map, List.map_map]
    rfl
  rw [hmap]
  exact hplaces.map hinjective

/-- **Every factor with variables is given to a front to which it belongs.** -/
theorem BayesTree.assign_eq_ok (h : IsSupernodal order g table forest)
    (hlisted : ∀ f ∈ g.factors, ∀ key ∈ f.keys, key ∈ order.keys) : ∃ pending : List (Parcel α),
      BayesTree.assign order.positions forest.frontOf forest.fronts.length g =
        .ok (pending.map Parcel.waiting) ∧
      pending.map Parcel.tagged = g.given ∧
      ∀ p ∈ pending, Belongs forest p.front p.factor := by
  have hstep : ∀ e ∈ g.given, ∃ w, (do
      let key ← earliest order.positions e.2.keys
      let index ← route forest.frontOf forest.fronts.length key
      return (index, e.2)) = Except.ok (ε := Error) w ∧ ∃ p : Parcel α, p.tagged = e ∧
        p.waiting = w ∧ Belongs forest p.front p.factor := by
    intro e he
    have hmem : e.2 ∈ g.factors.filter fun f => !f.keys.isEmpty :=
      g.map_given ▸ List.mem_map_of_mem he
    obtain ⟨hf, hne⟩ := List.mem_filter.mp hmem
    obtain ⟨key, hkey, hearliest, hfirst⟩ := earliest_eq_ok (by simpa using hne) (hlisted e.2 hf)
    obtain ⟨index, hindex⟩ := (h.covers key).mp (hlisted e.2 hf key hkey)
    obtain ⟨front, hfront, hfrontal⟩ := (h.frontOf_iff key index).mp hindex
    refine ⟨(index, e.2), ?_, ⟨e.1, index, e.2⟩, rfl, rfl, front, hfront, fun other hother => ?_⟩
    · simp only [hearliest, h.route_eq hindex, bind, Except.bind]
      rfl
    · exact h.mem_front hfront hfrontal
        (h.mem_separator_of_waits hf ⟨hkey, hlisted e.2 hf, hfirst⟩ hother)
  obtain ⟨routed, hrouted, hall⟩ := mapM_exists hstep
  obtain ⟨pending, htagged, hwaiting, hbelongs⟩ := exists_map_of_forall₂ hall
  refine ⟨pending, ?_, htagged, hbelongs⟩
  rw [assign, ← g.map_given, List.mapM_map, hwaiting]
  exact hrouted

/-! ### The flow of a run -/

theorem filter_parcels_perm (parcels : List (Parcel α)) (index count : ℕ) :
    (parcels.filter fun p => index ≤ p.front ∧ p.front < index + (count + 1)).Perm
      (parcels.filter (fun p => p.front = index) ++
        parcels.filter fun p => index + 1 ≤ p.front ∧ p.front < index + 1 + count) := by
  have hsplit := List.filter_append_perm (fun p : Parcel α => decide (p.front = index))
    (parcels.filter fun p => index ≤ p.front ∧ p.front < index + (count + 1))
  rw [List.filter_filter, List.filter_filter] at hsplit
  refine hsplit.symm.trans (.of_eq ?_)
  congr 1
  · refine List.filter_congr fun p _ => ?_
    rw [← Bool.decide_and, decide_eq_decide]
    omega
  · refine List.filter_congr fun p _ => ?_
    rw [← decide_not, ← Bool.decide_and, decide_eq_decide]
    omega

/-- The factors that wait for a front are about its variables and its separator. -/
theorem FrontForest.keys_of_belongs {index : ℕ} {front : Front}
    (hfront : forest.fronts[index]? = some front) {pending : List (Parcel α)}
    (hbelongs : ∀ p ∈ pending, Belongs forest p.front p.factor) :
    ∀ f ∈ (pending.filter fun p => p.front = index).map (·.factor), ∀ key ∈ f.keys,
      key ∈ front.frontals ++ front.separator := by
  refine List.forall_mem_map.mpr fun p hp => ?_
  obtain ⟨hp, hindex⟩ := List.mem_filter.mp hp
  obtain ⟨front', hfront', hkeys⟩ := hbelongs p hp
  rw [of_decide_eq_true hindex, hfront, Option.some.injEq] at hfront'
  exact hfront' ▸ hkeys

variable [Scalar α]

/-- What an elimination of a front leaves goes to a later front, to which it belongs. -/
theorem FrontForest.IsSupernodal.sent_later (h : IsSupernodal order g table forest) {index : ℕ}
    {front : Front} (hfront : forest.fronts[index]? = some front) {factors : List (LinearFactor α)}
    (hmine : ∀ f ∈ factors, ∀ key ∈ f.keys, key ∈ front.frontals ++ front.separator)
    {c : Conditional α} {u : Option (LinearFactor α)}
    (heliminate : Elimination.eliminate factors front.frontals dims order.positions = .ok (c, u))
    {sent : List (Parcel α)} (hroute : BayesTree.routeUpdate forest.frontOf forest.fronts.length u =
      .ok (sent.map Parcel.waiting)) :
    ∀ p ∈ sent, index < p.front ∧ Belongs forest p.front p.factor := by
  intro p hp
  obtain ⟨-, -, hnone, hsome⟩ := h.eliminate_front hfront hmine heliminate
  have hmem : p.waiting ∈ sent.map Parcel.waiting := List.mem_map_of_mem hp
  cases u with
  | none =>
    rw [hnone rfl, Except.ok.injEq] at hroute
    simp [← hroute] at hmem
  | some f =>
    obtain ⟨next, hnext, hlt, hbelongs⟩ := hsome f rfl
    rw [hnext, Except.ok.injEq] at hroute
    rw [← hroute, List.mem_singleton] at hmem
    obtain ⟨rfl, rfl⟩ := Prod.ext_iff.mp hmem
    exact ⟨hlt, hbelongs⟩

/-- An elimination is that of its front: it takes what waits for the front, its conditional needs no
    more than the separator of the front, and what it leaves waits for a later one. -/
structure Call.Sound (fronts : List Front) (dims position : Table ℕ) (call : Call α)
    (front : Front) : Prop where
  front_eq : fronts[call.front]? = some front
  eliminated : ∃ update, Elimination.eliminate (call.consumed.map (·.factor)) front.frontals dims
    position = .ok (call.conditional, update) ∧ call.sent.map (·.factor) = update.toList
  frontals_eq : call.conditional.frontals = front.frontals
  separator_subset : ∀ key ∈ call.conditional.separator, key ∈ front.separator
  consumed_here : ∀ p ∈ call.consumed, p.front = call.front
  sent_later : ∀ p ∈ call.sent, p.origin = .left call.front ∧ call.front < p.front

namespace BayesTree

section

variable {position frontOf : Table ℕ} {count index : ℕ} {fronts : List Front}
  {pending : List (Parcel α)} {calls : List (Call α)}

theorem Run.map_front (h : Run dims position frontOf count index fronts pending calls) :
    calls.map (·.front) = List.range' index fronts.length := by
  induction h with
  | nil => rfl
  | cons hcall _ _ _ _ _ ih => rw [List.map_cons, hcall, ih, List.length_cons, List.range'_succ]

theorem Run.length_calls (h : Run dims position frontOf count index fronts pending calls) :
    calls.length = fronts.length := by
  rw [← List.length_map (f := (·.front)), h.map_front, List.length_range']

/-- **What is taken in a run is what was given and what was left**, as far as it waits for one of
    the fronts of the run. -/
theorem Run.consumed_perm (h : Run dims position frontOf count index fronts pending calls)
    (hlater : ∀ call ∈ calls, ∀ p ∈ call.sent, call.front < p.front) :
    (calls.flatMap (·.consumed)).Perm ((pending ++ calls.flatMap (·.sent)).filter fun p =>
      index ≤ p.front ∧ p.front < index + fronts.length) := by
  induction h with
  | nil index pending =>
    have hnone : ∀ p ∈ pending, ¬ (decide (index ≤ p.front ∧ p.front < index + 0)) = true := by
      intro p _
      rw [decide_eq_true_eq]
      omega
    rw [List.flatMap_nil, List.flatMap_nil, List.append_nil, List.length_nil,
      List.filter_eq_nil_iff.mpr hnone]
  | @cons index front fronts pending call update calls hcall hconsumed _ _ _ hrest ih =>
    have hrestLater := ih fun c hc => hlater c (List.mem_cons_of_mem _ hc)
    -- all that is left from now on waits for later fronts than this one
    have hnone : ∀ p ∈ call.sent ++ calls.flatMap (·.sent), ¬ decide (p.front = index) = true := by
      intro p hp
      rw [decide_eq_true_eq]
      rcases List.mem_append.mp hp with hp | hp
      · have := hlater call (by simp) p hp
        omega
      · obtain ⟨c, hc, hp⟩ := List.mem_flatMap.mp hp
        have hindex : c.front ∈ List.range' (index + 1) fronts.length :=
          hrest.map_front ▸ List.mem_map_of_mem hc
        have := hlater c (List.mem_cons_of_mem _ hc) p hp
        have := (List.mem_range'_1.mp hindex).1
        omega
    have hmine : (pending ++ (call.sent ++ calls.flatMap (·.sent))).filter
        (fun p => decide (p.front = index)) = call.consumed := by
      rw [List.filter_append, List.filter_eq_nil_iff.mpr hnone, List.append_nil, hconsumed]
    rw [List.flatMap_cons, List.flatMap_cons, List.length_cons]
    refine .trans ?_ (filter_parcels_perm _ index fronts.length).symm
    rw [hmine, ← List.append_assoc pending]
    exact hrestLater.append_left _

end

/-- **A run keeps every factor where it belongs**, and each of its eliminations is that of its
    front. -/
theorem Run.sound (h : IsSupernodal order g table forest) {index : ℕ} {fronts : List Front}
    {pending : List (Parcel α)} {calls : List (Call α)}
    (hrun : Run dims order.positions forest.frontOf forest.fronts.length index fronts pending calls)
    (hfronts : fronts <+: forest.fronts.drop index)
    (hpending : ∀ p ∈ pending, Belongs forest p.front p.factor) :
    (∀ p ∈ pending ++ calls.flatMap (·.sent), Belongs forest p.front p.factor) ∧
      ∀ call ∈ calls, ∃ front, call.Sound forest.fronts dims order.positions front := by
  induction hrun with
  | nil => exact ⟨by simpa using hpending, by simp⟩
  | @cons index front fronts pending call update calls hcall hconsumed heliminate hroute horigin _
      ih =>
    have hfront : forest.fronts[index]? = some front := by
      obtain ⟨rest, hrest⟩ := hfronts
      have hhead := congrArg (·[0]?) hrest
      simpa using hhead.symm
    have hrest : fronts <+: forest.fronts.drop (index + 1) := by
      simpa using hfronts.drop 1
    have hmine := keys_of_belongs hfront hpending
    rw [← hconsumed] at hmine
    obtain ⟨hfrontals, hseparator, -⟩ := h.eliminate_front hfront hmine heliminate
    have hsent := h.sent_later hfront hmine heliminate hroute
    obtain ⟨hall, hsound⟩ := ih hrest fun p hp => (List.mem_append.mp hp).elim (hpending p)
      fun hp => (hsent p hp).2
    refine ⟨by rwa [List.flatMap_cons, ← List.append_assoc], fun c hc => ?_⟩
    rcases List.mem_cons.mp hc with rfl | hc
    · refine ⟨front, hcall ▸ hfront, ⟨update, heliminate, ?_⟩, hfrontals, hseparator, ?_, ?_⟩
      · rw [← routeUpdate_factors hroute, List.map_map]
        rfl
      · intro p hp
        rw [hconsumed] at hp
        rw [hcall]
        exact of_decide_eq_true (List.mem_filter.mp hp).2
      · exact fun p hp => hcall.symm ▸ ⟨horigin p hp, (hsent p hp).1⟩
    · exact hsound c hc

/-- **In a run over all fronts, what is taken is what was given and what was left.** -/
theorem Run.consumed_perm_all (h : IsSupernodal order g table forest) {pending : List (Parcel α)}
    {calls : List (Call α)} (hrun : Run dims order.positions forest.frontOf forest.fronts.length 0
      forest.fronts pending calls) (hpending : ∀ p ∈ pending, Belongs forest p.front p.factor) :
    (calls.flatMap (·.consumed)).Perm (pending ++ calls.flatMap (·.sent)) := by
  obtain ⟨hbelongs, hsound⟩ := hrun.sound h (List.prefix_refl _) hpending
  have hperm := hrun.consumed_perm fun call hcall p hp => by
    obtain ⟨front, hcall⟩ := hsound call hcall
    exact (hcall.sent_later p hp).2
  rw [List.filter_eq_self.mpr] at hperm
  · exact hperm
  · intro p hp
    have := (hbelongs p hp).lt_length
    simpa using this

theorem Run.sublist_origins {position frontOf : Table ℕ} {count index : ℕ} {fronts : List Front}
    {pending : List (Parcel α)} {calls : List (Call α)}
    (hrun : Run dims position frontOf count index fronts pending calls) :
    ((calls.flatMap (·.sent)).map (·.origin)).Sublist
      ((List.range' index fronts.length).map .left) := by
  induction hrun with
  | nil => simp
  | @cons index front fronts pending call update calls _ _ _ hroute horigin _ ih =>
    rw [List.flatMap_cons, List.map_append, List.length_cons, List.range'_succ, List.map_cons]
    have hfactors := routeUpdate_factors hroute
    rw [List.map_map] at hfactors
    cases hsent : call.sent with
    | nil => exact ih.cons _
    | cons p rest =>
      have hlength : rest = [] := by
        have := congrArg List.length hfactors
        rw [List.length_map, hsent, List.length_cons] at this
        cases update with
        | none => simp at this
        | some f => simpa using this
      rw [hlength, List.map_singleton, horigin p (hsent ▸ by simp), List.singleton_append]
      exact ih.cons_cons _

theorem Run.conform (h : IsSupernodal order g table forest) {pending : List (Parcel α)}
    {calls : List (Call α)} (hrun : Run dims order.positions forest.frontOf forest.fronts.length 0
      forest.fronts pending calls) (hpending : ∀ p ∈ pending, Belongs forest p.front p.factor) :
    Conform forest.fronts (calls.map (·.conditional)) := by
  obtain ⟨-, hsound⟩ := hrun.sound h (List.prefix_refl _) hpending
  intro index front hfront
  obtain ⟨hbound, -⟩ := List.getElem?_eq_some_iff.mp hfront
  have hindex : (calls.map (·.front))[index]? = some index := by
    rw [hrun.map_front, List.getElem?_range' hbound, Nat.zero_add, Nat.one_mul]
  rw [List.getElem?_map] at hindex
  obtain ⟨call, hcall, hcallFront⟩ := Option.map_eq_some_iff.mp hindex
  obtain ⟨front', hfront', -, hfrontals, hseparator, -⟩ := hsound call (List.mem_of_getElem? hcall)
  rw [hcallFront, hfront, Option.some.injEq] at hfront'
  subst hfront'
  exact ⟨call.conditional, by rw [List.getElem?_map, hcall]; rfl, hfrontals, hseparator⟩

end BayesTree

end LeastSquares
