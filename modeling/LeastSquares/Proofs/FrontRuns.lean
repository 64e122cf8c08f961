/-
  LeastSquares/Proofs/FrontRuns.lean
  ==================================
  **Runs over the fronts, with the way of every factor.**

  A factor that waits for a front is about its variables and its separator only.  So what is left of
  a front goes to a later one: its first variable is in the separator, and each variable of the
  separator is in a later front, whether or not other variables of the separator are missing.
-/
import LeastSquares.Proofs.Traversal

namespace LeastSquares

namespace FrontForest

variable {α : Type} {order : EliminationOrder} {g : LinearGraph α} {table : Table (List Key)}
  {forest : FrontForest}

/-! ### Variables and later fronts -/

theorem IsSupernodal.exists_last (h : IsSupernodal order g table forest) {front : Front}
    (hfront : front ∈ forest.fronts) : ∃ last ∈ front.frontals,
      ∀ other, other ∈ separatorIn table last ↔ other ∈ front.separator := by
  obtain ⟨hne, -⟩ := h.ascending front hfront
  refine ⟨front.frontals.getLast hne, List.getLast_mem hne, fun other => ?_⟩
  rw [h.separator_iff front hfront _ _ [] (List.dropLast_concat_getLast hne).symm, List.nil_append]

theorem IsSupernodal.listed (h : IsSupernodal order g table forest) {index : ℕ} {front : Front}
    (hfront : forest.fronts[index]? = some front) {key : Key}
    (hkey : key ∈ front.frontals ++ front.separator) : key ∈ order.keys := by
  have hfrontals : ∀ key ∈ front.frontals, key ∈ order.keys := fun key hkey =>
    (h.covers key).mpr ⟨index, (h.frontOf_iff key index).mpr ⟨front, hfront, hkey⟩⟩
  rcases List.mem_append.mp hkey with hkey | hkey
  · exact hfrontals key hkey
  · obtain ⟨last, hlast, hseparator⟩ := h.exists_last (List.mem_of_getElem? hfront)
    exact h.separates.listed (hfrontals last hlast) ((hseparator key).mpr hkey)

/-- **Every variable of a separator is in a later front.** -/
theorem IsSupernodal.later_front (h : IsSupernodal order g table forest) {index : ℕ} {front : Front}
    (hfront : forest.fronts[index]? = some front) {key : Key} (hkey : key ∈ front.separator) :
    ∃ next, forest.frontOf.get? key = some next ∧ index < next := by
  induction hn : forest.fronts.length - index using Nat.strong_induction_on
    generalizing index front with
  | _ n ih =>
    cases hparent : front.parent with
    | none =>
      rw [(h.parent_eq_none_iff front (List.mem_of_getElem? hfront)).mp hparent] at hkey
      simp at hkey
    | some next =>
      obtain ⟨hlt, parent, -, -, hnext, -, -, -, hcontained⟩ :=
        h.parent_spec index front next hfront hparent
      obtain ⟨hbound, -⟩ := List.getElem?_eq_some_iff.mp hnext
      rcases List.mem_append.mp (hcontained key hkey) with hfrontal | hseparator
      · exact ⟨next, (h.frontOf_iff key next).mpr ⟨parent, hnext, hfrontal⟩, hlt⟩
      · obtain ⟨later, hlater, hgt⟩ :=
          ih (forest.fronts.length - next) (by omega) hnext hseparator rfl
        exact ⟨later, hlater, hlt.trans hgt⟩

theorem IsSupernodal.mem_front (h : IsSupernodal order g table forest) {index : ℕ} {front : Front}
    (hfront : forest.fronts[index]? = some front) {key other : Key} (hkey : key ∈ front.frontals)
    (hother : other = key ∨ other ∈ separatorIn table key) :
    other ∈ front.frontals ++ front.separator := by
  obtain ⟨before, after, hsplit⟩ := List.append_of_mem hkey
  rcases hother with rfl | hother
  · exact List.mem_append_left _ hkey
  · have hmem := (h.separator_iff front (List.mem_of_getElem? hfront) _ _ _ hsplit other).mp hother
    rcases List.mem_append.mp hmem with hafter | hseparator
    · exact List.mem_append_left _ (hsplit ▸ by simp [hafter])
    · exact List.mem_append_right _ hseparator

/-- The variables of a factor of the problem are the earliest of them and what is separated from
    it. -/
theorem IsSupernodal.mem_separator_of_waits (h : IsSupernodal order g table forest)
    {f : LinearFactor α} (hf : f ∈ g.factors) {key : Key} (hwaits : Waits order key f) {other : Key}
    (hother : other ∈ f.keys) : other = key ∨ other ∈ separatorIn table key := by
  by_cases heq : other = key
  · exact .inl heq
  · have hlisted := hwaits.listed other hother
    have hkey := hwaits.listed key hwaits.mem
    refine .inr ((h.separates.mem_iff key hkey other).mpr ⟨hlisted, ?_, .edge ⟨Ne.symm heq, f, hf,
      hwaits.mem, hother⟩⟩)
    exact lt_of_le_of_ne (hwaits.first other hother) fun hplace =>
      heq (EliminationOrder.place_inj hkey hplace).symm

/-! ### One front -/

/-- A factor belongs to a front when it is about its variables and its separator only. -/
def Belongs (forest : FrontForest) (index : ℕ) (f : LinearFactor α) : Prop :=
  ∃ front, forest.fronts[index]? = some front ∧
    ∀ key ∈ f.keys, key ∈ front.frontals ++ front.separator

theorem Belongs.lt_length {index : ℕ} {f : LinearFactor α} (h : Belongs forest index f) :
    index < forest.fronts.length := by
  obtain ⟨front, hfront, -⟩ := h
  exact (List.getElem?_eq_some_iff.mp hfront).1

theorem IsSupernodal.route_eq (h : IsSupernodal order g table forest) {index : ℕ} {key : Key}
    (hindex : forest.frontOf.get? key = some index) :
    BayesTree.route forest.frontOf forest.fronts.length key = .ok index := by
  obtain ⟨front, hfront, -⟩ := (h.frontOf_iff key index).mp hindex
  obtain ⟨hbound, -⟩ := List.getElem?_eq_some_iff.mp hfront
  simp only [BayesTree.route, Table.find_eq_ok.mpr hindex, bind, Except.bind, if_pos hbound]
  rfl

variable [Scalar α]

/-- **One front of the run**: the conditional needs no more than the separator of the front, and
    what is left goes to a later front, to which it belongs. -/
theorem IsSupernodal.eliminate_front (h : IsSupernodal order g table forest) {index : ℕ}
    {front : Front} (hfront : forest.fronts[index]? = some front) {factors : List (LinearFactor α)}
    (hbelongs : ∀ f ∈ factors, ∀ key ∈ f.keys, key ∈ front.frontals ++ front.separator)
    {dims : Table ℕ} {c : Conditional α} {u : Option (LinearFactor α)}
    (heliminate : Elimination.eliminate factors front.frontals dims order.positions = .ok (c, u)) :
    c.frontals = front.frontals ∧ (∀ key ∈ c.separator, key ∈ front.separator) ∧
      (u = none → BayesTree.routeUpdate forest.frontOf forest.fronts.length u = .ok []) ∧
      ∀ f, u = some f → ∃ next,
        BayesTree.routeUpdate forest.frontOf forest.fronts.length u = .ok [(next, f)] ∧
        index < next ∧ Belongs forest next f := by
  obtain ⟨hfrontals, -, hseparator, hleft⟩ := Elimination.eliminate_keys heliminate
  obtain ⟨-, hmem, -⟩ := Elimination.separatorOf_eq_ok hseparator
  have hcontained : ∀ key ∈ c.separator, key ∈ front.separator := by
    intro key hkey
    obtain ⟨hnot, f, hf, hkeyF⟩ := (hmem key).mp hkey
    exact (List.mem_append.mp (hbelongs f hf key hkeyF)).resolve_left hnot
  refine ⟨hfrontals, hcontained, fun hnone => by rw [hnone]; rfl, ?_⟩
  rintro f rfl
  obtain ⟨hne, hkeys⟩ := hleft f rfl
  cases hsep : c.separator with
  | nil => exact (hne hsep).elim
  | cons first rest =>
    have hlisted : ∀ f ∈ factors, ∀ key ∈ f.keys, key ∈ order.keys := fun f hf key hkey =>
      h.listed hfront (hbelongs f hf key hkey)
    have hfirst := Elimination.head_separatorOf (hsep ▸ hseparator) hlisted
    have hmemFirst : first ∈ front.separator := hcontained first (hsep ▸ by simp)
    obtain ⟨next, hnext, hlt⟩ := h.later_front hfront hmemFirst
    obtain ⟨nextFront, hnextFront, hnextKey⟩ := (h.frontOf_iff first next).mp hnext
    rw [hsep] at hkeys
    refine ⟨next, ?_, hlt, nextFront, hnextFront, fun key hkey => ?_⟩
    · have hhead : itemAt f.keys 0 = .ok first := by
        rw [hkeys]
        rfl
      simp only [BayesTree.routeUpdate, hhead, bind, Except.bind, h.route_eq hnext]
      rfl
    · rw [hkeys] at hkey
      refine h.mem_front hnextFront hnextKey ?_
      -- two variables of one separator: the later is in the separator of the earlier
      obtain ⟨last, hlast, hiff⟩ := h.exists_last (List.mem_of_getElem? hfront)
      have hlastListed := h.listed hfront (List.mem_append_left _ hlast)
      have hmemKey : key ∈ front.separator := hcontained key (hsep ▸ hkey)
      rcases (hfirst key hkey).eq_or_lt with heq | hlt
      · have hfirstListed := h.listed hfront (List.mem_append_right _ hmemFirst)
        exact .inl (EliminationOrder.place_inj hfirstListed heq).symm
      · exact .inr (h.separates.clique hlastListed ((hiff first).mpr hmemFirst)
          ((hiff key).mpr hmemKey) hlt)

end FrontForest

/-! ### Runs -/

/-- Where a factor comes from: it is given at a place, or it is left of a front. -/
inductive Origin where
  | given (place : ℕ)
  | left (front : ℕ)
deriving DecidableEq, Repr

/-- A factor that waits for a front. -/
structure Parcel (α : Type) where
  origin : Origin
  front : ℕ
  factor : LinearFactor α

/-- A factor with the front it waits for. -/
def Parcel.waiting {α : Type} (p : Parcel α) : ℕ × LinearFactor α := (p.front, p.factor)

/-- A factor with its origin. -/
def Parcel.tagged {α : Type} (p : Parcel α) : Origin × LinearFactor α := (p.origin, p.factor)

/-- One elimination of a run: the factors it takes, its conditional, and what it leaves. -/
structure Call (α : Type) where
  front : ℕ
  consumed : List (Parcel α)
  conditional : Conditional α
  sent : List (Parcel α)

namespace BayesTree

variable {α : Type}

theorem mine_eq (pending : List (Parcel α)) (index : ℕ) :
    ((pending.map Parcel.waiting).filter fun e => e.1 = index).map (·.2) =
      (pending.filter fun p => p.front = index).map (·.factor) := by
  rw [List.filter_map, List.map_map]
  rfl

/-- Factors with the fronts they wait for are parcels, wherever they come from. -/
theorem exists_parcels (more : List (ℕ × LinearFactor α)) :
    ∃ sent : List (Parcel α), more = sent.map Parcel.waiting := by
  refine ⟨more.map fun e => ⟨.given 0, e.1, e.2⟩, ?_⟩
  rw [List.map_map]
  exact (List.map_id more).symm

theorem routeUpdate_factors {frontOf : Table ℕ} {count : ℕ} {u : Option (LinearFactor α)}
    {more : List (ℕ × LinearFactor α)} (h : routeUpdate frontOf count u = .ok more) :
    more.map (·.2) = u.toList := by
  cases u with
  | none =>
    cases h
    rfl
  | some f =>
    obtain ⟨key, -, h⟩ := bind_eq_ok.mp h
    obtain ⟨index, -, h⟩ := bind_eq_ok.mp h
    cases h
    rfl

variable [Scalar α]

/-- The eliminations of a run over fronts that succeeds: each takes all factors that wait for its
    front, and what it leaves waits as well. -/
inductive Run (dims position frontOf : Table ℕ) (count : ℕ) :
    ℕ → List Front → List (Parcel α) → List (Call α) → Prop
  | nil (index : ℕ) (pending : List (Parcel α)) : Run dims position frontOf count index [] pending []
  | cons {index : ℕ} {front : Front} {fronts : List Front} {pending : List (Parcel α)}
      {call : Call α} {update : Option (LinearFactor α)} {calls : List (Call α)} :
      call.front = index → call.consumed = pending.filter (fun p => p.front = index) →
      Elimination.eliminate (call.consumed.map (·.factor)) front.frontals dims position =
        .ok (call.conditional, update) →
      routeUpdate frontOf count update = .ok (call.sent.map Parcel.waiting) →
      (∀ p ∈ call.sent, p.origin = .left index) →
      Run dims position frontOf count (index + 1) fronts (pending ++ call.sent) calls →
      Run dims position frontOf count index (front :: fronts) pending (call :: calls)

/-- A front at which a run stops: it cannot be eliminated, or what it leaves cannot be sent on. -/
def Stops (dims position frontOf : Table ℕ) (count : ℕ) (factors : List (LinearFactor α))
    (front : Front) (e : Error) : Prop :=
  Elimination.eliminate factors front.frontals dims position = .error e ∨
    ∃ c u, Elimination.eliminate factors front.frontals dims position = .ok (c, u) ∧
      routeUpdate frontOf count u = .error e

/-- **Elimination of fronts is a run**, over all of them or up to one at which it stops. -/
theorem eliminateFronts_cases (dims position frontOf : Table ℕ) (count index : ℕ)
    (fronts : List Front) (pending : List (Parcel α)) :
    ∃ done left calls, done ++ left = fronts ∧
      Run dims position frontOf count index done pending calls ∧
      ((left = [] ∧ eliminateFronts dims position frontOf count index fronts
          (pending.map Parcel.waiting) = (calls.map (·.conditional), none)) ∨
        ∃ front rest found e, left = front :: rest ∧
          eliminateFronts dims position frontOf count index fronts
            (pending.map Parcel.waiting) = (found, some e) ∧
          Stops dims position frontOf count
            (((pending ++ calls.flatMap (·.sent)).filter fun p =>
              p.front = index + calls.length).map (·.factor)) front e) := by
  induction fronts generalizing index pending with
  | nil => exact ⟨[], [], [], rfl, .nil _ _, .inl ⟨rfl, rfl⟩⟩
  | cons front fronts ih =>
    have hhere : (pending ++ ([] : List (Call α)).flatMap (·.sent)).filter
        (fun p => p.front = index + ([] : List (Call α)).length) =
        pending.filter fun p => p.front = index := by simp
    rw [eliminateFronts, mine_eq]
    cases h : Elimination.eliminate ((pending.filter fun p => p.front = index).map (·.factor))
        front.frontals dims position with
    | error e =>
      exact ⟨[], _, [], rfl, .nil _ _, .inr ⟨front, fronts, [], e, rfl, rfl, .inl (hhere ▸ h)⟩⟩
    | ok found =>
      obtain ⟨c, u⟩ := found
      cases hroute : routeUpdate frontOf count u with
      | error e =>
        refine ⟨[], _, [], rfl, .nil _ _, .inr ⟨front, fronts, [c], e, rfl, ?_, .inr ⟨c, u, hhere ▸ h,
          hroute⟩⟩⟩
        simp only [hroute]
      | ok more =>
        let sent := more.map fun e => (⟨.left index, e.1, e.2⟩ : Parcel α)
        have hsent : sent.map Parcel.waiting = more := by
          rw [List.map_map]
          exact List.map_id more
        have horigin : ∀ p ∈ sent, p.origin = .left index := by
          intro p hp
          obtain ⟨e, -, rfl⟩ := List.mem_map.mp hp
          rfl
        obtain ⟨done, left, calls, rfl, hrun, hcases⟩ := ih (index + 1) (pending ++ sent)
        have hstep : Run dims position frontOf count index (front :: done) pending
            (⟨index, pending.filter fun p => p.front = index, c, sent⟩ :: calls) :=
          .cons rfl rfl h (hsent.symm ▸ hroute) horigin hrun
        refine ⟨front :: done, left, _, rfl, hstep, ?_⟩
        simp only [hroute]
        rw [List.map_append, hsent] at hcases
        rcases hcases with ⟨hleft, hfound⟩ | ⟨stop, rest, found, e, hleft, hfound, hstops⟩
        · exact .inl ⟨hleft, by rw [hfound]; rfl⟩
        · refine .inr ⟨stop, rest, c :: found, e, hleft, by rw [hfound], ?_⟩
          have hindex : index + 1 + calls.length = index + (calls.length + 1) := by omega
          rwa [hindex, List.append_assoc] at hstops

end BayesTree

end LeastSquares
