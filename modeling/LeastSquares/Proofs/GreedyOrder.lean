/-
  LeastSquares/Proofs/GreedyOrder.lean
  ====================================
  **Minimum degree takes a variable that reaches the fewest others.**

  The rows that are left while variables are eliminated are changed in place.  They always hold what is
  reached through the variables that are gone, so their lengths are the numbers of variables left that
  each of them reaches in the original table; and every row that is looked up is there.
-/
import LeastSquares.Proofs.NeighbourTables
import Mathlib.Data.Set.Card

namespace LeastSquares

namespace MinimumDegree

/-! ### One choice -/

/-- The earliest of several variables whose weight is the least. -/
def IsEarliestLeast (weight : Key → ℕ) (keys : List Key) (key : Key) : Prop :=
  ∃ before after, keys = before ++ key :: after ∧ (∀ other ∈ before, weight key < weight other) ∧
    ∀ other ∈ after, weight key ≤ weight other

theorem IsEarliestLeast.mem {weight : Key → ℕ} {keys : List Key} {key : Key}
    (h : IsEarliestLeast weight keys key) : key ∈ keys := by
  obtain ⟨before, after, rfl, -⟩ := h
  simp

/-- One more variable takes the place only when its weight is smaller. -/
theorem IsEarliestLeast.append {weight : Key → ℕ} {keys : List Key} {best : Key}
    (h : IsEarliestLeast weight keys best) (key : Key) :
    IsEarliestLeast weight (keys ++ [key]) (if weight key < weight best then key else best) := by
  obtain ⟨before, after, rfl, hbefore, hafter⟩ := h
  split
  · next hlt =>
    refine ⟨before ++ best :: after, [], rfl, fun other hother => ?_, by simp⟩
    rcases List.mem_append.mp hother with hother | hother
    · exact hlt.trans (hbefore other hother)
    rcases List.mem_cons.mp hother with rfl | hother
    · exact hlt
    · exact hlt.trans_le (hafter other hother)
  · next hge =>
    refine ⟨before, after ++ [key], by simp, hbefore, fun other hother => ?_⟩
    rcases List.mem_append.mp hother with hother | hother
    · exact hafter other hother
    · rw [List.mem_singleton.mp hother]
      exact not_lt.mp hge

/-- **The variable that is taken** is the earliest one with the fewest neighbours. -/
theorem least_isEarliestLeast (adjacency : Adjacency) (first : Key) (others : List Key) :
    IsEarliestLeast adjacency.degree (first :: others) (least adjacency first others) := by
  have hfold : ∀ (others keys : List Key) (best : Key), IsEarliestLeast adjacency.degree keys best →
      IsEarliestLeast adjacency.degree (keys ++ others)
        (others.foldl (fun (best : Key × ℕ) key =>
          let degree := adjacency.degree key
          if degree < best.2 then (key, degree) else best) (best, adjacency.degree best)).1 := by
    intro others
    induction others with
    | nil => exact fun keys best h => by simpa using h
    | cons key others ih =>
      intro keys best h
      have hnext := ih (keys ++ [key]) _ (h.append key)
      rw [List.append_assoc, List.singleton_append] at hnext
      rw [List.foldl_cons]
      split at hnext
      · next hlt => simpa only [if_pos hlt] using hnext
      · next hge => simpa only [if_neg hge] using hnext
  exact hfold others [first] first ⟨[], [], rfl, by simp, by simp⟩

/-! ### Every variable once -/

theorem eliminateAll_perm {count : ℕ} {left : List Key} (hcount : left.length = count)
    (adjacency : Adjacency) : (eliminateAll count left adjacency).Perm left := by
  -- the table changes with each variable that goes, so it is general in the induction
  induction count generalizing left adjacency with
  | zero =>
    rw [List.eq_nil_of_length_eq_zero hcount]
    exact .refl _
  | succ count ih =>
    cases left with
    | nil => cases hcount
    | cons first others =>
      have hmem := (least_isEarliestLeast adjacency first others).mem
      rw [eliminateAll]
      refine ((ih ?_ _).cons _).trans (List.perm_cons_erase hmem).symm
      rw [List.length_erase_of_mem hmem, hcount, Nat.add_sub_cancel]

/-- **Every variable is eliminated once.** -/
theorem order_perm (keys : List Key) (adjacency : Adjacency) : (order keys adjacency).Perm keys :=
  eliminateAll_perm rfl adjacency

/-! ### Greedy sequences -/

variable {adjacent : Key → Key → Prop} {keys gone left sequence : List Key} {key other : Key}

/-- How many of the variables that are left a variable reaches through those that are gone. -/
noncomputable def reach (adjacent : Key → Key → Prop) (gone left : List Key) (key : Key) : ℕ :=
  {other | Adjacency.Joined adjacent gone left key other}.ncard

theorem reach_congr (adjacent : Key → Key → Prop) (gone : List Key) {left left' : List Key}
    (h : ∀ key, key ∈ left ↔ key ∈ left') :
    reach adjacent gone left = reach adjacent gone left' := by
  funext key
  simp only [reach, Adjacency.Joined, h]

/-- One variable goes before another: it reaches fewer of those that are left, or as many and stands
    earlier among all. -/
def GoesFirst (adjacent : Key → Key → Prop) (keys gone left : List Key) (key other : Key) : Prop :=
  reach adjacent gone left key < reach adjacent gone left other ∨
    reach adjacent gone left key = reach adjacent gone left other ∧ keys.idxOf key < keys.idxOf other

/-- A sequence is greedy: each of its variables goes before all that come later. -/
inductive Greedy (adjacent : Key → Key → Prop) (keys : List Key) : List Key → List Key → Prop
  | nil (gone : List Key) : Greedy adjacent keys gone []
  | cons {gone : List Key} {key : Key} {rest : List Key} :
      (∀ other ∈ rest, GoesFirst adjacent keys gone (key :: rest) key other) →
      Greedy adjacent keys (gone ++ [key]) rest → Greedy adjacent keys gone (key :: rest)

theorem Greedy.goesFirst (h : Greedy adjacent keys gone sequence) {before after : List Key}
    (hsplit : sequence = before ++ key :: after) (hother : other ∈ after) :
    GoesFirst adjacent keys (gone ++ before) (key :: after) key other := by
  induction h generalizing before with
  | nil => simp at hsplit
  | @cons gone first rest hfirst _ ih =>
    cases before with
    | nil =>
      obtain ⟨rfl, rfl⟩ := List.cons.inj hsplit
      rw [List.append_nil]
      exact hfirst other hother
    | cons head before =>
      obtain ⟨rfl, hrest⟩ := List.cons.inj hsplit
      have hlater := ih hrest
      rwa [List.append_assoc, List.singleton_append] at hlater

/-- **A greedy sequence of given variables is the only one.** -/
theorem Greedy.unique {others : List Key} (h : Greedy adjacent keys gone sequence)
    (hothers : Greedy adjacent keys gone others) (hperm : sequence.Perm others) : sequence = others := by
  induction h generalizing others with
  | nil => exact (List.nil_perm.mp hperm).symm
  | @cons gone key rest hfirst _ ih =>
    cases hothers with
    | nil => exact List.perm_nil.mp hperm
    | @cons _ key' rest' hfirst' hrest' =>
      by_cases heq : key = key'
      · subst heq
        rw [ih hrest' (List.perm_cons key |>.mp hperm)]
      · -- each of the two heads would go before the other
        have hmem : key' ∈ rest := (List.mem_cons.mp (hperm.mem_iff.mpr List.mem_cons_self)).resolve_left
          (Ne.symm heq)
        have hmem' : key ∈ rest' :=
          (List.mem_cons.mp (hperm.mem_iff.mp List.mem_cons_self)).resolve_left heq
        have hone := hfirst key' hmem
        have hother := hfirst' key hmem'
        rw [GoesFirst, reach_congr _ _ fun _ => hperm.mem_iff] at hone
        rw [GoesFirst] at hother
        omega

/-! ### The rows are what is reached -/

/-- A table has a row for each variable that is left, which holds what it reaches of them through those
    that are gone. -/
structure Tracks (adjacent : Key → Key → Prop) (gone left : List Key) (adjacency : Adjacency) : Prop where
  perm : adjacency.keys.Perm left
  records : adjacency.Records adjacency.keys (Adjacency.Joined adjacent gone left)

namespace Tracks

variable {adjacency : Adjacency}

theorem of_records {rows : List Key} (h : adjacency.Records rows (Adjacency.Joined adjacent gone rows))
    (hperm : rows.Perm left) : Tracks adjacent gone left adjacency := by
  obtain rfl := h.keys_eq
  exact ⟨hperm, h.congr fun a _ b => by simp only [Adjacency.Joined, hperm.mem_iff]⟩

/-- **One variable more**: the rows that are left hold what is reached through it as well. -/
theorem eliminate (h : Tracks adjacent gone left adjacency) (hsymm : ∀ a b, adjacent a b → adjacent b a)
    (hnodup : left.Nodup) (hkey : key ∈ left) :
    Tracks adjacent (gone ++ [key]) (left.erase key) (adjacency.eliminate key) := by
  have hrecords : adjacency.Records adjacency.keys (Adjacency.Joined adjacent gone adjacency.keys) :=
    h.records.congr fun a _ b => by simp only [Adjacency.Joined, h.perm.mem_iff]
  exact .of_records (hrecords.eliminate_joined (h.perm.nodup_iff.mpr hnodup)
    (h.perm.mem_iff.mpr hkey) hsymm) (h.perm.erase key)

/-- The row of a variable is as long as the number of variables that it reaches. -/
theorem degree_eq (h : Tracks adjacent gone left adjacency) (hkey : key ∈ left) :
    adjacency.degree key = reach adjacent gone left key := by
  have hrow := h.perm.mem_iff.mpr hkey
  have hset : {other | Adjacency.Joined adjacent gone left key other} =
      ((adjacency.neighbours key).toFinset : Set Key) := by
    ext other
    rw [Set.mem_ofPred_eq, List.coe_toFinset, Set.mem_ofPred_eq, h.records.mem_iff key hrow]
  rw [reach, hset, Set.ncard_coe_finset, List.toFinset_card_of_nodup (h.records.nodup key hrow)]
  rfl

end Tracks

/-- **Elimination by minimum degree is greedy**, from any table that holds what is reached. -/
theorem eliminateAll_greedy (hsymm : ∀ a b, adjacent a b → adjacent b a) (hnodup : keys.Nodup)
    {count : ℕ} (hcount : left.length = count) (hsublist : left.Sublist keys) {adjacency : Adjacency}
    (h : Tracks adjacent gone left adjacency) :
    Greedy adjacent keys gone (eliminateAll count left adjacency) := by
  induction count generalizing left gone adjacency with
  | zero => exact .nil gone
  | succ count ih =>
    cases left with
    | nil => cases hcount
    | cons first others =>
      have hleft : (first :: others).Nodup := hsublist.nodup hnodup
      have hleast := least_isEarliestLeast adjacency first others
      rw [eliminateAll]
      generalize least adjacency first others = key at hleast
      have hmem := hleast.mem
      have hlength : ((first :: others).erase key).length = count := by
        rw [List.length_erase_of_mem hmem, hcount, Nat.add_sub_cancel]
      have hrest := eliminateAll_perm hlength (adjacency.eliminate key)
      have hall := (hrest.cons key).trans (List.perm_cons_erase hmem).symm
      refine .cons (fun other hother => ?_)
        (ih hlength (List.erase_sublist.trans hsublist) (h.eliminate hsymm hleft hmem))
      obtain ⟨hne, hother⟩ := hleft.mem_erase_iff.mp (hrest.mem_iff.mp hother)
      rw [GoesFirst, reach_congr _ _ fun _ => hall.mem_iff, ← h.degree_eq hmem, ← h.degree_eq hother]
      obtain ⟨before, after, hsplit, hbefore, hafter⟩ := hleast
      rw [hsplit] at hother hsublist
      rcases List.mem_append.mp hother with hother | hother
      · exact .inl (hbefore other hother)
      · -- of as many neighbours, it stands earlier among those left, and so among all
        have hafterMem := (List.mem_cons.mp hother).resolve_left hne
        have hplace := (pairwise_idxOf hnodup).sublist
          ((List.sublist_append_right before _).trans hsublist)
        rcases (hafter other hafterMem).lt_or_eq with hlt | heq
        · exact .inl hlt
        · exact .inr ⟨heq, (List.pairwise_cons.mp hplace).1 other hafterMem⟩

end MinimumDegree

/-! ### Look-ups -/

namespace Table

variable {β : Type}

theorem set_eq_modify {t : Table β} (hnodup : t.keys.Nodup) {key : Key} {b : β}
    (h : t.get? key = some b) (f : β → β) : t.set key (f b) = t.modify key f := by
  induction t with
  | nil => cases h
  | cons row rest ih =>
    obtain ⟨hfresh, hrest⟩ := List.nodup_cons.mp hnodup
    obtain ⟨k, entry⟩ := row
    rw [get?_cons] at h
    by_cases hkey : key = k
    · subst hkey
      rw [if_pos rfl, Option.some.injEq] at h
      have hsame : modify rest key f = rest := by
        refine (List.map_congr_left fun row hrow => if_neg ?_).trans (List.map_id rest)
        exact fun heq => hfresh (List.mem_map.mpr ⟨row, hrow, heq⟩)
      rw [set, if_pos rfl, modify, List.map_cons, if_pos rfl, ← h]
      exact congrArg _ hsame.symm
    · rw [if_neg hkey] at h
      have hne : k ≠ key := Ne.symm hkey
      rw [set, if_neg hne, modify, List.map_cons, if_neg hne]
      exact congrArg _ (ih hrest h)

/-- **Looking up and rewriting several rows, one after another,** is rewriting them all at once. -/
theorem foldlM_set_eq {t : Table β} (hnodup : t.keys.Nodup) {keys : List Key} (hkeys : keys.Nodup)
    (hmem : ∀ key ∈ keys, key ∈ t.keys) (f : Key → β → β) :
    keys.foldlM (fun (t : Table β) key => do
      let entry ← t.find key
      return t.set key (f key entry)) t =
      .ok (t.map fun row => if keys.elem row.1 then (row.1, f row.1 row.2) else row) := by
  induction keys generalizing t with
  | nil => simp [pure, Except.pure]
  | cons key keys ih =>
    obtain ⟨hfresh, hkeys⟩ := List.nodup_cons.mp hkeys
    obtain ⟨entry, hentry⟩ := exists_get?_of_mem_keys (hmem key (by simp))
    have hlater : ∀ k ∈ keys, k ∈ (t.modify key (f key)).keys := fun k hk => by
      rw [keys_modify]
      exact hmem k (List.mem_cons_of_mem _ hk)
    rw [foldlM_ok_cons (c := t.modify key (f key)), ih (by rwa [keys_modify]) hkeys hlater]
    · rw [modify, List.map_map]
      refine congrArg _ (List.map_congr_left fun row _ => ?_)
      simp only [Function.comp_apply, List.elem_eq_mem, decide_eq_true_eq, List.mem_cons]
      by_cases hkey : row.1 = key
      · simp [hkey, hfresh]
      · simp [hkey]
    · simp only [find_eq_ok.mpr hentry, bind, Except.bind, set_eq_modify hnodup hentry]
      rfl

end Table

namespace Adjacency

theorem find_eq {adjacency : Adjacency} {key : Key} (h : key ∈ adjacency.keys) :
    adjacency.find key = .ok (adjacency.neighbours key) := by
  obtain ⟨row, hrow⟩ := Table.exists_get?_of_mem_keys h
  rw [Table.find_eq_ok, neighbours, hrow]
  rfl

/-- Eliminate a variable by looking up its row and then that of each of its neighbours; a row that is
    not there is an error. -/
def eliminateStrictly (adjacency : Adjacency) (key : Key) : Except Error Adjacency := do
  let neighbours ← adjacency.find key
  neighbours.foldlM (fun (rest : Adjacency) other => do
    let row ← rest.find other
    return rest.set other (union (row.filter (· ≠ key)) (neighbours.filter (· ≠ other))))
    (adjacency.erase key)

theorem eliminateStrictly_eq {adjacency : Adjacency} (hnodup : adjacency.keys.Nodup) {key : Key}
    (hkey : key ∈ adjacency.keys) (hneighbours : (adjacency.neighbours key).Nodup)
    (hleft : ∀ other ∈ adjacency.neighbours key, other ∈ adjacency.keys ∧ other ≠ key) :
    adjacency.eliminateStrictly key = .ok (adjacency.eliminate key) := by
  have herase : (adjacency.erase key).keys.Nodup := by
    rw [Table.keys_erase]
    exact hnodup.filter _
  have hmem : ∀ other ∈ adjacency.neighbours key, other ∈ (adjacency.erase key).keys := by
    intro other hother
    rw [Table.keys_erase, List.mem_filter]
    exact ⟨(hleft other hother).1, by simpa using (hleft other hother).2⟩
  simp only [eliminateStrictly, find_eq hkey, bind, Except.bind]
  exact Table.foldlM_set_eq herase hneighbours hmem fun other row =>
    union (row.filter (· ≠ key)) ((adjacency.neighbours key).filter (· ≠ other))

end Adjacency

namespace MinimumDegree

/-- The variable with the fewest neighbours, where the row of every candidate is looked up. -/
def leastStrictly (adjacency : Adjacency) (first : Key) (others : List Key) : Except Error Key := do
  let row ← adjacency.find first
  let best ← others.foldlM (fun (best : Key × ℕ) key => do
    let row ← adjacency.find key
    return if row.length < best.2 then (key, row.length) else best) (first, row.length)
  return best.1

/-- Elimination in which every look-up of a row that is not there, or no longer there, is an error. -/
def eliminateAllStrictly : ℕ → List Key → Adjacency → Except Error (List Key)
  | 0, _, _ => .ok []
  | _, [], _ => .ok []
  | count + 1, first :: others, adjacency => do
    let key ← leastStrictly adjacency first others
    let next ← adjacency.eliminateStrictly key
    let rest ← eliminateAllStrictly count ((first :: others).erase key) next
    return key :: rest

def orderStrictly (keys : List Key) (adjacency : Adjacency) : Except Error (List Key) :=
  eliminateAllStrictly keys.length keys adjacency

variable {adjacent : Key → Key → Prop} {keys gone left : List Key} {key : Key} {adjacency : Adjacency}

theorem leastStrictly_eq {first : Key} {others : List Key}
    (h : ∀ key ∈ first :: others, key ∈ adjacency.keys) :
    leastStrictly adjacency first others = .ok (least adjacency first others) := by
  have hstep : ∀ best : Key × ℕ, ∀ key ∈ others, (do
      let row ← adjacency.find key
      return if row.length < best.2 then (key, row.length) else best : Except Error (Key × ℕ)) =
      .ok (let degree := adjacency.degree key
           if degree < best.2 then (key, degree) else best) := by
    intro best key hkey
    simp only [Adjacency.find_eq (h key (List.mem_cons_of_mem _ hkey)), bind, Except.bind]
    rfl
  have hfold := foldlM_eq_ok_foldl hstep (first, adjacency.degree first)
  exact bind_eq_ok.mpr ⟨_, Adjacency.find_eq (h first (by simp)), bind_eq_ok.mpr ⟨_, hfold, rfl⟩⟩

/-- A row that holds what is reached names rows that are there. -/
theorem Tracks.eliminateStrictly_eq (h : Tracks adjacent gone left adjacency) (hnodup : left.Nodup)
    (hkey : key ∈ left) : adjacency.eliminateStrictly key = .ok (adjacency.eliminate key) := by
  have hrow := h.perm.mem_iff.mpr hkey
  refine Adjacency.eliminateStrictly_eq (h.perm.nodup_iff.mpr hnodup) hrow (h.records.nodup key hrow)
    fun other hother => ?_
  obtain ⟨hleft, hne, -⟩ := (h.records.mem_iff key hrow other).mp hother
  exact ⟨h.perm.mem_iff.mpr hleft, hne.symm⟩

/-- **Every row that is looked up is there**, from any table that holds what is reached. -/
theorem eliminateAllStrictly_eq (hsymm : ∀ a b, adjacent a b → adjacent b a) {count : ℕ}
    (hnodup : left.Nodup) (h : Tracks adjacent gone left adjacency) :
    eliminateAllStrictly count left adjacency = .ok (eliminateAll count left adjacency) := by
  induction count generalizing left gone adjacency with
  | zero => rfl
  | succ count ih =>
    cases left with
    | nil => rfl
    | cons first others =>
      have hleast := leastStrictly_eq fun key hkey => h.perm.mem_iff.mpr hkey
      have hmem := (least_isEarliestLeast adjacency first others).mem
      have hnext := ih (hnodup.erase _) (h.eliminate hsymm hnodup hmem)
      simp only [eliminateAllStrictly, hleast, bind, Except.bind, h.eliminateStrictly_eq hnodup hmem,
        hnext]
      rfl

end MinimumDegree

/-! ### Symmetric tables -/

namespace Adjacency

/-- A table of neighbours of some variables: every one of them has a row, which names others of them
    without repetitions, and is named by those. -/
structure IsSymmetric (adjacency : Adjacency) (keys : List Key) : Prop where
  perm : adjacency.keys.Perm keys
  nodup : ∀ key ∈ keys, (adjacency.neighbours key).Nodup
  listed : ∀ key ∈ keys, ∀ other ∈ adjacency.neighbours key, other ∈ keys
  irrefl : ∀ key ∈ keys, key ∉ adjacency.neighbours key
  symm : ∀ key ∈ keys, ∀ other ∈ adjacency.neighbours key, key ∈ adjacency.neighbours other

/-- One variable is in the row of another. -/
def Linked (adjacency : Adjacency) (key other : Key) : Prop := other ∈ adjacency.neighbours key

variable {adjacency : Adjacency} {keys : List Key} {key other : Key}

theorem IsSymmetric.mem_of_linked (h : adjacency.IsSymmetric keys) (hlinked : adjacency.Linked key other) :
    key ∈ keys := by
  rw [← h.perm.mem_iff]
  by_contra hnot
  rw [Linked, neighbours, Table.get?_eq_none_iff.mpr hnot] at hlinked
  simp at hlinked

theorem IsSymmetric.symm_linked (h : adjacency.IsSymmetric keys) (key other : Key)
    (hlinked : adjacency.Linked key other) : adjacency.Linked other key :=
  h.symm key (h.mem_of_linked hlinked) other hlinked

end Adjacency

namespace MinimumDegree

variable {keys : List Key} {adjacency : Adjacency}

/-- Before anything is eliminated, a symmetric table holds what is reached. -/
theorem tracks_of_isSymmetric (h : adjacency.IsSymmetric keys) :
    Tracks adjacency.Linked [] keys adjacency := by
  have hlisted : ∀ a b, adjacency.Linked a b → b ∈ keys := fun a b hab =>
    h.listed a (h.mem_of_linked hab) b hab
  have hirrefl : ∀ a, ¬ adjacency.Linked a a := fun a haa => h.irrefl a (h.mem_of_linked haa) haa
  exact ⟨h.perm, rfl, fun a ha => h.nodup a (h.perm.mem_iff.mp ha), fun a _ b =>
    (Adjacency.joined_nil_iff hlisted hirrefl a b).symm⟩

/-- Minimum degree orders a symmetric table greedily. -/
theorem order_greedy (hnodup : keys.Nodup) (h : adjacency.IsSymmetric keys) :
    Greedy adjacency.Linked keys [] (order keys adjacency) :=
  eliminateAll_greedy h.symm_linked hnodup rfl (List.Sublist.refl _) (tracks_of_isSymmetric h)

/-- **Minimum degree depends on which variables are neighbours only**, not on how the rows list them. -/
theorem order_congr {adjacency' : Adjacency} (hnodup : keys.Nodup) (h : adjacency.IsSymmetric keys)
    (h' : adjacency'.IsSymmetric keys)
    (hsame : ∀ a ∈ keys, ∀ b, b ∈ adjacency.neighbours a ↔ b ∈ adjacency'.neighbours a) :
    order keys adjacency = order keys adjacency' := by
  have hlinked : adjacency.Linked = adjacency'.Linked := by
    funext a b
    refine propext ⟨fun hab => ?_, fun hab => ?_⟩
    · exact (hsame a (h.mem_of_linked hab) b).mp hab
    · exact (hsame a (h'.mem_of_linked hab) b).mpr hab
  have hgreedy := order_greedy hnodup h'
  rw [← hlinked] at hgreedy
  exact (order_greedy hnodup h).unique hgreedy
    ((order_perm keys adjacency).trans (order_perm keys adjacency').symm)

/-- **Minimum degree takes a variable that reaches the fewest others.**  It orders the variables of a
    symmetric table, each once.  Each comes before all later ones because, of the variables that are left,
    it reaches fewer in the table as it was given, on paths through variables that are gone, or as many
    and is listed earlier.  No row is looked up that is not there, or no longer there. -/
theorem order_takes_least (hnodup : keys.Nodup) (h : adjacency.IsSymmetric keys) :
    (order keys adjacency).Perm keys ∧
    (∀ before key after, order keys adjacency = before ++ key :: after → ∀ other ∈ after,
      reach adjacency.Linked before (key :: after) key < reach adjacency.Linked before (key :: after) other ∨
        reach adjacency.Linked before (key :: after) key =
            reach adjacency.Linked before (key :: after) other ∧
          keys.idxOf key < keys.idxOf other) ∧
    orderStrictly keys adjacency = .ok (order keys adjacency) :=
  ⟨order_perm keys adjacency,
    fun _ _ _ hsplit _ hother => (order_greedy hnodup h).goesFirst hsplit hother,
    eliminateAllStrictly_eq h.symm_linked hnodup (tracks_of_isSymmetric h)⟩

/-- A star whose hub is listed first: the hub is taken once a single neighbour is left, which has as many
    neighbours then and is listed later. -/
theorem order_takes_least_star :
    let keys : List Key := [.number 0, .number 1, .number 2]
    let star : Adjacency := [(.number 0, [.number 1, .number 2]), (.number 1, [.number 0]),
      (.number 2, [.number 0])]
    let reached := reach star.Linked [.number 1] [.number 0, .number 2]
    keys.Nodup ∧ star.IsSymmetric keys ∧ order keys star = [.number 1, .number 0, .number 2] ∧
      (reached (.number 0) < reached (.number 2) ∨ reached (.number 0) = reached (.number 2) ∧
        keys.idxOf (.number 0) < keys.idxOf (.number 2)) ∧
      orderStrictly keys star = .ok [.number 1, .number 0, .number 2] := by
  intro keys star reached
  have hnodup : keys.Nodup := by decide
  have hsymmetric : star.IsSymmetric keys := ⟨.refl _, by decide, by decide, by decide, by decide⟩
  have horder : order keys star = [.number 1, .number 0, .number 2] := by decide
  obtain ⟨-, hfirst, hstrict⟩ := order_takes_least hnodup hsymmetric
  exact ⟨hnodup, hsymmetric, horder, hfirst [.number 1] _ _ horder _ (by simp), horder ▸ hstrict⟩

end MinimumDegree

end LeastSquares
