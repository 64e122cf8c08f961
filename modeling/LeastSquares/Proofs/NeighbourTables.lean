/-
  LeastSquares/Proofs/NeighbourTables.lean
  ========================================
  **Tables of neighbours, and what elimination makes of them.**

  A table records a relation between variables.  Every factor makes its variables neighbours of each
  other, and eliminating a variable does the same for its neighbours; so the rows that are left relate
  two variables exactly when a path through eliminated ones joins them.
-/
import LeastSquares.Order.MinimumDegree
import LeastSquares.Proofs.Paths
import LeastSquares.Proofs.Steps

namespace LeastSquares

namespace Adjacency

/-- The neighbours that a variable has in a table. -/
def neighbours (adjacency : Adjacency) (key : Key) : List Key := (adjacency.get? key).getD []

/-- A table has a row for each of some variables, and the rows are a relation between them. -/
structure Records (adjacency : Adjacency) (keys : List Key) (related : Key → Key → Prop) : Prop where
  keys_eq : adjacency.keys = keys
  nodup : ∀ a ∈ keys, (adjacency.neighbours a).Nodup
  mem_iff : ∀ a ∈ keys, ∀ b, b ∈ adjacency.neighbours a ↔ related a b

variable {adjacency : Adjacency} {keys : List Key} {related : Key → Key → Prop}

theorem Records.congr (h : adjacency.Records keys related) {related' : Key → Key → Prop}
    (hiff : ∀ a ∈ keys, ∀ b, related a b ↔ related' a b) : adjacency.Records keys related' :=
  ⟨h.keys_eq, h.nodup, fun a ha b => (h.mem_iff a ha b).trans (hiff a ha b)⟩

theorem nodup_union {xs : List Key} (ys : List Key) (h : xs.Nodup) : (union xs ys).Nodup :=
  (foldl_distinct ys xs h).1

theorem mem_union {xs : List Key} (ys : List Key) (h : xs.Nodup) (key : Key) :
    key ∈ union xs ys ↔ key ∈ xs ∨ key ∈ ys :=
  (foldl_distinct ys xs h).2 key

/-! ### Building the table -/

theorem records_empty (keys : List Key) :
    Records (keys.map fun key => (key, [])) keys fun _ _ => False := by
  have hrow : ∀ a, neighbours (keys.map fun key => (key, [])) a = [] := by
    intro a
    rw [neighbours]
    induction keys with
    | nil => rfl
    | cons key keys ih =>
      rw [List.map_cons, Table.get?_cons]
      split
      · rfl
      · exact ih
  refine ⟨by rw [Table.keys, List.map_map]; exact List.map_id _, fun a _ => ?_, fun a _ b => ?_⟩
  · rw [hrow]
    exact List.nodup_nil
  · simp [hrow]

theorem neighbours_modify (adjacency : Adjacency) (key other : Key) (f : List Key → List Key)
    (h : key ∈ adjacency.keys) : neighbours (adjacency.modify key f) other =
      if other = key then f (adjacency.neighbours other) else adjacency.neighbours other := by
  rw [neighbours, Table.get?_modify]
  by_cases hkey : other = key
  · obtain ⟨row, hrow⟩ := Table.exists_get?_of_mem_keys h
    rw [if_pos hkey, neighbours, hkey, hrow]
    simp
  · rw [if_neg hkey, neighbours]
    simp [hkey]

theorem Records.connect (h : adjacency.Records keys related) {others : List Key}
    (hothers : ∀ key ∈ others, key ∈ keys) (refusal : Key → Error) :
    ∃ next, adjacency.connect others refusal = .ok next ∧
      Records next keys fun a b => related a b ∨ a ∈ others ∧ b ∈ others ∧ b ≠ a := by
  have hfold : ∀ (rest : List Key), (∀ key ∈ rest, key ∈ keys) → ∀ (adjacency : Adjacency)
      (related : Key → Key → Prop), adjacency.Records keys related →
      ∃ next, rest.foldlM (fun (adjacency : Adjacency) key =>
          if adjacency.contains key then
            .ok (adjacency.modify key (union · (others.filter (· ≠ key))))
          else .error (refusal key)) adjacency = Except.ok next ∧
        Records next keys fun a b => related a b ∨ a ∈ rest ∧ b ∈ others ∧ b ≠ a := by
    intro rest
    induction rest with
    | nil => exact fun _ adjacency related h => ⟨adjacency, rfl, h.congr fun a _ b => by simp⟩
    | cons key rest ih =>
      intro hrest adjacency related h
      have hkey : key ∈ adjacency.keys := h.keys_eq ▸ hrest key (by simp)
      have hnext : Records (adjacency.modify key (union · (others.filter (· ≠ key)))) keys
          fun a b => related a b ∨ a = key ∧ b ∈ others ∧ b ≠ a := by
        refine ⟨(Table.keys_modify _ _ _).trans h.keys_eq, fun a ha => ?_, fun a ha b => ?_⟩
        · rw [neighbours_modify _ _ _ _ hkey]
          split
          · exact nodup_union _ (h.nodup a ha)
          · exact h.nodup a ha
        · rw [neighbours_modify _ _ _ _ hkey]
          split
          · next heq =>
            subst heq
            rw [mem_union _ (h.nodup a ha), h.mem_iff a ha]
            simp
          · next hne => simp [h.mem_iff a ha, hne]
      obtain ⟨next, hfold, hrecords⟩ := ih (fun k hk => hrest k (List.mem_cons_of_mem _ hk)) _ _ hnext
      refine ⟨next, ?_, hrecords.congr fun a _ b => ?_⟩
      · rw [foldlM_ok_cons (c := adjacency.modify key (union · (others.filter (· ≠ key)))), hfold]
        rw [if_pos ((Table.contains_iff _ _).mpr hkey)]
      · rw [List.mem_cons, or_assoc, or_and_right]
  exact hfold others hothers adjacency related h

/-- The first variable without a row is the one that is reported. -/
theorem connect_error {before after : List Key} {key : Key} (hbefore : ∀ k ∈ before, k ∈ adjacency.keys)
    (hkey : key ∉ adjacency.keys) (refusal : Key → Error) :
    adjacency.connect (before ++ key :: after) refusal = .error (refusal key) := by
  have hfold : ∀ (change : Key → List Key → List Key) (before : List Key) (adjacency : Adjacency),
      (∀ k ∈ before, k ∈ adjacency.keys) → key ∉ adjacency.keys →
      (before ++ key :: after).foldlM (fun (adjacency : Adjacency) key =>
        if adjacency.contains key then .ok (adjacency.modify key (change key))
        else .error (refusal key)) adjacency = Except.error (refusal key) := by
    intro change before
    induction before with
    | nil =>
      intro adjacency _ hkey
      have hrow : ¬ adjacency.contains key = true := (Table.contains_iff _ _).not.mpr hkey
      simp only [List.nil_append, List.foldlM_cons, if_neg hrow, bind, Except.bind]
    | cons k before ih =>
      intro adjacency hbefore hkey
      have hrow := (Table.contains_iff _ _).mpr (hbefore k (by simp))
      rw [List.cons_append, foldlM_ok_cons (if_pos hrow), ih]
      · rw [Table.keys_modify]
        exact fun k hk => hbefore k (List.mem_cons_of_mem _ hk)
      · rwa [Table.keys_modify]
  exact hfold (fun k => (union · ((before ++ key :: after).filter (· ≠ k)))) before adjacency hbefore hkey

/-- **Making the variables of every item neighbours** relates those that one of the items is about. -/
theorem Records.connectAll {β : Type} (about : β → List Key) (refusal : β → Key → Error) {items : List β}
    (hlisted : ∀ i ∈ items, ∀ key ∈ about i, key ∈ keys) (h : adjacency.Records keys related) :
    ∃ next : Adjacency, items.foldlM (fun (adjacency : Adjacency) i =>
        adjacency.connect (about i) (refusal i)) adjacency = .ok next ∧
      next.Records keys fun a b => related a b ∨ a ≠ b ∧ ∃ i ∈ items, a ∈ about i ∧ b ∈ about i := by
  induction items generalizing adjacency related with
  | nil => exact ⟨adjacency, rfl, h.congr fun a _ b => by simp⟩
  | cons i items ih =>
    obtain ⟨next, hnext, hrecords⟩ := h.connect (hlisted i (by simp)) (refusal i)
    obtain ⟨last, hlast, hfinal⟩ :=
      ih (fun i hi => hlisted i (List.mem_cons_of_mem _ hi)) hrecords
    refine ⟨last, (by rw [foldlM_ok_cons (c := next), hlast]; exact hnext), hfinal.congr fun a _ b => ?_⟩
    simp only [List.mem_cons, exists_eq_or_imp, ne_eq, eq_comm (a := b)]
    tauto

/-- Variables that have been made neighbours have rows, and the rows stay. -/
theorem mem_of_connect {next : Adjacency} {others : List Key} {refusal : Key → Error}
    (h : adjacency.connect others refusal = .ok next) :
    next.keys = adjacency.keys ∧ ∀ key ∈ others, key ∈ adjacency.keys := by
  have hfold : ∀ (change : Key → List Key → List Key) (rest : List Key) (adjacency : Adjacency),
      rest.foldlM (fun (adjacency : Adjacency) key =>
        if adjacency.contains key then .ok (adjacency.modify key (change key))
        else .error (refusal key)) adjacency = Except.ok next →
      next.keys = adjacency.keys ∧ ∀ key ∈ rest, key ∈ adjacency.keys := by
    intro change rest
    induction rest with
    | nil =>
      rintro adjacency ⟨⟩
      exact ⟨rfl, by simp⟩
    | cons key rest ih =>
      intro adjacency h
      rw [List.foldlM_cons] at h
      obtain ⟨middle, hmiddle, h⟩ := bind_eq_ok.mp h
      split at hmiddle
      · next hcontains =>
        cases hmiddle
        obtain ⟨hkeys, hrest⟩ := ih _ h
        rw [Table.keys_modify] at hkeys hrest
        exact ⟨hkeys, List.forall_mem_cons.mpr ⟨(Table.contains_iff _ _).mp hcontains, hrest⟩⟩
      · cases hmiddle
  exact hfold (fun k => (union · (others.filter (· ≠ k)))) others adjacency h

theorem mem_of_connectAll {β : Type} (about : β → List Key) (refusal : β → Key → Error) {items : List β}
    {next : Adjacency} (h : items.foldlM (fun (adjacency : Adjacency) i =>
      adjacency.connect (about i) (refusal i)) adjacency = .ok next) :
    ∀ i ∈ items, ∀ key ∈ about i, key ∈ adjacency.keys := by
  induction items generalizing adjacency with
  | nil => simp
  | cons i items ih =>
    rw [List.foldlM_cons] at h
    obtain ⟨middle, hmiddle, h⟩ := bind_eq_ok.mp h
    obtain ⟨hkeys, hmem⟩ := mem_of_connect hmiddle
    exact List.forall_mem_cons.mpr ⟨hmem, hkeys ▸ ih h⟩

/-! ### Elimination -/

theorem neighbours_eliminate (adjacency : Adjacency) {key other : Key} (hne : other ≠ key)
    (hother : other ∈ adjacency.keys) : (adjacency.eliminate key).neighbours other =
      if other ∈ adjacency.neighbours key then
        union ((adjacency.neighbours other).filter (· ≠ key))
          ((adjacency.neighbours key).filter (· ≠ other))
      else adjacency.neighbours other := by
  obtain ⟨row, hrow⟩ := Table.exists_get?_of_mem_keys hother
  rw [neighbours, eliminate, Table.get?_map _ _ fun row => by split <;> rfl,
    Table.get?_erase _ hne, hrow]
  simp only [neighbours, hrow, Option.map_some, Option.getD_some, List.elem_eq_mem,
    decide_eq_true_eq]
  split <;> rfl

/-- **One step of elimination**: two variables are related afterwards when they were before, or when
    both were related to the variable that disappears. -/
theorem Records.eliminate {key : Key} (h : adjacency.Records keys related) (hnodup : keys.Nodup)
    (hkey : key ∈ keys) (hsymm : ∀ a ∈ keys, related a key ↔ related key a)
    (hirrefl : ¬ related key key) :
    Records (adjacency.eliminate key) (keys.erase key) fun a b =>
      b ≠ key ∧ (related a b ∨ b ≠ a ∧ related a key ∧ related key b) := by
  have hrow : ∀ a ∈ keys.erase key, a ≠ key ∧ a ∈ keys := fun a ha => hnodup.mem_erase_iff.mp ha
  have hmemKey := h.mem_iff key hkey
  refine ⟨?_, fun a ha => ?_, fun a ha b => ?_⟩
  · have herase : (Table.erase adjacency key).keys = keys.erase key := by
      rw [Table.keys_erase, h.keys_eq, hnodup.erase_eq_filter]
      exact List.filter_congr fun a _ => by simp [bne, beq_eq_decide]
    rw [← herase, Adjacency.eliminate, Table.keys, Table.keys, List.map_map]
    refine List.map_congr_left fun row _ => ?_
    simp only [Function.comp_apply]
    split <;> rfl
  · obtain ⟨hne, ha⟩ := hrow a ha
    have hnodupA := h.nodup a ha
    rw [neighbours_eliminate _ hne (h.keys_eq ▸ ha)]
    split
    · exact nodup_union _ (hnodupA.filter _)
    · exact hnodupA
  · obtain ⟨hne, ha⟩ := hrow a ha
    have hmemA := h.mem_iff a ha
    have hnodupA := (h.nodup a ha).filter (· ≠ key)
    rw [neighbours_eliminate _ hne (h.keys_eq ▸ ha)]
    split
    · next hrelated =>
      have hto : related a key := (hsymm a ha).mpr ((hmemKey a).mp hrelated)
      rw [mem_union _ hnodupA, List.mem_filter, List.mem_filter, hmemA, hmemKey]
      simp only [decide_eq_true_eq]
      constructor
      · rintro (⟨hab, hb⟩ | ⟨hkb, hb⟩)
        · exact ⟨hb, .inl hab⟩
        · exact ⟨fun heq => hirrefl (heq ▸ hkb), .inr ⟨hb, hto, hkb⟩⟩
      · rintro ⟨hb, hab | ⟨hne, -, hkb⟩⟩
        · exact .inl ⟨hab, hb⟩
        · exact .inr ⟨hkb, hne⟩
    · next hunrelated =>
      have hnot : ¬ related a key := fun hto => hunrelated ((hmemKey a).mpr ((hsymm a ha).mp hto))
      rw [hmemA]
      constructor
      · exact fun hab => ⟨fun heq => hnot (heq ▸ hab), .inl hab⟩
      · rintro ⟨-, hab | ⟨-, hto, -⟩⟩
        · exact hab
        · exact (hnot hto).elim

/-! ### Paths through eliminated variables -/

/-- What the rows are once some variables are eliminated: a path through these joins two variables
    that are left. -/
def Joined (adjacent : Key → Key → Prop) (gone left : List Key) (a b : Key) : Prop :=
  b ∈ left ∧ a ≠ b ∧ Through adjacent (· ∈ gone) a b

variable {adjacent : Key → Key → Prop}

/-- Before anything is eliminated, the rows are those of neighbours. -/
theorem joined_nil_iff {left : List Key} (hlisted : ∀ a b, adjacent a b → b ∈ left)
    (hirrefl : ∀ a, ¬ adjacent a a) (a b : Key) : Joined adjacent [] left a b ↔ adjacent a b := by
  constructor
  · rintro ⟨-, -, hpath⟩
    cases hpath with
    | edge hab => exact hab
    | step _ hbetween => simp at hbetween
  · exact fun hab => ⟨hlisted a b hab, fun heq => hirrefl b (heq ▸ hab), .edge hab⟩

/-- **Eliminating one more variable keeps the rows what they are.** -/
theorem Records.eliminate_joined {gone left : List Key} {key : Key} (hnodup : left.Nodup)
    (hkey : key ∈ left) (hsymm : ∀ a b, adjacent a b → adjacent b a)
    (h : adjacency.Records left (Joined adjacent gone left)) :
    (adjacency.eliminate key).Records (left.erase key)
      (Joined adjacent (gone ++ [key]) (left.erase key)) := by
  have hjoined : ∀ a ∈ left, Joined adjacent gone left a key ↔ Joined adjacent gone left key a := by
    intro a ha
    constructor
    · exact fun ⟨_, hne, hpath⟩ => ⟨ha, hne.symm, hpath.symm hsymm⟩
    · exact fun ⟨_, hne, hpath⟩ => ⟨hkey, hne.symm, hpath.symm hsymm⟩
  refine (h.eliminate hnodup hkey hjoined fun hself => hself.2.1 rfl).congr fun a ha b => ?_
  have hmem : (fun k => k ∈ gone ++ [key]) = fun k => k ∈ gone ∨ k = key := by
    funext k
    simp
  have hakey : a ≠ key := (hnodup.mem_erase_iff.mp ha).1
  simp only [Joined, hmem, Through.insert_iff, hnodup.mem_erase_iff]
  constructor
  · rintro ⟨hb, ⟨hleft, hab, hpath⟩ | ⟨hba, ⟨-, -, hto⟩, hleft, -, hfrom⟩⟩
    · exact ⟨⟨hb, hleft⟩, hab, .inl hpath⟩
    · exact ⟨⟨hb, hleft⟩, hba.symm, .inr ⟨hto, hfrom⟩⟩
  · rintro ⟨⟨hb, hleft⟩, hab, hpath⟩
    refine ⟨hb, hpath.imp (fun hpath => ⟨hleft, hab, hpath⟩) ?_⟩
    rintro ⟨hto, hfrom⟩
    exact ⟨hab.symm, ⟨hkey, hakey, hto⟩, hleft, hb.symm, hfrom⟩

end Adjacency

end LeastSquares
