/-
  LeastSquares/Proofs/Positions.lean
  ==================================
  **The earliest of some variables, and which factor waits for it.**

  A factor waits for the earliest of its variables, and a factor on a separator for the first
  variable of the separator.  The two rules agree, because a separator is sorted by position.
-/
import LeastSquares.Linear.BayesNet
import LeastSquares.Proofs.Separator

namespace LeastSquares

namespace EliminationOrder

/-- The place of a variable in an order. -/
def place (order : EliminationOrder) (key : Key) : ℕ := order.keys.idxOf key

variable {order : EliminationOrder}

theorem find_positions {key : Key} (h : key ∈ order.keys) :
    order.positions.find key = .ok (order.place key) :=
  Table.find_eq_ok.mpr (get?_positions h)

theorem place_inj {key other : Key} (h : key ∈ order.keys) (heq : order.place key = order.place other) :
    key = other :=
  (List.idxOf_inj h).mp heq

theorem mem_before_iff (hnodup : order.keys.Nodup) {before after : List Key} {key : Key}
    (hsplit : before ++ key :: after = order.keys) (other : Key) :
    other ∈ before ↔ order.place other < order.place key := by
  rw [← hsplit] at hnodup
  have hfresh : key ∉ before := fun hmem =>
    (List.nodup_append.mp hnodup).2.2 key hmem key (by simp) rfl
  rw [place, place, ← hsplit, List.idxOf_append_of_notMem hfresh, List.idxOf_cons_self, Nat.add_zero]
  constructor
  · intro hmem
    rw [List.idxOf_append_of_mem hmem]
    exact List.idxOf_lt_length_iff.mpr hmem
  · intro hlt
    by_contra hnot
    rw [List.idxOf_append_of_notMem hnot] at hlt
    omega

theorem mem_after_iff (hnodup : order.keys.Nodup) {before after : List Key} {key : Key}
    (hsplit : before ++ key :: after = order.keys) (other : Key) :
    other ∈ after ↔ other ∈ order.keys ∧ order.place key < order.place other := by
  have hbefore := mem_before_iff hnodup hsplit other
  have hall : other ∈ order.keys ↔ other ∈ before ∨ other = key ∨ other ∈ after := by
    rw [← hsplit, List.mem_append, List.mem_cons]
  constructor
  · intro hmem
    have hlisted : other ∈ order.keys := hall.mpr (.inr (.inr hmem))
    refine ⟨hlisted, lt_of_le_of_ne (not_lt.mp fun hlt => ?_) fun heq => ?_⟩
    · rw [← hsplit] at hnodup
      exact (List.nodup_append.mp hnodup).2.2 other (hbefore.mpr hlt) other
        (List.mem_cons_of_mem _ hmem) rfl
    · rw [← hsplit] at hnodup
      have hkey : key = other := place_inj (by rw [← hsplit]; simp) heq
      exact (List.nodup_cons.mp (List.nodup_append.mp hnodup).2.1).1 (hkey ▸ hmem)
  · rintro ⟨hlisted, hlt⟩
    rcases hall.mp hlisted with hmem | rfl | hmem
    · exact absurd (hbefore.mp hmem) (by omega)
    · exact absurd hlt (lt_irrefl _)
    · exact hmem

end EliminationOrder

variable {order : EliminationOrder}

theorem earliest_eq_ok {keys : List Key} (hne : keys ≠ []) (hlisted : ∀ key ∈ keys, key ∈ order.keys) :
    ∃ key ∈ keys, earliest order.positions keys = .ok key ∧
      ∀ other ∈ keys, order.place key ≤ order.place other := by
  have hfold : ∀ (keys : List Key) (first : Key), (∀ key ∈ keys, key ∈ order.keys) →
      ∃ key ∈ first :: keys, keys.foldlM (fun (best : ℕ × Key) key => do
          let place ← order.positions.find key
          return if place < best.1 then (place, key) else best) (order.place first, first) =
            Except.ok (ε := Error) (order.place key, key) ∧
        ∀ other ∈ first :: keys, order.place key ≤ order.place other := by
    intro keys
    induction keys with
    | nil => exact fun first _ => ⟨first, by simp, rfl, by simp⟩
    | cons second keys ih =>
      intro first hlisted
      have hfind := EliminationOrder.find_positions (hlisted second (by simp))
      have hrest := fun key hkey => hlisted key (List.mem_cons_of_mem _ hkey)
      by_cases hlt : order.place second < order.place first
      · obtain ⟨key, hkey, hkeys, hleast⟩ := ih second hrest
        refine ⟨key, List.mem_cons_of_mem _ hkey, ?_, ?_⟩
        · rw [foldlM_ok_cons (c := (order.place second, second)), hkeys]
          simp only [hfind, bind, Except.bind, if_pos hlt]
          rfl
        · intro other hother
          rcases List.mem_cons.mp hother with rfl | hother
          · exact (hleast second (by simp)).trans hlt.le
          · exact hleast other hother
      · obtain ⟨key, hkey, hkeys, hleast⟩ := ih first hrest
        refine ⟨key, ?_, ?_, ?_⟩
        · rcases List.mem_cons.mp hkey with rfl | hkey
          · simp
          · exact List.mem_cons_of_mem _ (List.mem_cons_of_mem _ hkey)
        · rw [foldlM_ok_cons (c := (order.place first, first)), hkeys]
          simp only [hfind, bind, Except.bind, if_neg hlt]
          rfl
        · intro other hother
          rcases List.mem_cons.mp hother with rfl | hother
          · exact hleast other (by simp)
          rcases List.mem_cons.mp hother with rfl | hother
          · exact (hleast first (by simp)).trans (not_lt.mp hlt)
          · exact hleast other (List.mem_cons_of_mem _ hother)
  cases keys with
  | nil => exact (hne rfl).elim
  | cons first keys =>
    obtain ⟨key, hkey, hkeys, hleast⟩ :=
      hfold keys first fun key hkey => hlisted key (List.mem_cons_of_mem _ hkey)
    refine ⟨key, hkey, ?_, hleast⟩
    simp only [earliest, EliminationOrder.find_positions (hlisted first (by simp)), bind, Except.bind]
    exact bind_eq_ok.mpr ⟨_, hkeys, rfl⟩

theorem Elimination.head_separatorOf {α : Type} [Scalar α] {factors : List (LinearFactor α)}
    {frontals : List Key} {head : Key} {rest : List Key}
    (h : separatorOf factors frontals order.positions = .ok (head :: rest))
    (hlisted : ∀ f ∈ factors, ∀ key ∈ f.keys, key ∈ order.keys) :
    ∀ key ∈ head :: rest, order.place head ≤ order.place key := by
  obtain ⟨-, hmem, hsorted⟩ := separatorOf_eq_ok h
  have hplaced : ∀ key ∈ head :: rest, order.positions.get? key = some (order.place key) := by
    intro key hkey
    obtain ⟨-, f, hf, hkey⟩ := (hmem key).mp hkey
    exact EliminationOrder.get?_positions (hlisted f hf key hkey)
  intro key hkey
  rcases List.mem_cons.mp hkey with rfl | hrest
  · exact le_rfl
  · obtain ⟨i, j, hi, hj, hij⟩ := (List.pairwise_cons.mp hsorted).1 key hrest
    rw [hplaced head (by simp), Option.some.injEq] at hi
    rw [hplaced key hkey, Option.some.injEq] at hj
    omega

/-! ### Waiting factors -/

/-- A factor waits for a variable when this is the earliest of its variables, which are all
    listed. -/
structure Waits {α : Type} (order : EliminationOrder) (key : Key) (f : LinearFactor α) : Prop where
  mem : key ∈ f.keys
  listed : ∀ other ∈ f.keys, other ∈ order.keys
  first : ∀ other ∈ f.keys, order.place key ≤ order.place other

namespace BayesNet

variable {α : Type}

theorem assign_eq_ok {g : LinearGraph α} (hlisted : ∀ f ∈ g.factors, ∀ key ∈ f.keys, key ∈ order.keys) :
    ∃ pending, assign order.positions g = .ok pending ∧
      pending.map Prod.snd = g.factors.filter (fun f => !f.keys.isEmpty) ∧
      ∀ e ∈ pending, Waits order e.1 e.2 := by
  have hstep : ∀ f ∈ g.factors.filter (fun f => !f.keys.isEmpty),
      ∃ e, (do let key ← earliest order.positions f.keys; return (key, f)) =
        Except.ok (ε := Error) e ∧ e.2 = f ∧ Waits order e.1 e.2 := by
    intro f hf
    obtain ⟨hf, hne⟩ := List.mem_filter.mp hf
    obtain ⟨key, hkey, hearliest, hfirst⟩ :=
      earliest_eq_ok (by simpa using hne) (hlisted f hf)
    exact ⟨(key, f), bind_eq_ok.mpr ⟨key, hearliest, rfl⟩, rfl, hkey, hlisted f hf, hfirst⟩
  obtain ⟨pending, hpending, hall⟩ := mapM_exists hstep
  refine ⟨pending, hpending, ?_⟩
  clear hpending hstep
  generalize g.factors.filter (fun f => !f.keys.isEmpty) = factors at hall
  induction hall with
  | nil => simp
  | cons h _ ih =>
    refine ⟨by rw [List.map_cons, h.1, ih.1], fun e he => ?_⟩
    rcases List.mem_cons.mp he with rfl | he
    · exact h.2
    · exact ih.2 e he

variable [Scalar α]

theorem waits_of_mem_waiting {factors : List (LinearFactor α)} {frontals : List Key} {dims : Table ℕ}
    {c : Conditional α} {u : Option (LinearFactor α)}
    (h : Elimination.eliminate factors frontals dims order.positions = .ok (c, u))
    (hlisted : ∀ f ∈ factors, ∀ key ∈ f.keys, key ∈ order.keys) {e : Key × LinearFactor α}
    (he : e ∈ waiting u) : u = some e.2 ∧ e.1 ∈ c.separator ∧ Waits order e.1 e.2 := by
  obtain ⟨-, -, hseparator, hleft⟩ := Elimination.eliminate_keys h
  cases u with
  | none => simp [waiting] at he
  | some f =>
    obtain ⟨hne, hkeys⟩ := hleft f rfl
    obtain ⟨-, hmem, -⟩ := Elimination.separatorOf_eq_ok hseparator
    cases hsep : c.separator with
    | nil => exact (hne hsep).elim
    | cons head rest =>
      have hfirst := Elimination.head_separatorOf (hsep ▸ hseparator) hlisted
      rw [hsep] at hkeys
      rw [waiting, hkeys] at he
      obtain rfl : e = (head, f) := by simpa using he
      refine ⟨rfl, by simp, ⟨hkeys ▸ by simp, ?_, ?_⟩⟩
      · intro other hother
        obtain ⟨-, f', hf', hkey⟩ := (hmem other).mp (hsep ▸ hkeys ▸ hother)
        exact hlisted f' hf' other hkey
      · exact fun other hother => hfirst other (hkeys ▸ hother)

end BayesNet

end LeastSquares
