/-
  LeastSquares/Proofs/Pieces.lean
  ===============================
  **Steps that are written piece by piece, and listed in order.**

  Solving a conditional cuts a vector into one piece for each eliminated variable and writes the
  pieces behind what a step holds already; nothing that was there is touched.
-/
import LeastSquares.Linear.Elimination
import LeastSquares.Proofs.Columns

namespace LeastSquares

namespace Delta

variable {α : Type}

/-- Consecutive pieces of a vector, one for each variable. -/
def pieces (dims : Table ℕ) : List Key → Vec α → Table (Vec α)
  | [], _ => []
  | key :: keys, xs => (key, xs.take (dims.dimOf key)) :: pieces dims keys (xs.drop (dims.dimOf key))

variable {dims : Table ℕ}

@[simp] theorem keys_pieces (keys : List Key) (xs : Vec α) : (pieces dims keys xs).keys = keys := by
  induction keys generalizing xs with
  | nil => rfl
  | cons key keys ih =>
    rw [pieces, Table.keys, List.map_cons]
    exact congrArg _ (ih _)

theorem get?_pieces {keys : List Key} {key : Key} (h : key ∈ keys) (xs : Vec α) :
    (pieces dims keys xs).get? key =
      some ((xs.drop (dims.columnOf keys key)).take (dims.dimOf key)) := by
  induction keys generalizing xs with
  | nil => simp at h
  | cons first keys ih =>
    rw [pieces, Table.get?_cons, Table.columnOf]
    by_cases hkey : key = first
    · subst hkey
      simp
    · rw [if_neg hkey, if_neg hkey, ih ((List.mem_cons.mp h).resolve_left hkey), List.drop_drop]

/-- No piece is cut short when the vector has the right length. -/
theorem length_piece {keys : List Key} {key : Key} (hkey : key ∈ keys) {xs : Vec α}
    (hlength : xs.length = dims.widthOf keys) :
    ((xs.drop (dims.columnOf keys key)).take (dims.dimOf key)).length = dims.dimOf key := by
  have hroom := Table.columnOf_add_dimOf_le dims hkey
  rw [List.length_take, List.length_drop]
  omega

/-- Put one after another, the pieces of a vector are the vector. -/
theorem vector_pieces {keys : List Key} {xs : Vec α} (hlength : xs.length = dims.widthOf keys) :
    vector ⟨pieces dims keys xs⟩ = xs := by
  induction keys generalizing xs with
  | nil => exact (List.eq_nil_of_length_eq_zero hlength).symm
  | cons key keys ih =>
    have hrest : (xs.drop (dims.dimOf key)).length = dims.widthOf keys := by
      rw [List.length_drop, hlength, Table.widthOf_cons, Nat.add_sub_cancel_left]
    have hcons : vector ⟨pieces dims (key :: keys) xs⟩ =
        xs.take (dims.dimOf key) ++ vector ⟨pieces dims keys (xs.drop (dims.dimOf key))⟩ := rfl
    rw [hcons, ih hrest, List.take_append_drop]

/-- A step whose blocks have the sizes of their variables lists the pieces of its own vector. -/
theorem eq_pieces {d : Delta α} (hsizes : ∀ row ∈ d.blocks, row.2.length = dims.dimOf row.1) :
    d = ⟨pieces dims d.keys d.vector⟩ ∧ d.vector.length = dims.widthOf d.keys := by
  obtain ⟨blocks⟩ := d
  induction blocks with
  | nil => exact ⟨rfl, rfl⟩
  | cons row blocks ih =>
    obtain ⟨hrow, hsizes⟩ := List.forall_mem_cons.mp hsizes
    obtain ⟨hblocks, hlength⟩ := ih hsizes
    have hkeys : keys ⟨row :: blocks⟩ = row.1 :: keys ⟨blocks⟩ := rfl
    have hvector : vector ⟨row :: blocks⟩ = row.2 ++ vector ⟨blocks⟩ := rfl
    have hrest : pieces dims (keys ⟨blocks⟩) (vector ⟨blocks⟩) = blocks :=
      (congrArg Delta.blocks hblocks).symm
    constructor
    · rw [hkeys, hvector, pieces, ← hrow, List.take_left, List.drop_left, hrest]
    · rw [hkeys, hvector, List.length_append, hlength, hrow, Table.widthOf_cons]

theorem get?_append (t s : Table (Vec α)) (key : Key) :
    Table.get? (t ++ s) key = (t.get? key).or (s.get? key) := List.lookup_append

theorem writeBlocks_eq {keys : List Key} (hsized : ∀ key ∈ keys, ∃ n, dims.get? key = some n)
    (hnodup : keys.Nodup) (xs : Vec α) (d : Delta α) (hnew : ∀ key ∈ keys, key ∉ d.keys) :
    Conditional.writeBlocks dims keys xs d = .ok ⟨d.blocks ++ pieces dims keys xs⟩ := by
  induction keys generalizing xs d with
  | nil => simp [Conditional.writeBlocks, pieces]
  | cons first keys ih =>
    obtain ⟨hfirst, hnodup⟩ := List.nodup_cons.mp hnodup
    obtain ⟨n, hn⟩ := hsized first (by simp)
    have hwrite : d.write first (xs.take n) = ⟨d.blocks ++ [(first, xs.take n)]⟩ :=
      congrArg Delta.mk (Table.set_of_not_mem (hnew first (by simp)) _)
    have hnew' : ∀ key ∈ keys, key ∉ Delta.keys ⟨d.blocks ++ [(first, xs.take n)]⟩ := by
      intro key hkey hmem
      simp only [Delta.keys, Table.keys, List.map_append, List.map_cons, List.map_nil,
        List.mem_append, List.mem_singleton] at hmem
      rcases hmem with hmem | rfl
      · exact hnew key (List.mem_cons_of_mem _ hkey) hmem
      · exact hfirst hkey
    have hrest := ih (fun key hkey => hsized key (List.mem_cons_of_mem _ hkey)) hnodup (xs.drop n)
      ⟨d.blocks ++ [(first, xs.take n)]⟩ hnew'
    simp only [Conditional.writeBlocks, Table.find_eq_ok.mpr hn, bind, Except.bind, hwrite, hrest,
      pieces, Table.dimOf_eq hn, List.append_assoc, List.singleton_append]

theorem get?_append_pieces {d : Delta α} {keys : List Key} (hnew : ∀ key ∈ keys, key ∉ d.keys)
    (xs : Vec α) (key : Key) :
    (d.blocks ++ pieces dims keys xs).get? key =
      if key ∈ keys then some ((xs.drop (dims.columnOf keys key)).take (dims.dimOf key))
      else d.blocks.get? key := by
  rw [get?_append]
  split
  · next hkey =>
    have hnone : d.blocks.get? key = none := Table.get?_eq_none_iff.mpr (hnew key hkey)
    rw [hnone, get?_pieces hkey, Option.none_or]
  · next hkey =>
    have hnone : (pieces dims keys xs).get? key = none :=
      Table.get?_eq_none_iff.mpr (by rwa [keys_pieces])
    rw [hnone, Option.or_none]

/-! ### Listing in order -/

/-- The blocks of some variables, in their order. -/
def restricted (d : Delta α) (keys : List Key) : Delta α :=
  ⟨keys.map fun key => (key, (d.blocks.get? key).getD [])⟩

@[simp] theorem keys_restricted (d : Delta α) (keys : List Key) : (d.restricted keys).keys = keys := by
  rw [restricted, Delta.keys, Table.keys, List.map_map]
  exact List.map_id keys

theorem get?_restricted (d : Delta α) {keys : List Key} {key : Key} (hkey : key ∈ keys) :
    (d.restricted keys).blocks.get? key = some ((d.blocks.get? key).getD []) := by
  induction keys with
  | nil => cases hkey
  | cons first keys ih =>
    rw [restricted, List.map_cons, Table.get?_cons]
    by_cases hfirst : key = first
    · rw [if_pos hfirst, hfirst]
    · rw [if_neg hfirst]
      exact ih ((List.mem_cons.mp hkey).resolve_left hfirst)

theorem vector_restricted (d : Delta α) (keys : List Key) :
    (d.restricted keys).vector = (keys.map fun key => (d.blocks.get? key).getD []).flatten := by
  rw [vector, restricted, List.map_map]
  rfl

theorem restricted_self {d : Delta α} (hnodup : d.keys.Nodup) : d.restricted d.keys = d := by
  obtain ⟨blocks⟩ := d
  have hrow : ∀ row ∈ blocks, (row.1, (Table.get? blocks row.1).getD []) = row := by
    intro row hrow
    rw [Table.get?_of_mem hnodup hrow, Option.getD_some]
  rw [restricted, Delta.keys, Table.keys, List.map_map, mk.injEq]
  exact (List.map_congr_left hrow).trans (List.map_id blocks)

section

variable {d : Delta α} {keys : List Key} (hkeys : ∀ key ∈ keys, key ∈ d.keys)

include hkeys

theorem get_eq_ok {key : Key} (hkey : key ∈ keys) : d.get key = .ok ((d.blocks.get? key).getD []) := by
  obtain ⟨block, hblock⟩ := Table.exists_get?_of_mem_keys (hkeys key hkey)
  rw [get, Table.find_eq_ok.mpr hblock, hblock, Option.getD_some]

theorem get_restricted {key : Key} (hkey : key ∈ keys) : (d.restricted keys).get key = d.get key := by
  rw [get_eq_ok hkeys hkey, get, Table.find_eq_ok, get?_restricted d hkey]

theorem vectorOf_eq : d.vectorOf keys = .ok (d.restricted keys).vector := by
  rw [vectorOf, mapM_eq_ok_map fun key hkey => get_eq_ok hkeys hkey, vector_restricted]
  rfl

end

theorem ordered_eq_ok {d : Delta α} {keys : List Key} (hnodup : keys.Nodup)
    (hkeys : ∀ key ∈ keys, key ∈ d.keys) :
    ∃ d', d.ordered keys = .ok d' ∧ d'.keys = keys ∧
      ∀ key ∈ keys, d'.blocks.get? key = d.blocks.get? key := by
  have hrow : ∀ key ∈ keys, ((d.get key).map fun block => (key, block)) =
      .ok (key, (d.blocks.get? key).getD []) := by
    intro key hkey
    rw [get_eq_ok hkeys hkey]
    rfl
  have hlisted : (d.restricted keys).blocks.map Prod.fst = keys := keys_restricted d keys
  have hdistinct : ((d.restricted keys).blocks.map Prod.fst).Nodup := by rwa [hlisted]
  refine ⟨d.restricted keys, ?_, keys_restricted d keys, fun key hkey => ?_⟩
  · rw [ordered, mapM_eq_ok_map hrow]
    exact congrArg Except.ok (congrArg Delta.mk (Table.ofRows_of_nodup hdistinct))
  · obtain ⟨block, hblock⟩ := Table.exists_get?_of_mem_keys (hkeys key hkey)
    rw [get?_restricted d hkey, hblock, Option.getD_some]

end Delta

/-! ### Schedules -/

namespace Conditional

variable {α : Type}

/-- Conditionals that can be solved one after another from some known variables on: each solves for
    new variables, and its separator is known by then. -/
inductive Scheduled : List Key → List (Conditional α) → Prop
  | nil (known : List Key) : Scheduled known []
  | cons {known : List Key} {c : Conditional α} {cs : List (Conditional α)} :
      c.frontals.Nodup → (∀ key ∈ c.frontals, key ∉ known) → (∀ key ∈ c.separator, key ∈ known) →
        Scheduled (known ++ c.frontals) cs → Scheduled known (c :: cs)

theorem Scheduled.nodup {known : List Key} {cs : List (Conditional α)} (h : Scheduled known cs)
    (hknown : known.Nodup) : (known ++ cs.flatMap (·.frontals)).Nodup := by
  induction h with
  | nil known => simpa using hknown
  | cons hfrontals hnew _ _ ih =>
    rw [List.flatMap_cons, ← List.append_assoc]
    refine ih (List.nodup_append.mpr ⟨hknown, hfrontals, ?_⟩)
    rintro a ha b hb rfl
    exact hnew a hb ha

theorem Scheduled.concat {known : List Key} {cs : List (Conditional α)} {c : Conditional α}
    (h : Scheduled known cs) (hnodup : c.frontals.Nodup)
    (hnew : ∀ key ∈ c.frontals, key ∉ known ++ cs.flatMap (·.frontals))
    (hseparator : ∀ key ∈ c.separator, key ∈ known ++ cs.flatMap (·.frontals)) :
    Scheduled known (cs ++ [c]) := by
  induction h with
  | nil known =>
    rw [List.flatMap_nil, List.append_nil] at hnew hseparator
    exact .cons hnodup hnew hseparator (.nil _)
  | cons hfirst hfirstNew hfirstSeparator _ ih =>
    rw [List.flatMap_cons, ← List.append_assoc] at hnew hseparator
    exact .cons hfirst hfirstNew hfirstSeparator (ih hnew hseparator)

theorem Scheduled.of_append {known : List Key} {before after : List (Conditional α)}
    (h : Scheduled known (before ++ after)) :
    Scheduled known before ∧ Scheduled (known ++ before.flatMap (·.frontals)) after := by
  induction before generalizing known with
  | nil =>
    rw [List.flatMap_nil, List.append_nil]
    exact ⟨.nil _, h⟩
  | cons c before ih =>
    cases h with
    | cons hnodup hnew hseparator hrest =>
      obtain ⟨hbefore, hafter⟩ := ih hrest
      rw [List.flatMap_cons, ← List.append_assoc]
      exact ⟨.cons hnodup hnew hseparator hbefore, hafter⟩

variable [Scalar α]

/-- **Solving with known variables looks up nothing in vain**: it adds the variables that are solved
    for, unless an entry is not finite or shapes do not fit. -/
theorem solve_outcome {c : Conditional α} (hsized : ∀ key ∈ c.frontals, ∃ n, c.dims.get? key = some n)
    (hnodup : c.frontals.Nodup) {d : Delta α} (hnew : ∀ key ∈ c.frontals, key ∉ d.keys)
    (hknown : ∀ key ∈ c.separator, key ∈ d.keys) :
    (∀ d', c.solve d = .ok d' → d'.keys = d.keys ++ c.frontals) ∧
      ∀ e, c.solve d = .error e → e = .notFinite ∨ e = .shapeMismatch := by
  have htriangle : ∀ rhs : Vec α,
      (do let xs ← Triangular.solve c.triangle rhs; writeBlocks c.dims c.frontals xs d) =
        Except.error (α := Delta α) Error.notFinite ∨
      ∃ xs, (do let xs ← Triangular.solve c.triangle rhs; writeBlocks c.dims c.frontals xs d) =
        Except.ok (ε := Error) ⟨d.blocks ++ Delta.pieces c.dims c.frontals xs⟩ := by
    intro rhs
    rw [Triangular.solve]
    split
    · exact .inr ⟨_, Delta.writeBlocks_eq hsized hnodup _ d hnew⟩
    · exact .inl rfl
  have hresult : c.solve d = .error .shapeMismatch ∨ c.solve d = .error .notFinite ∨
      ∃ xs, c.solve d = .ok ⟨d.blocks ++ Delta.pieces c.dims c.frontals xs⟩ := by
    rw [solve]
    by_cases hempty : c.separator.isEmpty = true
    · rw [if_pos hempty]
      exact .inr (htriangle c.rhs)
    · rw [if_neg hempty, Delta.vectorOf_eq hknown]
      by_cases hshape : c.coupling.width = (d.restricted c.separator).vector.length
      · simp only [bind, Except.bind, Mat.mulVec?, if_pos hshape]
        exact .inr (htriangle _)
      · simp only [bind, Except.bind, Mat.mulVec?, if_neg hshape]
        exact .inl trivial
  rcases hresult with h | h | ⟨xs, h⟩ <;> rw [h]
  · exact ⟨fun d' hd => (by cases hd), fun e he => (by cases he; exact .inr rfl)⟩
  · exact ⟨fun d' hd => (by cases hd), fun e he => (by cases he; exact .inl rfl)⟩
  · refine ⟨fun d' hd => ?_, fun e he => (by cases he)⟩
    cases hd
    rw [Delta.keys, Table.keys, List.map_append]
    exact congrArg (d.keys ++ ·) (Delta.keys_pieces _ _)

/-- **A schedule is solved without looking up anything in vain.** -/
theorem Scheduled.solve_outcome {known : List Key} {cs : List (Conditional α)}
    (h : Scheduled known cs)
    (hsized : ∀ c ∈ cs, ∀ key ∈ c.frontals, ∃ n, c.dims.get? key = some n) {d : Delta α}
    (hknown : d.keys = known) :
    (∀ d', cs.foldlM (fun (d : Delta α) c => c.solve d) d = .ok d' →
        d'.keys = known ++ cs.flatMap (·.frontals)) ∧
      ∀ e, cs.foldlM (fun (d : Delta α) c => c.solve d) d = .error e →
        e = .notFinite ∨ e = .shapeMismatch := by
  induction h generalizing d with
  | nil known =>
    refine ⟨fun d' hd => ?_, fun e he => (by cases he)⟩
    cases hd
    rw [hknown, List.flatMap_nil, List.append_nil]
  | @cons known c cs hnodup hnew hseparator _ ih =>
    obtain ⟨hkeys, herror⟩ := Conditional.solve_outcome (hsized c (by simp)) hnodup (hknown ▸ hnew)
      (hknown ▸ hseparator)
    rw [List.foldlM_cons]
    cases hsolve : c.solve d with
    | error e =>
      refine ⟨fun d' hd => (by cases hd), fun e' he => ?_⟩
      cases he
      exact herror e hsolve
    | ok next =>
      have hrest := ih (fun c hc => hsized c (List.mem_cons_of_mem _ hc)) (hknown ▸ hkeys next hsolve)
      rwa [List.append_assoc] at hrest

end Conditional

end LeastSquares
