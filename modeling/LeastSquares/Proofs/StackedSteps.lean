/-
  LeastSquares/Proofs/StackedSteps.lean
  =====================================
  **Stacking a step and cutting a vector are inverse to each other.**

  A step is stacked in the order of some variables by writing their blocks one after another; a vector is
  cut in such an order by the sizes of the variables, from a running place on.  A vector that is too short
  is refused at the first block that it does not fill, one that is too long only behind the last block.
  Any other vector is cut into the one step of these variables whose blocks have the right sizes and stack
  to the vector again.  A block may be empty: it takes no room, wherever it stands.  What is given as an
  array of one axis, with integers for the sizes, is cut in the same way (`Delta.ofTensor_ofVector`).
-/
import LeastSquares.Proofs.Pieces

namespace LeastSquares

namespace Delta

variable {α : Type} {dims : Table ℕ} {keys : List Key} {xs : Vec α} {d : Delta α}

/-! ### Cutting from a place on -/

theorem stopIn_of_room {length n used : ℕ} {key : Key} (hn : dims.get? key = some n)
    (hroom : used + n ≤ length) : stopIn dims length key used = .ok ((used + n : ℕ) : ℤ) := by
  have hfits : ¬(length : ℤ) < used + n := by omega
  simp only [stopIn, Table.find_eq_ok.mpr hn, bind, Except.bind, if_neg hfits]
  rfl

theorem stopIn_of_shortage {length n used : ℕ} {key : Key} (hn : dims.get? key = some n)
    (hshort : length < used + n) : stopIn dims length key used = .error (.shortVector key) := by
  have hmisses : (length : ℤ) < used + n := by omega
  simp only [stopIn, Table.find_eq_ok.mpr hn, bind, Except.bind, if_pos hmisses]
  rfl

/-- While there is room, cutting takes consecutive pieces and goes on behind them. -/
theorem split_append {before : List Key} (hsized : ∀ key ∈ before, ∃ n, dims.get? key = some n)
    (after : List Key) {used : ℕ} (hroom : used + dims.widthOf before ≤ xs.length) :
    split (stopIn dims xs.length) xs (before ++ after) used =
      (split (stopIn dims xs.length) xs after ((used + dims.widthOf before : ℕ) : ℤ)).map
        (pieces dims before (xs.drop used) ++ ·) := by
  induction before generalizing used with
  | nil =>
    rw [List.nil_append, Table.widthOf_nil, Nat.add_zero]
    cases split (stopIn dims xs.length) xs after used <;> rfl
  | cons key before ih =>
    obtain ⟨⟨n, hn⟩, hsized⟩ := List.forall_mem_cons.mp hsized
    have hsize := Table.dimOf_eq hn
    rw [Table.widthOf_cons, hsize, ← Nat.add_assoc] at hroom ⊢
    have hstop := stopIn_of_room hn (Nat.le_trans (Nat.le_add_right _ _) hroom)
    have hpiece : slice xs (used : ℤ) ((used + n : ℕ) : ℤ) = (xs.drop used).take n := by
      rw [slice_natCast _ _ _ (by omega) (by omega), List.take_drop]
    simp only [List.cons_append, split, hstop, bind, Except.bind, ih hsized hroom, hpiece, pieces, hsize,
      List.drop_drop]
    cases split (stopIn dims xs.length) xs after ((used + n + dims.widthOf before : ℕ) : ℤ) <;> rfl

/-! ### The three outcomes -/

/-- Cutting a vector of the right length takes consecutive pieces. -/
theorem fromVector_eq (hnodup : keys.Nodup) (hsized : ∀ key ∈ keys, ∃ n, dims.get? key = some n)
    (hlength : xs.length = dims.widthOf keys) : fromVector xs keys dims = .ok ⟨pieces dims keys xs⟩ := by
  have hroom : 0 + dims.widthOf keys ≤ xs.length := by omega
  have hsplit := split_append hsized [] hroom
  rw [List.append_nil, Nat.zero_add, ← hlength, split, if_pos rfl, List.drop_zero, Nat.cast_zero] at hsplit
  have hkeys : (pieces dims keys xs).map Prod.fst = keys := keys_pieces keys xs
  have hrows : ((pieces dims keys xs).map Prod.fst).Nodup := by rwa [hkeys]
  rw [fromVector, hsplit, Except.map, Except.map, List.append_nil, Table.ofRows_of_nodup hrows]

section

variable (hsized : ∀ key ∈ keys, ∃ n, dims.get? key = some n)

include hsized

theorem fromVector_of_long (hlong : dims.widthOf keys < xs.length) :
    fromVector xs keys dims = .error (.longVector (dims.widthOf keys) xs.length) := by
  have hroom : 0 + dims.widthOf keys ≤ xs.length := by omega
  have hsplit := split_append hsized [] hroom
  have hleft : ¬((dims.widthOf keys : ℕ) : ℤ) = (xs.length : ℤ) := by omega
  rw [List.append_nil, Nat.zero_add, split, if_neg hleft, Nat.cast_zero] at hsplit
  rw [fromVector, hsplit]
  rfl

theorem fromVector_of_short {before after : List Key} {key : Key} (hkeys : keys = before ++ key :: after)
    (hfilled : dims.widthOf before ≤ xs.length) (hshort : xs.length < dims.widthOf before + dims.dimOf key) :
    fromVector xs keys dims = .error (.shortVector key) := by
  subst hkeys
  obtain ⟨hbefore, hrest⟩ := List.forall_mem_append.mp hsized
  obtain ⟨n, hn⟩ := hrest key List.mem_cons_self
  rw [Table.dimOf_eq hn] at hshort
  have hroom : 0 + dims.widthOf before ≤ xs.length := by omega
  have hsplit := split_append hbefore (key :: after) hroom
  rw [Nat.zero_add, split, stopIn_of_shortage hn hshort, Nat.cast_zero] at hsplit
  rw [fromVector, hsplit]
  rfl

end

/-- Why a vector of a length cannot be cut: it ends inside of a block, or goes on behind the last one. -/
inductive WrongLength (dims : Table ℕ) (keys : List Key) (length : ℕ) : Error → Prop
  | short {before after : List Key} {key : Key} (hkeys : keys = before ++ key :: after)
      (hfilled : dims.widthOf before ≤ length) (hshort : length < dims.widthOf before + dims.dimOf key) :
      WrongLength dims keys length (.shortVector key)
  | long (hlong : dims.widthOf keys < length) :
      WrongLength dims keys length (.longVector (dims.widthOf keys) length)

/-- A vector that is too short ends inside of some block. -/
theorem exists_unfilled {length : ℕ} (h : length < dims.widthOf keys) :
    ∃ before key after, keys = before ++ key :: after ∧ dims.widthOf before ≤ length ∧
      length < dims.widthOf before + dims.dimOf key := by
  induction keys generalizing length with
  | nil => exact absurd h (Nat.not_lt_zero _)
  | cons first keys ih =>
    by_cases hfirst : length < dims.dimOf first
    · exact ⟨[], first, keys, rfl, Nat.zero_le _, by simpa using hfirst⟩
    · rw [Table.widthOf_cons] at h
      have hrest : length - dims.dimOf first < dims.widthOf keys := by omega
      obtain ⟨before, key, after, rfl, hfilled, hshort⟩ := ih hrest
      refine ⟨first :: before, key, after, rfl, ?_, ?_⟩
      · rw [Table.widthOf_cons]
        omega
      · rw [Table.widthOf_cons]
        omega

theorem exists_wrongLength_iff {length : ℕ} :
    (∃ e, WrongLength dims keys length e) ↔ length ≠ dims.widthOf keys := by
  constructor
  · rintro ⟨e, hkeys | hlong⟩
    · subst hkeys
      rw [Table.widthOf_append, Table.widthOf_cons]
      omega
    · omega
  · intro hne
    rcases Nat.lt_or_gt_of_ne hne with hshort | hlong
    · obtain ⟨before, key, after, hkeys, hfilled, hunfilled⟩ := exists_unfilled hshort
      exact ⟨_, .short hkeys hfilled hunfilled⟩
    · exact ⟨_, .long hlong⟩

theorem fromVector_of_wrongLength (hsized : ∀ key ∈ keys, ∃ n, dims.get? key = some n) {e : Error}
    (h : WrongLength dims keys xs.length e) : fromVector xs keys dims = .error e := by
  cases h with
  | short hkeys hfilled hshort => exact fromVector_of_short hsized hkeys hfilled hshort
  | long hlong => exact fromVector_of_long hsized hlong

/-- **Cutting fails just where the length of the vector is wrong**, and in which way says why. -/
theorem fromVector_eq_error_iff (hnodup : keys.Nodup) (hsized : ∀ key ∈ keys, ∃ n, dims.get? key = some n)
    {e : Error} : fromVector xs keys dims = .error e ↔ WrongLength dims keys xs.length e := by
  constructor
  · intro h
    by_cases hlength : xs.length = dims.widthOf keys
    · rw [fromVector_eq hnodup hsized hlength] at h
      cases h
    · obtain ⟨cause, hcause⟩ := exists_wrongLength_iff.mpr hlength
      rw [fromVector_of_wrongLength hsized hcause] at h
      cases h
      exact hcause
  · exact fromVector_of_wrongLength hsized

/-! ### Cutting as the inverse of stacking -/

/-- What a vector is cut into along some variables: a block of its size for each of them, which stack to
    the vector again. -/
structure IsCutFrom (d : Delta α) (xs : Vec α) (keys : List Key) (dims : Table ℕ) : Prop where
  keys_eq : d.keys = keys
  sized : ∀ key ∈ keys, ∃ block, d.get key = .ok block ∧ dims.get? key = some block.length
  stacked : d.vectorOf keys = .ok xs

/-- The sizes of the blocks of a step. -/
def blockSizes (d : Delta α) : Table ℕ := d.blocks.mapEntries List.length

/-- The blocks of some variables are what their stack is cut into. -/
theorem isCutFrom_restricted (hkeys : ∀ key ∈ keys, key ∈ d.keys) :
    (d.restricted keys).IsCutFrom (d.restricted keys).vector keys d.blockSizes where
  keys_eq := keys_restricted d keys
  sized key hkey := by
    obtain ⟨block, hblock⟩ := Table.exists_get?_of_mem_keys (hkeys key hkey)
    refine ⟨block, ?_, ?_⟩
    · rw [get_restricted hkeys hkey, get, Table.find_eq_ok.mpr hblock]
    · rw [blockSizes, Table.get?_mapEntries, hblock, Option.map_some]
  stacked := by
    rw [← vectorOf_eq hkeys, vectorOf, vectorOf, mapM_congr fun key hkey => get_restricted hkeys hkey]

/-- There is only one way to cut a vector, and only if it has the right length. -/
theorem IsCutFrom.eq_pieces (h : d.IsCutFrom xs keys dims) (hnodup : keys.Nodup) :
    d = ⟨pieces dims keys xs⟩ ∧ xs.length = dims.widthOf keys := by
  obtain ⟨rfl, hsized, hstacked⟩ := h
  have hsizes : ∀ row ∈ d.blocks, row.2.length = dims.dimOf row.1 := by
    intro row hrow
    obtain ⟨block, hblock, hsize⟩ := hsized row.1 (List.mem_map_of_mem hrow)
    rw [get, Table.find_eq_ok, Table.get?_of_mem hnodup hrow] at hblock
    rw [Option.some.inj hblock, Table.dimOf_eq hsize]
  rw [vectorOf_eq fun _ => id, restricted_self hnodup, Except.ok.injEq] at hstacked
  subst hstacked
  exact Delta.eq_pieces hsizes

theorem isCutFrom_pieces (hnodup : keys.Nodup) (hsized : ∀ key ∈ keys, ∃ n, dims.get? key = some n)
    (hlength : xs.length = dims.widthOf keys) : IsCutFrom ⟨pieces dims keys xs⟩ xs keys dims where
  keys_eq := keys_pieces keys xs
  sized key hkey := by
    obtain ⟨n, hn⟩ := hsized key hkey
    refine ⟨_, Table.find_eq_ok.mpr (get?_pieces hkey xs), ?_⟩
    rw [length_piece hkey hlength, hn, Table.dimOf_eq hn]
  stacked := by
    have hkeys : Delta.keys ⟨pieces dims keys xs⟩ = keys := keys_pieces keys xs
    have hself := vectorOf_eq (d := ⟨pieces dims keys xs⟩) fun _ => id
    rwa [restricted_self (by rwa [hkeys]), vector_pieces hlength, hkeys] at hself

/-- **A vector is cut into the step that stacks to it**, and into no other. -/
theorem fromVector_eq_ok_iff (hnodup : keys.Nodup) (hsized : ∀ key ∈ keys, ∃ n, dims.get? key = some n) :
    fromVector xs keys dims = .ok d ↔ d.IsCutFrom xs keys dims := by
  constructor
  · intro h
    have hlength : xs.length = dims.widthOf keys := by
      by_contra hne
      obtain ⟨e, he⟩ := exists_wrongLength_iff.mpr hne
      cases (fromVector_of_wrongLength hsized he).symm.trans h
    rw [fromVector_eq hnodup hsized hlength] at h
    cases h
    exact isCutFrom_pieces hnodup hsized hlength
  · intro h
    obtain ⟨rfl, hlength⟩ := h.eq_pieces hnodup
    exact fromVector_eq hnodup hsized hlength

/-- The block of a variable stands where the blocks before it end. -/
theorem IsCutFrom.get_eq (h : d.IsCutFrom xs keys dims) (hnodup : keys.Nodup) {key : Key} (hkey : key ∈ keys) :
    d.get key = .ok ((xs.drop (dims.columnOf keys key)).take (dims.dimOf key)) := by
  obtain ⟨rfl, -⟩ := h.eq_pieces hnodup
  exact Table.find_eq_ok.mpr (get?_pieces hkey xs)

theorem fromVector_restricted (hnodup : keys.Nodup) (hkeys : ∀ key ∈ keys, key ∈ d.keys) :
    fromVector (d.restricted keys).vector keys d.blockSizes = .ok (d.restricted keys) := by
  have hsized : ∀ key ∈ keys, ∃ n, d.blockSizes.get? key = some n := by
    intro key hkey
    apply Table.exists_get?_of_mem_keys
    rw [blockSizes, Table.keys_mapEntries]
    exact hkeys key hkey
  exact (fromVector_eq_ok_iff hnodup hsized).mpr (isCutFrom_restricted hkeys)

/-- **Cutting and stacking are inverse to each other**, along any different variables.  A vector cannot be
    cut just if its length is not the sum of the sizes of the variables, since it ends inside of a block or
    goes on behind the last one; else it is cut into the step whose blocks have these sizes and stack to it.
    What a step stacks to is cut into its blocks again.  Stacked in another order, the same blocks stand as
    a whole where the blocks that are before them in that order end. -/
theorem cutting_inverts_stacking {keys : List Key} (hnodup : keys.Nodup) :
    (∀ (dims : Table ℕ) (xs : Vec α), (∀ key ∈ keys, key ∈ dims.keys) →
      ((∃ e, fromVector xs keys dims = .error e) ↔ xs.length ≠ dims.widthOf keys) ∧
      (∀ e, fromVector xs keys dims = .error e ↔ WrongLength dims keys xs.length e) ∧
      (xs.length = dims.widthOf keys → ∃ d, fromVector xs keys dims = .ok d) ∧
      ∀ d, fromVector xs keys dims = .ok d ↔ d.IsCutFrom xs keys dims) ∧
    ∀ d : Delta α, (∀ key ∈ keys, key ∈ d.keys) → ∃ xs r,
      d.vectorOf keys = .ok xs ∧ fromVector xs keys d.blockSizes = .ok r ∧ r.keys = keys ∧
      (∀ key ∈ keys, r.get key = d.get key) ∧
      ∀ others, others.Perm keys → ∃ ys s,
        d.vectorOf others = .ok ys ∧ fromVector ys others d.blockSizes = .ok s ∧ s.blocks.Perm r.blocks ∧
        ∀ key ∈ keys, (ys.drop (d.blockSizes.columnOf others key)).take (d.blockSizes.dimOf key) =
          (xs.drop (d.blockSizes.columnOf keys key)).take (d.blockSizes.dimOf key) := by
  constructor
  · intro dims xs hdims
    have hsized : ∀ key ∈ keys, ∃ n, dims.get? key = some n := fun key hkey =>
      Table.exists_get?_of_mem_keys (hdims key hkey)
    have hfails : ∀ e, fromVector xs keys dims = .error e ↔ WrongLength dims keys xs.length e := fun e =>
      fromVector_eq_error_iff hnodup hsized
    refine ⟨?_, hfails, fun hlength => ⟨_, fromVector_eq hnodup hsized hlength⟩, fun d =>
      fromVector_eq_ok_iff hnodup hsized⟩
    simp only [hfails, exists_wrongLength_iff]
  · intro d hkeys
    refine ⟨_, _, vectorOf_eq hkeys, fromVector_restricted hnodup hkeys, keys_restricted d keys,
      fun key hkey => get_restricted hkeys hkey, ?_⟩
    intro others hperm
    have hnodup' : others.Nodup := hperm.nodup_iff.mpr hnodup
    have hothers : ∀ key ∈ others, key ∈ d.keys := fun key hkey => hkeys key (hperm.mem_iff.mp hkey)
    refine ⟨_, _, vectorOf_eq hothers, fromVector_restricted hnodup' hothers, hperm.map _, ?_⟩
    intro key hkey
    have hkey' : key ∈ others := hperm.mem_iff.mpr hkey
    have hplaced := (isCutFrom_restricted hkeys).get_eq hnodup hkey
    have hplaced' := (isCutFrom_restricted hothers).get_eq hnodup' hkey'
    rw [get_restricted hkeys hkey] at hplaced
    rw [get_restricted hothers hkey', hplaced] at hplaced'
    exact (Except.ok.inj hplaced').symm

/-! Three variables, one of which has no components, stacked in an order that is not that of their sizes. -/

namespace EmptyBlock

def sizes : Table ℕ := [(.number 7, 4), (.number 0, 2), (.number 1, 0), (.number 2, 1)]

def order : List Key := [.number 2, .number 1, .number 0]

def step : Delta ℕ := ⟨[(.number 2, [5]), (.number 1, []), (.number 0, [6, 7])]⟩

/-- The empty block in the middle is not the one that a short vector lacks. -/
theorem cutting_inverts_stacking_emptyBlock :
    fromVector [5] order sizes = .error (.shortVector (.number 0)) ∧
      fromVector [5, 6, 7, 8] order sizes = .error (.longVector 3 4) ∧
      step.IsCutFrom [5, 6, 7] order sizes ∧
      ∃ ys s, step.vectorOf order.reverse = .ok ys ∧ fromVector ys order.reverse step.blockSizes = .ok s ∧
        s.blocks.Perm step.blocks ∧ ys.take 2 = [6, 7] := by
  have hnodup : order.Nodup := by decide
  have hsizes : ∀ key ∈ order, key ∈ sizes.keys := by decide
  have hkeys : ∀ key ∈ order, key ∈ step.keys := by decide
  obtain ⟨hcut, hstack⟩ := cutting_inverts_stacking (α := ℕ) hnodup
  obtain ⟨-, hshort, -, -⟩ := hcut sizes [5] hsizes
  obtain ⟨-, hlong, -, -⟩ := hcut sizes [5, 6, 7, 8] hsizes
  obtain ⟨-, -, -, hexact⟩ := hcut sizes [5, 6, 7] hsizes
  obtain ⟨xs, r, hxs, hr, -, -, hothers⟩ := hstack step hkeys
  obtain ⟨ys, s, hys, hs, hperm, hplaces⟩ := hothers order.reverse (List.reverse_perm order)
  obtain rfl : [5, 6, 7] = xs := Except.ok.inj hxs
  obtain rfl : step = r := Except.ok.inj hr
  refine ⟨(hshort _).mpr ?_, (hlong _).mpr ?_, (hexact step).mp rfl, ys, s, hys, hs, hperm, ?_⟩
  · have hkeys : order = [.number 2, .number 1] ++ .number 0 :: [] := rfl
    exact .short hkeys (by decide) (by decide)
  · exact .long (by decide)
  · exact hplaces (.number 0) (by decide)

end EmptyBlock

end Delta

end LeastSquares
