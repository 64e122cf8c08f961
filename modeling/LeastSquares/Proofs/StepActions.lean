/-
  LeastSquares/Proofs/StepActions.lean
  ====================================
  **Steps act on estimates by addition.**

  A step moves the variables that it names and leaves the others where they are.  Only its blocks for
  variables of the estimate count, and each has to be as long as the vector that it moves.  So two steps in
  a row are one step, the sum of both, and a step whose blocks are zeros leads back to the estimate.
-/
import LeastSquares.Proofs.EstimateHistories

namespace LeastSquares

theorem Table.get?_filter {β : Type} (t : Table β) (p : Key → Bool) (key : Key) :
    Table.get? (t.filter fun row => p row.1) key = if p key then t.get? key else none := by
  induction t with
  | nil => exact (ite_self none).symm
  | cons row t ih =>
    obtain ⟨k, b⟩ := row
    rw [List.filter_cons]
    by_cases hkey : key = k
    · subst hkey
      cases hp : p key <;> simp [hp, ih, Table.get?_cons]
    · cases hp : p k <;> simp [hkey, ih, Table.get?_cons]

/-- Pairs that meet in between. -/
theorem exists_forall₂_and_forall₂ {β γ δ : Type} {R : β → γ → Prop} {S : γ → δ → Prop} {xs : List β}
    {zs : List δ} : (∃ ys, List.Forall₂ R xs ys ∧ List.Forall₂ S ys zs) ↔
      List.Forall₂ (fun x z => ∃ y, R x y ∧ S y z) xs zs := by
  constructor
  · rintro ⟨ys, hxs, hzs⟩
    induction hxs generalizing zs with
    | nil =>
      cases hzs
      exact .nil
    | cons hxy _ ih =>
      obtain _ | ⟨hyz, hrest⟩ := hzs
      exact .cons ⟨_, hxy, hyz⟩ (ih hrest)
  · intro h
    induction h with
    | nil => exact ⟨[], .nil, .nil⟩
    | cons hhead _ ih =>
      obtain ⟨y, hxy, hyz⟩ := hhead
      obtain ⟨ys, hxs, hzs⟩ := ih
      exact ⟨y :: ys, .cons hxy hxs, .cons hyz hzs⟩

namespace Vec

theorem length_add {α : Type} [Scalar α] (xs ys : Vec α) : (add xs ys).length = min xs.length ys.length :=
  List.length_zipWith

theorem add_add (xs ys zs : Vec ℝ) : add (add xs ys) zs = add xs (add ys zs) := by
  refine List.ext_getElem ?_ fun i h1 h2 => ?_
  · simp only [length_add, Nat.min_assoc]
  · simp only [add, List.getElem_zipWith]
    ring

theorem add_zeros (xs : Vec ℝ) : add xs (zeros xs.length) = xs := by
  refine List.ext_getElem (by simp [length_add, zeros]) fun i h1 h2 => ?_
  simp [add, zeros]

end Vec

/-! ### Sums of steps -/

namespace Delta

variable {α : Type} [Scalar α]

/-- A block with that of another step for the same variable added to it, if there is one. -/
def withBlock (b : Delta α) (row : Key × Vec α) : Key × Vec α :=
  (row.1, ((b.blocks.get? row.1).map (Vec.add row.2)).getD row.2)

/-- The sum of two steps, variable by variable; where only one of them has a block, that block counts as it
    is, as if the other one had zeros there. -/
def plus (a b : Delta α) : Delta α :=
  ⟨a.blocks.map b.withBlock ++ b.blocks.filter fun row => !a.contains row.1⟩

theorem get?_plus (a b : Delta α) (key : Key) :
    (a.plus b).blocks.get? key = Option.merge Vec.add (a.blocks.get? key) (b.blocks.get? key) := by
  have hlookup : (a.plus b).blocks.get? key =
      ((a.blocks.get? key).map fun x => (b.withBlock (key, x)).2).or
        (if !a.contains key then b.blocks.get? key else none) := by
    have hfirst := Table.get?_map a.blocks key (f := b.withBlock) fun _ => rfl
    rw [← Table.get?_filter b.blocks fun key => !a.contains key, ← hfirst]
    exact List.lookup_append
  rw [hlookup]
  cases ha : a.blocks.get? key with
  | none =>
    have habsent : a.contains key = false := by
      rw [← Bool.not_eq_true, contains, Table.contains_iff]
      exact Table.get?_eq_none_iff.mp ha
    simp [habsent]
  | some x => cases hb : b.blocks.get? key <;> simp [withBlock, hb]

/-- Two steps have blocks of one size for a variable, if both have one. -/
def Fits (a b : Delta α) (key : Key) : Prop :=
  ∀ x y, a.blocks.get? key = some x → b.blocks.get? key = some y → x.length = y.length

end Delta

namespace Values

/-! ### One step -/

section

variable {α : Type} [Scalar α] {v w : Values α} {a b : Delta α} {key : Key} {xs : Vec α}

/-- What a moved variable is: what it was if the step does not name it, else the sum with a block of its size. -/
theorem moved_eq_ok_iff {row : Key × Vec α} : moved a key xs = .ok row ↔
    a.blocks.get? key = none ∧ (key, xs) = row ∨
      ∃ step, a.blocks.get? key = some step ∧ step.length = xs.length ∧ (key, Vec.add xs step) = row := by
  rw [moved]
  cases a.blocks.get? key with
  | none => simp
  | some step => by_cases hlength : step.length = xs.length <;> simp [hlength]

theorem retract_eq_ok_iff : v.retract a = .ok w ↔
    List.Forall₂ (fun row row' => moved a row.1 row.2 = .ok row') v.entries w.entries := by
  simp only [retract, map_eq_ok, mapM_eq_ok_iff]
  constructor
  · rintro ⟨rows, hrows, rfl⟩
    exact hrows
  · exact fun h => ⟨w.entries, h, rfl⟩

/-- Of a step only the blocks of the variables count. -/
theorem retract_congr (h : ∀ key ∈ v.keys, a.blocks.get? key = b.blocks.get? key) :
    v.retract a = v.retract b := by
  have hrows : (v.entries.mapM fun row => moved a row.1 row.2) = v.entries.mapM fun row => moved b row.1 row.2 :=
    mapM_congr fun row hrow => by rw [moved, moved, h row.1 (List.mem_map_of_mem hrow)]
  rw [retract, retract, hrows]

/-- A variable cannot be moved just where the block has another size. -/
theorem moved_fails_iff : (∃ e, moved a key xs = .error e) ↔
    ∃ step, a.blocks.get? key = some step ∧ step.length ≠ xs.length := by
  rw [moved]
  cases a.blocks.get? key with
  | none => simp
  | some step => by_cases hlength : step.length = xs.length <;> simp [hlength]

/-- **A step fails just where some block has another size than its variable.** -/
theorem retract_fails_iff : (∃ e, v.retract a = .error e) ↔
    ∃ row ∈ v.entries, ∃ step, a.blocks.get? row.1 = some step ∧ step.length ≠ row.2.length := by
  simp only [← moved_fails_iff]
  constructor
  · rintro ⟨e, he⟩
    cases hrows : v.entries.mapM fun row => moved a row.1 row.2 with
    | ok rows => simp [retract, hrows, Except.map] at he
    | error cause =>
      obtain ⟨row, hrow, hmoved⟩ := exists_of_mapM_error hrows
      exact ⟨row, hrow, cause, hmoved⟩
  · rintro ⟨row, hrow, e, he⟩
    cases hw : v.retract a with
    | error cause => exact ⟨cause, rfl⟩
    | ok w =>
      obtain ⟨row', -, hmoved⟩ := exists_right_of_mem (retract_eq_ok_iff.mp hw) hrow
      cases hmoved.symm.trans he

end

/-! ### Steps of real numbers -/

variable {v w : Values ℝ} {a b : Delta ℝ}

/-- **A variable that is moved twice is moved by the sum of both blocks.** -/
theorem moved_moved {row row' : Key × Vec ℝ} :
    (∃ next, moved a row.1 row.2 = .ok next ∧ moved b next.1 next.2 = .ok row') ↔
      a.Fits b row.1 ∧ moved (a.plus b) row.1 row.2 = .ok row' := by
  obtain ⟨key, xs⟩ := row
  have hsum := a.get?_plus b key
  simp only [moved_eq_ok_iff, hsum, Delta.Fits]
  cases ha : a.blocks.get? key with
  | none => simp
  | some x =>
    cases hb : b.blocks.get? key with
    | none => simp [hb]
    | some y =>
      have hsizes : x.length = xs.length ∧ y.length = (Vec.add xs x).length ↔
          x.length = y.length ∧ (Vec.add x y).length = xs.length := by
        rw [Vec.length_add, Vec.length_add]
        omega
      simp [hb, Vec.add_add, ← and_assoc, hsizes]

/-- **Two steps in a row are their sum**, where blocks of one variable are of one size. -/
theorem retract_retract : (v.retract a >>= fun u => u.retract b) = .ok w ↔
    (∀ key ∈ v.keys, a.Fits b key) ∧ v.retract (a.plus b) = .ok w := by
  have hkeys : (∀ key ∈ v.keys, a.Fits b key) ↔ ∀ row ∈ v.entries, a.Fits b row.1 := List.forall_mem_map
  rw [bind_eq_ok, hkeys, retract_eq_ok_iff, ← List.forall₂_and_left]
  simp only [← moved_moved, ← exists_forall₂_and_forall₂]
  constructor
  · rintro ⟨u, hfirst, hsecond⟩
    exact ⟨u.entries, retract_eq_ok_iff.mp hfirst, retract_eq_ok_iff.mp hsecond⟩
  · rintro ⟨rows, hfirst, hsecond⟩
    exact ⟨⟨rows⟩, retract_eq_ok_iff.mpr hfirst, retract_eq_ok_iff.mpr hsecond⟩

/-- **Zeros lead back**, and so does a step that names no variable. -/
theorem retract_zeros (h : ∀ row ∈ v.entries, ∀ step, a.blocks.get? row.1 = some step →
    step = Vec.zeros row.2.length) : v.retract a = .ok v := by
  rw [retract_eq_ok_iff, List.forall₂_same]
  intro row hrow
  rw [moved_eq_ok_iff]
  cases hstep : a.blocks.get? row.1 with
  | none => exact .inl ⟨rfl, rfl⟩
  | some step =>
    obtain rfl := h row hrow step hstep
    exact .inr ⟨_, rfl, List.length_replicate, by rw [Vec.add_zeros]⟩

theorem retract_zero (hnodup : v.keys.Nodup) : v.retract (.zero v.dims) = .ok v := by
  refine retract_zeros fun row hrow step hstep => ?_
  rw [Delta.zero, dims, Table.get?_mapEntries, Table.get?_mapEntries, Table.get?_of_mem hnodup hrow] at hstep
  exact (Option.some.inj hstep).symm

/-- **Steps act on estimates by addition.**  Two steps in a row lead where their sum leads, and fail if their
    blocks for some variable are not of one size.  A step that names no variable of the estimate, or has only
    zeros for them, leads back to it, and of any step only the blocks of the variables count.  A step fails
    just where some block has another size than its variable, and then no register shows anything else than
    before. -/
theorem retract_acts (v : Values ℝ) (a : Delta ℝ) :
    (∀ b w, (v.retract a >>= fun u => u.retract b) = .ok w ↔
        (∀ key ∈ v.keys, a.Fits b key) ∧ v.retract (a.plus b) = .ok w) ∧
      ((∀ key ∈ v.keys, key ∉ a.keys) → v.retract a = .ok v) ∧
      ((∀ row ∈ v.entries, ∀ step, a.blocks.get? row.1 = some step → step = Vec.zeros row.2.length) →
        v.retract a = .ok v) ∧
      (v.keys.Nodup → v.retract (.zero v.dims) = .ok v) ∧
      (∀ b : Delta ℝ, (∀ key ∈ v.keys, a.blocks.get? key = b.blocks.get? key) → v.retract a = v.retract b) ∧
      ((∃ e, v.retract a = .error e) ↔
        ∃ row ∈ v.entries, ∃ step, a.blocks.get? row.1 = some step ∧ step.length ≠ row.2.length) ∧
      ∀ (calls : List (Store.Call ℝ)) (r target : ℕ) (e : Error), (Store.empty.run calls).read r = some v →
        v.retract a = .error e →
          ((Store.empty.run calls).call (.retract r a target)).1 = .error e ∧
            ((Store.empty.run calls).call (.retract r a target)).2.read = (Store.empty.run calls).read := by
  refine ⟨fun b w => retract_retract, fun h => ?_, retract_zeros, retract_zero, fun b => retract_congr,
    retract_fails_iff, fun calls r target e hread he => ?_⟩
  · refine retract_zeros fun row hrow step hstep => ?_
    exact absurd (Table.mem_keys_of_get? hstep) (h row.1 (List.mem_map_of_mem hrow))
  · have hsound : (Store.empty.run calls).IsSound := Store.isSound_empty.run calls
    have hshown : (Store.empty.run calls).shown r = .ok v := Store.shown_eq_ok_iff.mpr hread
    have houtcome : (Store.empty.run calls).outcome (.retract r a target) = .error e := by
      simp only [Store.outcome, hshown]
      exact he
    obtain ⟨unfinished, hcall⟩ := hsound.call_fails houtcome
    exact ⟨by rw [hcall], by rw [hcall, hsound.read_append]⟩

/-! Two variables that are moved by steps of which each names one of them, and another variable. -/

namespace TwoSteps

def start : Values ℝ := ⟨[(.number 0, [1, 0]), (.number 1, [-1])]⟩

def first : Delta ℝ := ⟨[(.number 7, [1, 1]), (.number 0, [1, -1])]⟩

def second : Delta ℝ := ⟨[(.number 0, [0, 1]), (.number 1, [1]), (.number 7, [1])]⟩

theorem mem_keys {key : Key} : key ∈ start.keys ↔ key = .number 0 ∨ key = .number 1 := by
  simp [start, Values.keys, Table.keys]

/-- The blocks of the variable that the estimate does not have need not fit. -/
theorem retract_acts_twoSteps :
    (start.retract first >>= fun u => u.retract second) =
        .ok ⟨[(.number 0, [1 + (1 + 0), 0 + (-1 + 1)]), (.number 1, [-1 + 1])]⟩ ∧
      start.retract ⟨[(.number 7, [1])]⟩ = .ok start ∧
      start.retract ⟨[(.number 1, Vec.zeros 1)]⟩ = .ok start ∧
      start.retract (.zero start.dims) = .ok start ∧
      start.retract first = start.retract ⟨[(.number 0, [1, -1])]⟩ ∧
      (∃ e, start.retract ⟨[(.number 0, [1])]⟩ = .error e) ∧
      ((Store.empty.run [.build [(.number 0, .ofVector [1, 0]), (.number 1, .ofVector [-1])] 0]).call
        (.retract 0 ⟨[(.number 0, [1])]⟩ 0)).2.read 0 = some start := by
  have hsum := (retract_acts start first).1 second
  have hunnamed := (retract_acts start ⟨[(.number 7, [1])]⟩).2.1
  obtain ⟨-, -, hzeros, hzero, -⟩ := retract_acts start ⟨[(.number 1, Vec.zeros 1)]⟩
  obtain ⟨-, -, -, -, hcongr, -⟩ := retract_acts start first
  obtain ⟨-, -, -, -, -, hfails, hkept⟩ := retract_acts start ⟨[(.number 0, [1])]⟩
  refine ⟨(hsum _).mpr ⟨?_, rfl⟩, hunnamed (by decide), hzeros ?_, hzero (by decide), hcongr _ ?_,
    hfails.mpr ⟨(.number 0, [1, 0]), by simp [start], [1], rfl, by simp⟩, ?_⟩
  · intro key hkey x y hx hy
    obtain rfl | rfl := mem_keys.mp hkey
    · obtain rfl : [1, -1] = x := Option.some.inj hx
      obtain rfl : [0, 1] = y := Option.some.inj hy
      rfl
    · exact nomatch hx
  · intro row hrow step hstep
    obtain rfl | rfl : row = (.number 0, [1, 0]) ∨ row = (.number 1, [-1]) := by simpa [start] using hrow
    · exact nomatch hstep
    · exact (Option.some.inj hstep).symm
  · intro key hkey
    obtain rfl | rfl := mem_keys.mp hkey
    · rfl
    · rfl
  · have hread : (Store.empty.run [.build [(.number 0, .ofVector [1, 0]), (.number 1, .ofVector [-1])] 0]).read 0 =
        some start := rfl
    obtain ⟨-, hsame⟩ := hkept _ 0 0 (.stepSize (.number 0) 1 2) hread rfl
    rw [hsame, hread]

end TwoSteps

end Values

end LeastSquares
