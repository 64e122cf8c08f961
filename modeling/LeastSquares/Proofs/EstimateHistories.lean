/-
  LeastSquares/Proofs/EstimateHistories.lean
  ==========================================
  **Estimates over any history of calls.**

  Estimates are objects: several registers might hold one, and what is written into it would be seen
  through each of them.  An estimate that is built, copied or moved to is a new object, filled variable by
  variable and held by a register only when it is complete; variables are inserted and replaced in place.
  So a call that fails half way leaves an unfinished estimate behind, but no register that holds it.

  No call lets two registers hold one estimate.  This is why a register shows the same estimate until a
  call is made for that register, whatever was copied from it or to it before.
-/
import LeastSquares.Proofs.ComputedOrder
import LeastSquares.Proofs.RegularGraphs

namespace LeastSquares

variable {α : Type}

/-! ### Estimates that are filled item by item -/

namespace Values

variable {β : Type} {v w : Values α} {items : List β}

/-- Write items into an estimate one after another, as far as that goes. -/
def filled (write : Values α → β → Except Error (Values α)) :
    Values α → List β → Except Error Unit × Values α
  | v, [] => (.ok (), v)
  | v, item :: items =>
    match write v item with
    | .ok w => filled write w items
    | .error e => (.error e, v)

theorem filled_of_foldlM {write : Values α → β → Except Error (Values α)}
    (h : items.foldlM write v = .ok w) : filled write v items = (.ok (), w) := by
  induction items generalizing v with
  | nil =>
    cases h
    rfl
  | cons item items ih =>
    obtain ⟨next, hnext, h⟩ := bind_eq_ok.mp h
    simp only [filled, hnext, ih h]

theorem filled_fails {write : Values α → β → Except Error (Values α)} {e : Error}
    (h : items.foldlM write v = .error e) : ∃ unfinished, filled write v items = (.error e, unfinished) := by
  induction items generalizing v with
  | nil => cases h
  | cons item items ih =>
    rw [List.foldlM_cons] at h
    cases hnext : write v item with
    | error cause =>
      simp only [hnext, bind, Except.bind, Except.error.injEq] at h
      exact ⟨v, by simp only [filled, hnext, h]⟩
    | ok next =>
      simp only [hnext, bind, Except.bind] at h
      obtain ⟨unfinished, hfilled⟩ := ih h
      exact ⟨unfinished, by simp only [filled, hnext, hfilled]⟩

end Values

/-! ### Registers -/

/-- Estimates, each known by its number, and registers, each of which may hold the number of one. -/
structure Store (α : Type) where
  registers : ℕ → Option ℕ
  /-- All estimates that were ever begun, oldest first. -/
  estimates : List (Values α)

namespace Store

def empty : Store α := ⟨fun _ => none, []⟩

/-- The estimate that a register shows. -/
def read (s : Store α) (register : ℕ) : Option (Values α) :=
  (s.registers register).bind (s.estimates[·]?)

/-- A register holds a new estimate. -/
def hold (s : Store α) (target : ℕ) (v : Values α) : Store α :=
  ⟨Function.update s.registers target (some s.estimates.length), s.estimates ++ [v]⟩

/-- The estimate that a register holds is changed where it stands. -/
def write (s : Store α) (register : ℕ) (v : Values α) : Store α :=
  match s.registers register with
  | some n => ⟨s.registers, s.estimates.set n v⟩
  | none => s

/-- A new estimate is begun, filled, and held by a register if that succeeds. -/
def make {β : Type} (s : Store α) (target : ℕ) (write : Values α → β → Except Error (Values α))
    (items : List β) : Except Error Unit × Store α :=
  match Values.filled write .empty items with
  | (.ok (), v) => (.ok (), s.hold target v)
  | (.error e, unfinished) => (.error e, ⟨s.registers, s.estimates ++ [unfinished]⟩)

def shown (s : Store α) (register : ℕ) : Except Error (Values α) :=
  match s.read register with
  | some v => .ok v
  | none => .error .absentKey

/-- A new estimate is made from the one that a register shows. -/
def makeFrom {β : Type} (s : Store α) (register target : ℕ)
    (write : Values α → β → Except Error (Values α)) (items : Values α → List β) :
    Except Error Unit × Store α :=
  match s.shown register with
  | .ok v => s.make target write (items v)
  | .error e => (.error e, s)

/-- The estimate of a register is changed, if it is there and can be. -/
def change (s : Store α) (register : ℕ) (f : Values α → Except Error (Values α)) :
    Except Error Unit × Store α :=
  match s.shown register >>= f with
  | .ok w => (.ok (), s.write register w)
  | .error e => (.error e, s)

/-- **A store as calls leave it**: what registers hold is there, no two of them hold one estimate, and the
    variables of an estimate that a register shows are different. -/
structure IsSound (s : Store α) : Prop where
  present : ∀ r n, s.registers r = some n → n < s.estimates.length
  apart : ∀ q r n, s.registers q = some n → s.registers r = some n → q = r
  nodup : ∀ r v, s.read r = some v → v.keys.Nodup

theorem isSound_empty : (empty : Store α).IsSound :=
  ⟨nofun, nofun, nofun⟩

variable {s : Store α} {r target : ℕ} {v w : Values α}

/-! ### What registers show afterwards -/

/-- An estimate that no register holds is not seen. -/
theorem IsSound.read_append (h : s.IsSound) (unfinished : List (Values α)) :
    (⟨s.registers, s.estimates ++ unfinished⟩ : Store α).read = s.read := by
  funext q
  unfold read
  cases hq : s.registers q with
  | none => rfl
  | some n => exact List.getElem?_append_left (h.present q n hq)

theorem IsSound.read_hold (h : s.IsSound) (target : ℕ) (w : Values α) :
    (s.hold target w).read = Function.update s.read target (some w) := by
  funext q
  obtain rfl | hne := eq_or_ne q target
  · simp [read, hold]
  · rw [Function.update_of_ne hne, ← h.read_append [w]]
    simp only [read, hold, Function.update_of_ne hne]

/-- What is changed in place is seen through the one register that holds it. -/
theorem IsSound.read_write (h : s.IsSound) (hread : s.read r = some v) (w : Values α) :
    (s.write r w).read = Function.update s.read r (some w) := by
  obtain ⟨n, hn, -⟩ := Option.bind_eq_some_iff.mp hread
  funext q
  obtain rfl | hne := eq_or_ne q r
  · simp [read, write, hn, h.present q n hn]
  · rw [Function.update_of_ne hne]
    simp only [read, write, hn]
    cases hq : s.registers q with
    | none => rfl
    | some m =>
      have hother : n ≠ m := fun heq => hne (h.apart q r n (heq ▸ hq) hn)
      exact List.getElem?_set_ne hother

/-- Variables are different in every register when they are in the one that has changed. -/
theorem nodup_of_update {t : Store α} (hread : t.read = Function.update s.read target (some w))
    (h : s.IsSound) (hw : w.keys.Nodup) (q : ℕ) (u : Values α) (hq : t.read q = some u) : u.keys.Nodup := by
  rw [hread] at hq
  obtain rfl | hne := eq_or_ne q target
  · rw [Function.update_self] at hq
    cases hq
    exact hw
  · rw [Function.update_of_ne hne] at hq
    exact h.nodup q u hq

theorem IsSound.append (h : s.IsSound) (unfinished : List (Values α)) :
    (⟨s.registers, s.estimates ++ unfinished⟩ : Store α).IsSound where
  present q n hq := (h.present q n hq).trans_le (by simp)
  apart := h.apart
  nodup q u hq := h.nodup q u (by rwa [← h.read_append unfinished])

/-- The number of a new estimate is held by no other register. -/
theorem IsSound.hold (h : s.IsSound) (target : ℕ) (hw : w.keys.Nodup) : (s.hold target w).IsSound := by
  have hnumber : ∀ q n, (s.hold target w).registers q = some n →
      q = target ∧ n = s.estimates.length ∨ s.registers q = some n ∧ n < s.estimates.length := by
    intro q n hq
    obtain rfl | hne := eq_or_ne q target
    · exact .inl ⟨rfl, by simpa [Store.hold, eq_comm] using hq⟩
    · simp only [Store.hold, Function.update_of_ne hne] at hq
      exact .inr ⟨hq, h.present q n hq⟩
  constructor
  case present =>
    intro q n hq
    simp only [Store.hold, List.length_append, List.length_singleton]
    obtain ⟨-, rfl⟩ | ⟨-, hlt⟩ := hnumber q n hq <;> omega
  case apart =>
    intro p q n hp hq
    obtain ⟨hp, hn⟩ | ⟨hp, hlt⟩ := hnumber p n hp <;> obtain ⟨hq, hn'⟩ | ⟨hq, hlt'⟩ := hnumber q n hq
    · rw [hp, hq]
    · omega
    · omega
    · exact h.apart p q n hp hq
  case nodup => exact nodup_of_update (h.read_hold target w) h hw

theorem IsSound.write (h : s.IsSound) (hread : s.read r = some v) (hw : w.keys.Nodup) :
    (s.write r w).IsSound := by
  obtain ⟨n, hn, -⟩ := Option.bind_eq_some_iff.mp hread
  have hwrite : s.write r w = ⟨s.registers, s.estimates.set n w⟩ := by simp only [Store.write, hn]
  constructor
  case present =>
    intro q m hq
    rw [hwrite] at hq ⊢
    exact (h.present q m hq).trans_eq (List.length_set ..).symm
  case apart =>
    rw [hwrite]
    exact h.apart
  case nodup => exact nodup_of_update (h.read_write hread w) h hw

/-! ### Filling and changing -/

theorem shown_eq_ok_iff : s.shown r = .ok v ↔ s.read r = some v := by
  rw [shown]
  cases s.read r <;> simp

/-- The outcome of a call that fails: at most an unfinished estimate is left behind. -/
def IsFailure (s : Store α) (e : Error) (outcome : Except Error Unit × Store α) : Prop :=
  ∃ unfinished, outcome = (.error e, ⟨s.registers, s.estimates ++ unfinished⟩)

theorem isFailure_self (e : Error) : s.IsFailure e (.error e, s) := ⟨[], by rw [List.append_nil]⟩

section

variable {β : Type} {write : Values α → β → Except Error (Values α)} {e : Error}

theorem make_of_ok {items : List β} (h : items.foldlM write .empty = .ok w) (target : ℕ) :
    s.make target write items = (.ok (), s.hold target w) := by
  simp only [make, Values.filled_of_foldlM h]

theorem make_fails {items : List β} (h : items.foldlM write .empty = .error e) (target : ℕ) :
    s.IsFailure e (s.make target write items) := by
  obtain ⟨unfinished, hfilled⟩ := Values.filled_fails h
  exact ⟨[unfinished], by simp only [make, hfilled]⟩

variable {f : Values α → Except Error (Values α)}

theorem change_of_ok (h : (s.shown r >>= f) = .ok w) : s.change r f = (.ok (), s.write r w) := by
  simp only [change, h]

theorem change_fails (h : (s.shown r >>= f) = .error e) : s.IsFailure e (s.change r f) := by
  simpa only [change, h] using isFailure_self e

variable {items : Values α → List β}
  (hitems : ∀ v, s.read r = some v → (items v).foldlM write .empty = f v)

include hitems

theorem makeFrom_of_ok (h : (s.shown r >>= f) = .ok w) (target : ℕ) :
    s.makeFrom r target write items = (.ok (), s.hold target w) := by
  obtain ⟨v, hv, hw⟩ := bind_eq_ok.mp h
  rw [← hitems v (shown_eq_ok_iff.mp hv)] at hw
  simp only [makeFrom, hv, make_of_ok hw]

theorem makeFrom_fails (h : (s.shown r >>= f) = .error e) (target : ℕ) :
    s.IsFailure e (s.makeFrom r target write items) := by
  cases hv : s.shown r with
  | error cause =>
    simp only [hv, bind, Except.bind, Except.error.injEq] at h
    simpa only [makeFrom, hv, h] using isFailure_self e
  | ok v =>
    simp only [hv, bind, Except.bind, ← hitems v (shown_eq_ok_iff.mp hv)] at h
    simpa only [makeFrom, hv] using make_fails h target

end

end Store

variable [Scalar α]

/-! ### What may be stored -/

/-- A given value is a vector: an array with one axis at most, which has an entry at every place. -/
def Given.IsVector (value : Given α) (xs : Vec α) : Prop :=
  ∃ t, Tensor.ofGiven value = .ok t ∧ t.shape.length ≤ 1 ∧ t.data = xs ∧ xs.length = Tensor.places t.shape

theorem Given.vectorFor_eq_ok_iff {key : Key} {value : Given α} {xs : Vec α} :
    value.vectorFor key = .ok xs ↔ value.IsVector xs := by
  simp only [vectorFor, bind_eq_ok, Tensor.vectorFor, Tensor.vector?]
  constructor
  · rintro ⟨t, ht, hread⟩
    split_ifs at hread with haxes
    cases hread
    exact ⟨t, ht, haxes, rfl, Tensor.isRegular_of_ofGiven ht⟩
  · rintro ⟨t, ht, haxes, rfl, -⟩
    exact ⟨t, ht, by rw [if_pos haxes]⟩

theorem Given.isVector_ofVector (xs : Vec α) : (Given.ofVector xs).IsVector xs :=
  ⟨.ofVector xs, Tensor.ofGiven_ofVector xs, le_rfl, rfl, Tensor.isRegular_ofVector xs⟩

namespace Values

variable {v w : Values α} {key : Key} {value : Given α}

theorem insert_eq_ok_iff : v.insert key value = .ok w ↔
    key ∉ v.keys ∧ ∃ xs, value.IsVector xs ∧ w = ⟨v.entries ++ [(key, xs)]⟩ := by
  have hcontains : v.contains key = true ↔ key ∈ v.keys := Table.contains_iff ..
  rw [insert]
  split_ifs with h
  · simp [hcontains.mp h]
  · have hfresh : key ∉ v.keys := hcontains.not.mp h
    simp only [bind_eq_ok, Given.vectorFor_eq_ok_iff, hfresh, not_false_eq_true, true_and, pure, Except.pure,
      Except.ok.injEq, eq_comm (b := w)]

theorem update_eq_ok_iff : v.update key value = .ok w ↔
    ∃ old xs, v.entries.get? key = some old ∧ value.IsVector xs ∧ xs.length = old.length ∧
      w = ⟨v.entries.set key xs⟩ := by
  rw [update]
  split
  · next hold => simp [hold]
  · next old hold =>
    simp only [bind_eq_ok, Given.vectorFor_eq_ok_iff, hold]
    constructor
    · rintro ⟨xs, hxs, hwrite⟩
      split_ifs at hwrite with hlength
      cases hwrite
      exact ⟨old, xs, rfl, hxs, hlength, rfl⟩
    · rintro ⟨_, xs, ⟨⟩, hxs, hlength, rfl⟩
      exact ⟨xs, hxs, by rw [if_pos hlength]; rfl⟩

/-- The rows of an estimate that is put together are the given ones. -/
theorem rows_of_ofRows {rows : List (Key × Given α)} (h : ofRows rows = .ok w) :
    List.Forall₂ (fun row entry => entry.1 = row.1 ∧ row.2.IsVector entry.2) rows w.entries := by
  have hfold : ∀ (rows : List (Key × Given α)) (v : Values α),
      rows.foldlM (fun v row => v.insert row.1 row.2) v = .ok w → ∃ entries, w.entries = v.entries ++ entries ∧
        List.Forall₂ (fun row entry => entry.1 = row.1 ∧ row.2.IsVector entry.2) rows entries := by
    intro rows
    induction rows with
    | nil =>
      rintro v ⟨⟩
      exact ⟨[], (List.append_nil _).symm, .nil⟩
    | cons row rows ih =>
      intro v h
      obtain ⟨next, hnext, h⟩ := bind_eq_ok.mp h
      obtain ⟨-, xs, hxs, rfl⟩ := insert_eq_ok_iff.mp hnext
      obtain ⟨entries, hentries, hall⟩ := ih _ h
      exact ⟨(row.1, xs) :: entries, by rw [hentries, List.append_assoc]; rfl, .cons ⟨rfl, hxs⟩ hall⟩
  obtain ⟨entries, hentries, hall⟩ := hfold rows empty h
  exact hentries ▸ hall

/-! ### Estimates that are filled variable by variable -/

def insertRow (v : Values α) (row : Key × Given α) : Except Error (Values α) := v.insert row.1 row.2

/-- Write the vector of a variable, moved by a step, without a look at what is there. -/
def placeMoved (step : Delta α) (v : Values α) (row : Key × Vec α) : Except Error (Values α) :=
  (moved step row.1 row.2).map fun row => ⟨v.entries.set row.1 row.2⟩

omit [Scalar α] in
/-- A variable of a list without repetitions is none of those before it. -/
theorem notMem_of_nodup_append {row : Key × Vec α} {rows : Table (Vec α)}
    (h : (v.keys ++ Table.keys (row :: rows)).Nodup) : row.1 ∉ v.keys := fun hmem =>
  (List.nodup_append.mp h).2.2 _ hmem _ List.mem_cons_self rfl

/-- The variables of an estimate are all different, so that none is written over. -/
theorem foldlM_placeMoved (step : Delta α) {rows : Table (Vec α)} (h : (v.keys ++ Table.keys rows).Nodup) :
    rows.foldlM (placeMoved step) v =
      (rows.mapM fun row => moved step row.1 row.2).map fun rows => ⟨v.entries ++ rows⟩ := by
  induction rows generalizing v with
  | nil => simp [Except.map, pure, Except.pure]
  | cons row rows ih =>
    rw [List.foldlM_cons, List.mapM_cons, placeMoved]
    cases hmoved : moved step row.1 row.2 with
    | error e => rfl
    | ok row' =>
      obtain ⟨hkey, -⟩ := moved_eq_ok hmoved
      have hset : v.entries.set row'.1 row'.2 = v.entries ++ [row'] :=
        Table.set_of_not_mem (hkey ▸ notMem_of_nodup_append h) _
      have hnodup : ((⟨v.entries ++ [row']⟩ : Values α).keys ++ Table.keys rows).Nodup := by
        simpa [keys, Table.keys, hkey] using h
      simp only [Except.map, hset, bind, Except.bind, ih hnodup]
      cases rows.mapM fun row => moved step row.1 row.2 with
      | error e => rfl
      | ok rows' => simp [pure, Except.pure]

theorem foldlM_placeMoved_empty (h : v.keys.Nodup) (step : Delta α) :
    v.entries.foldlM (placeMoved step) empty = v.retract step :=
  foldlM_placeMoved step h

/-- Different variables that are new are listed at the end. -/
theorem foldlM_insertRow {rows : Table (Vec α)} (h : (v.keys ++ Table.keys rows).Nodup) :
    (rows.map fun row => (row.1, Given.ofVector row.2)).foldlM insertRow v = .ok ⟨v.entries ++ rows⟩ := by
  induction rows generalizing v with
  | nil => simp [pure, Except.pure]
  | cons row rows ih =>
    have hinsert : insertRow v (row.1, .ofVector row.2) = .ok ⟨v.entries ++ [row]⟩ :=
      insert_eq_ok_iff.mpr ⟨notMem_of_nodup_append h, row.2, Given.isVector_ofVector row.2, rfl⟩
    have hnodup : ((⟨v.entries ++ [row]⟩ : Values α).keys ++ Table.keys rows).Nodup := by
      simpa [keys, Table.keys] using h
    rw [List.map_cons, List.foldlM_cons, hinsert]
    simpa [bind, Except.bind] using ih hnodup

/-- **A copy is the same estimate.** -/
theorem copy_eq (h : v.keys.Nodup) : v.copy = .ok v :=
  foldlM_insertRow (v := empty) h

omit [Scalar α] in
theorem dims_set {old xs : Vec α} (hold : v.entries.get? key = some old) (hlength : xs.length = old.length) :
    (⟨v.entries.set key xs⟩ : Values α).dims = v.dims := by
  rw [dims, Table.mapEntries_set, hlength]
  refine Table.set_eq_self ?_
  rw [Table.get?_mapEntries, hold, Option.map_some]

end Values

/-! ### Calls -/

namespace Store

/-- A call with the registers that it is about; `target` is the register that is to hold a new estimate. -/
inductive Call (α : Type) where
  | build (rows : List (Key × Given α)) (target : ℕ)
  | insert (register : ℕ) (key : Key) (value : Given α)
  | update (register : ℕ) (key : Key) (value : Given α)
  | retract (register : ℕ) (step : Delta α) (target : ℕ)
  | copy (register target : ℕ)

/-- The register that shows the result of a call. -/
def Call.target : Call α → ℕ
  | build _ target | retract _ _ target | copy _ target => target
  | insert register _ _ | update register _ _ => register

/-- The register that holds another estimate after a call, if one does. -/
def Call.rebound? : Call α → Option ℕ
  | build _ target | retract _ _ target | copy _ target => some target
  | insert .. | update .. => none

/-- What a call returns, and what stands after it. -/
def call (s : Store α) : Call α → Except Error Unit × Store α
  | .build rows target => s.make target Values.insertRow (Table.ofRows rows)
  | .insert register key value => s.change register fun v => v.insert key value
  | .update register key value => s.change register fun v => v.update key value
  | .retract register step target =>
    s.makeFrom register target (Values.placeMoved step) fun v => v.entries
  | .copy register target =>
    s.makeFrom register target Values.insertRow fun v => v.entries.map fun row => (row.1, .ofVector row.2)

/-- What stands after calls, one after another. -/
def run (s : Store α) (calls : List (Call α)) : Store α := calls.foldl (fun s c => (s.call c).2) s

/-- The estimate that a call is to give, by what the registers show. -/
def outcome (s : Store α) : Call α → Except Error (Values α)
  | .build rows _ => Values.ofRows (Table.ofRows rows)
  | .insert register key value => s.shown register >>= fun v => v.insert key value
  | .update register key value => s.shown register >>= fun v => v.update key value
  | .retract register step _ => s.shown register >>= fun v => v.retract step
  | .copy register _ => s.shown register >>= fun v => v.copy

/-- The store after a call that gives an estimate. -/
def after (s : Store α) (w : Values α) : Call α → Store α
  | .build _ target | .retract _ _ target | .copy _ target => s.hold target w
  | .insert register _ _ | .update register _ _ => s.write register w

variable {s : Store α} {c : Call α} {r : ℕ} {v w : Values α} {e : Error}

/-- **A call does what its outcome says**, though it works in place or variable by variable. -/
theorem IsSound.call_of_ok (h : s.IsSound) (hw : s.outcome c = .ok w) : s.call c = (.ok (), s.after w c) := by
  cases c with
  | build rows target => exact make_of_ok hw target
  | insert r key value => exact change_of_ok hw
  | update r key value => exact change_of_ok hw
  | retract r step target =>
    exact makeFrom_of_ok (fun v hv => Values.foldlM_placeMoved_empty (h.nodup r v hv) step) hw target
  | copy r target => exact makeFrom_of_ok (f := Values.copy) (fun _ _ => rfl) hw target

theorem IsSound.call_fails (h : s.IsSound) (he : s.outcome c = .error e) : s.IsFailure e (s.call c) := by
  cases c with
  | build rows target => exact make_fails he target
  | insert r key value => exact change_fails he
  | update r key value => exact change_fails he
  | retract r step target =>
    exact makeFrom_fails (fun v hv => Values.foldlM_placeMoved_empty (h.nodup r v hv) step) he target
  | copy r target => exact makeFrom_fails (f := Values.copy) (fun _ _ => rfl) he target

/-! ### What is shown over a history -/

/-- **What an estimate consists of that a call gives**: vectors that are given, or those of an estimate that
    a register shows, under the same variables in the same order. -/
inductive Makes (s : Store α) : Call α → Values α → Prop where
  | build {rows : List (Key × Given α)} {w : Values α} (target : ℕ)
      (hrows : List.Forall₂ (fun row entry => entry.1 = row.1 ∧ row.2.IsVector entry.2)
        (Table.ofRows rows) w.entries) : Makes s (.build rows target) w
  | insert {r : ℕ} {v : Values α} {key : Key} {value : Given α} {xs : Vec α} (hread : s.read r = some v)
      (hfresh : key ∉ v.keys) (hvalue : value.IsVector xs) :
      Makes s (.insert r key value) ⟨v.entries ++ [(key, xs)]⟩
  | update {r : ℕ} {v : Values α} {key : Key} {value : Given α} {old xs : Vec α} (hread : s.read r = some v)
      (hold : v.entries.get? key = some old) (hvalue : value.IsVector xs) (hlength : xs.length = old.length) :
      Makes s (.update r key value) ⟨v.entries.set key xs⟩
  | retract {r : ℕ} {v w : Values α} {step : Delta α} (target : ℕ) (hread : s.read r = some v)
      (hretract : v.retract step = .ok w) (hdims : w.dims = v.dims) : Makes s (.retract r step target) w
  | copy {r : ℕ} {v : Values α} (target : ℕ) (hread : s.read r = some v) : Makes s (.copy r target) v

theorem IsSound.makes (h : s.IsSound) (hw : s.outcome c = .ok w) : s.Makes c w := by
  cases c with
  | build rows target => exact .build target (Values.rows_of_ofRows hw)
  | insert r key value =>
    obtain ⟨v, hv, hinsert⟩ := bind_eq_ok.mp hw
    obtain ⟨hfresh, xs, hxs, rfl⟩ := Values.insert_eq_ok_iff.mp hinsert
    exact .insert (shown_eq_ok_iff.mp hv) hfresh hxs
  | update r key value =>
    obtain ⟨v, hv, hupdate⟩ := bind_eq_ok.mp hw
    obtain ⟨old, xs, hold, hxs, hlength, rfl⟩ := Values.update_eq_ok_iff.mp hupdate
    exact .update (shown_eq_ok_iff.mp hv) hold hxs hlength
  | retract r step target =>
    obtain ⟨v, hv, hretract⟩ := bind_eq_ok.mp hw
    exact .retract target (shown_eq_ok_iff.mp hv) hretract (Values.dims_of_retract hretract)
  | copy r target =>
    obtain ⟨v, hv, hcopy⟩ := bind_eq_ok.mp hw
    have hread := shown_eq_ok_iff.mp hv
    rw [Values.copy_eq (h.nodup r v hread)] at hcopy
    cases hcopy
    exact .copy target hread

theorem Makes.nodup (hmakes : s.Makes c w) (h : s.IsSound) : w.keys.Nodup := by
  cases hmakes with
  | @build rows w target hrows =>
    have hsame : List.Forall₂ (fun row entry => row.1 = entry.1) (Table.ofRows rows) w.entries :=
      hrows.imp fun _ _ hrow => hrow.1.symm
    have hkeys : (Table.ofRows rows).keys = w.keys := by
      rw [← List.forall₂_eq_eq_eq]
      exact List.forall₂_map_left_iff.mpr (List.forall₂_map_right_iff.mpr hsame)
    exact hkeys ▸ Table.nodup_ofRows rows
  | @insert r v key value xs hread hfresh hvalue =>
    simpa [Values.keys, Table.keys] using (h.nodup r v hread).concat hfresh
  | @update r v key value old xs hread hold hvalue hlength =>
    have hkeys := Table.keys_set_of_mem (Table.mem_keys_of_get? hold) xs
    exact (congrArg List.Nodup hkeys).mpr (h.nodup r v hread)
  | @retract r v w step target hread hretract hdims =>
    have hkeys := congrArg Table.keys hdims
    rw [Values.dims, Values.dims, Table.keys_mapEntries, Table.keys_mapEntries] at hkeys
    exact (congrArg List.Nodup hkeys).mpr (h.nodup r v hread)
  | copy target hread => exact h.nodup _ _ hread

/-- An estimate that is changed in place keeps its variables, their order and their sizes. -/
theorem Makes.dims_prefix (hmakes : s.Makes c w) (hplace : c.rebound? = none)
    (hread : s.read c.target = some v) : v.dims <+: w.dims := by
  cases hmakes with
  | insert hread' hfresh hvalue =>
    cases hread.symm.trans hread'
    exact ⟨_, (List.map_append ..).symm⟩
  | update hread' hold hvalue hlength =>
    cases hread.symm.trans hread'
    rw [Values.dims_set hold hlength]
  | build | retract | copy => cases hplace

/-- What the registers show after a call that succeeds. -/
theorem IsSound.read_after (h : s.IsSound) (hmakes : s.Makes c w) :
    (s.after w c).read = Function.update s.read c.target (some w) := by
  cases hmakes with
  | build target | retract target | copy target => exact h.read_hold target _
  | insert hread | update hread => exact h.read_write hread _

theorem IsSound.after (h : s.IsSound) (hmakes : s.Makes c w) : (s.after w c).IsSound := by
  have hnodup := hmakes.nodup h
  cases hmakes with
  | build target | retract target | copy target => exact h.hold target hnodup
  | insert hread | update hread => exact h.write hread hnodup

/-- A call for another register does not change what a register shows. -/
theorem IsSound.read_call_of_ne (h : s.IsSound) (hne : c.target ≠ r) : (s.call c).2.read r = s.read r := by
  cases hw : s.outcome c with
  | ok w => rw [h.call_of_ok hw, h.read_after (h.makes hw), Function.update_of_ne hne.symm]
  | error e =>
    obtain ⟨unfinished, hcall⟩ := h.call_fails hw
    rw [hcall, h.read_append]

theorem IsSound.call (h : s.IsSound) (c : Call α) : (s.call c).2.IsSound := by
  cases hw : s.outcome c with
  | ok w => exact (h.call_of_ok hw).symm ▸ h.after (h.makes hw)
  | error e =>
    obtain ⟨unfinished, hcall⟩ := h.call_fails hw
    exact hcall.symm ▸ h.append unfinished

theorem IsSound.run (h : s.IsSound) (calls : List (Call α)) : (s.run calls).IsSound := by
  induction calls generalizing s with
  | nil => exact h
  | cons c calls ih => exact ih (h.call c)

/-- What a register shows after a call for it that keeps its estimate: the same variables, in the same order
    and of the same sizes, and perhaps one more. -/
theorem IsSound.grows_call (h : s.IsSound) (hread : s.read r = some v) (hbound : c.rebound? ≠ some r) :
    ∃ w, (s.call c).2.read r = some w ∧ v.dims <+: w.dims := by
  by_cases hne : c.target = r
  · have hplace : c.rebound? = none := by
      cases c <;> first | rfl | exact absurd (congrArg some hne) hbound
    cases hw : s.outcome c with
    | ok w =>
      have hmakes := h.makes hw
      refine ⟨w, ?_, hmakes.dims_prefix hplace (hne ▸ hread)⟩
      rw [h.call_of_ok hw, h.read_after hmakes, hne, Function.update_self]
    | error e =>
      obtain ⟨unfinished, hcall⟩ := h.call_fails hw
      exact ⟨v, by rw [hcall, h.read_append, hread], List.prefix_refl _⟩
  · exact ⟨v, by rw [h.read_call_of_ne hne, hread], List.prefix_refl _⟩

theorem IsSound.grows_run (h : s.IsSound) (hread : s.read r = some v) {calls : List (Call α)}
    (hbound : ∀ c ∈ calls, c.rebound? ≠ some r) : ∃ w, (s.run calls).read r = some w ∧ v.dims <+: w.dims := by
  induction calls generalizing s v with
  | nil => exact ⟨v, hread, List.prefix_refl _⟩
  | cons c calls ih =>
    obtain ⟨u, hu, hgrows⟩ := h.grows_call hread (hbound c List.mem_cons_self)
    obtain ⟨w, hw, hrest⟩ := ih (h.call c) hu fun c hc => hbound c (List.mem_cons_of_mem _ hc)
    exact ⟨w, hw, hgrows.trans hrest⟩

theorem IsSound.read_run_of_ne (h : s.IsSound) {calls : List (Call α)} (hne : ∀ c ∈ calls, c.target ≠ r) :
    (s.run calls).read r = s.read r := by
  induction calls generalizing s with
  | nil => rfl
  | cons c calls ih =>
    exact (ih (h.call c) fun c hc => hne c (List.mem_cons_of_mem _ hc)).trans
      (h.read_call_of_ne (hne c List.mem_cons_self))

/-- **Estimates over any history of calls.**  In every register the variables are different.  A call that fails
    is not seen in any register.  One that succeeds is seen in its register only, which shows what the call
    makes: vectors that are given, in the order of their insertion, or the variables of the source in their
    order and of their sizes; and an estimate that is made anew changes none that is there.  From then on the
    register shows the same variables, in the same order and of the same sizes, with new ones behind them,
    until it is bound to another estimate; and only calls for the register itself change what it shows. -/
theorem estimates_over_history (calls : List (Call α)) {s : Store α} (hs : empty.run calls = s) :
    (∀ r v, s.read r = some v → v.keys.Nodup) ∧
      (∀ c e, s.outcome c = .error e → (s.call c).1 = .error e ∧ (s.call c).2.read = s.read) ∧
      (∀ c w, s.outcome c = .ok w → (s.call c).1 = .ok () ∧ s.Makes c w ∧
        (s.call c).2.read = Function.update s.read c.target (some w) ∧
        (c.rebound? ≠ none → s.estimates <+: (s.call c).2.estimates)) ∧
      ∀ later : List (Call α),
        (∀ r v, s.read r = some v → (∀ c ∈ later, c.rebound? ≠ some r) →
          ∃ w, (s.run later).read r = some w ∧ v.dims <+: w.dims) ∧
        ∀ r, (∀ c ∈ later, c.target ≠ r) → (s.run later).read r = s.read r := by
  have h : s.IsSound := hs ▸ isSound_empty.run calls
  refine ⟨h.nodup, fun c e he => ?_, fun c w hw => ?_, fun later =>
    ⟨fun r v hread hbound => h.grows_run hread hbound, fun r hne => h.read_run_of_ne hne⟩⟩
  · obtain ⟨unfinished, hcall⟩ := h.call_fails he
    exact ⟨by rw [hcall], by rw [hcall, h.read_append]⟩
  · have hcall := h.call_of_ok hw
    refine ⟨by rw [hcall], h.makes hw, by rw [hcall, h.read_after (h.makes hw)], fun hnew => ?_⟩
    rw [hcall]
    cases c with
    | build | retract | copy => exact List.prefix_append ..
    | insert | update => exact absurd rfl hnew

/-! An estimate of two numbers, copied, and then changed on both sides. -/

namespace Copied

def calls : List (Call ℝ) := [.build [(.number 0, .ofVector [1, 0])] 0, .copy 0 1]

def original : Values ℝ := ⟨[(.number 0, [1, 0])]⟩

def step : Delta ℝ := ⟨[(.number 1, [1]), (.number 0, [1, -1])]⟩

/-- The copy gets another variable and the original another vector; neither sees it of the other.  What the
    original cannot take is not seen at all, and where it is moved to is seen in a register of its own. -/
theorem estimates_over_history_copied :
    ((empty.run calls).run [.insert 1 (.number 1) (.ofVector [3])]).read 0 = some original ∧
      (∃ w, ((empty.run calls).run [.insert 1 (.number 1) (.ofVector [3])]).read 1 = some w ∧
        original.dims <+: w.dims) ∧
      ((empty.run calls).run [.update 0 (.number 0) (.ofVector [5, 6])]).read 1 = some original ∧
      ((empty.run calls).call (.insert 0 (.number 0) (.ofVector [3]))).1 =
        .error (.duplicateVariable (.number 0)) ∧
      ((empty.run calls).call (.insert 0 (.number 0) (.ofVector [3]))).2.read 0 = some original ∧
      ((empty.run calls).call (.retract 0 step 2)).2.read 2 = some ⟨[(.number 0, [1 + 1, 0 + -1])]⟩ ∧
      ((empty.run calls).call (.retract 0 step 2)).2.read 0 = some original := by
  have hfirst : (empty.run calls).read 0 = some original := rfl
  have hsecond : (empty.run calls).read 1 = some original := rfl
  obtain ⟨-, hfails, hsucceeds, hlater⟩ := estimates_over_history calls rfl
  obtain ⟨hgrows, hapart⟩ := hlater [.insert 1 (.number 1) (.ofVector [3])]
  obtain ⟨-, hapart'⟩ := hlater [.update 0 (.number 0) (.ofVector [5, 6])]
  obtain ⟨herror, hread⟩ := hfails (.insert 0 (.number 0) (.ofVector [3])) (.duplicateVariable (.number 0)) rfl
  obtain ⟨-, -, hmoved, -⟩ := hsucceeds (.retract 0 step 2) ⟨[(.number 0, [1 + 1, 0 + -1])]⟩ rfl
  refine ⟨(hapart 0 ?_).trans hfirst, hgrows 1 original hsecond ?_, (hapart' 1 ?_).trans hsecond, herror, ?_, ?_, ?_⟩
  · simp [Call.target]
  · simp [Call.rebound?]
  · simp [Call.target]
  · rw [hread, hfirst]
  · rw [hmoved, Call.target, Function.update_self]
  · rw [hmoved, Call.target, Function.update_of_ne (by decide), hfirst]

end Copied

end Store

end LeastSquares
