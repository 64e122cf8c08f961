/-
  LeastSquares/Proofs/FactorNames.lean
  ====================================
  **The names of factors stay distinct in every graph, and one that a graph gives is taken only where a
  factor came with it.**

  A factor is one object, however many graphs it is handed to: the first graph names it, if it comes
  without a name, and it keeps that name from then on, also when the graph refuses it.  So what a history
  of calls leads to is told of several graphs and of the factors that are handed to them, together.

  The name that a graph gives says at what place the factor would stand, and no two places give the same
  name.  Therefore a name that is to be given can be taken only by a factor that was handed to the graph
  under that name: it was named before, by hand or by another graph.
-/
import LeastSquares.Graph
import LeastSquares.Proofs.Reals
import LeastSquares.Proofs.Steps

namespace LeastSquares

variable {α : Type}

/-! ### The names that graphs give -/

namespace Graph

/-- The name for a factor of a kind at a place. -/
def placeName (kind : String) (place : ℕ) : String := kind.toLower ++ "_" ++ toString place

theorem givenId_eq (g : Graph α) (f : Factor α) :
    g.givenId f = placeName f.measurement.kind g.size := rfl

/-- What follows the last underscore of a text is settled by the text. -/
theorem suffix_unique {as bs xs ys : List Char} (hxs : '_' ∉ xs) (hys : '_' ∉ ys)
    (h : as ++ '_' :: xs = bs ++ '_' :: ys) : xs = ys := by
  -- with more before the underscore on one side, that underscore would stand behind the other one
  have hsame : ∀ {cs xs ys : List Char}, '_' ∉ xs → '_' :: xs = cs ++ '_' :: ys → xs = ys := by
    intro cs xs ys hxs h
    cases cs with
    | nil => exact (List.cons_inj_right _).mp h
    | cons c cs =>
      obtain ⟨-, rfl⟩ := List.cons_eq_cons.mp h
      exact absurd (by simp) hxs
  obtain ⟨cs, -, hrest⟩ | ⟨cs, -, hrest⟩ := List.append_eq_append_iff.mp h
  · exact hsame hxs hrest
  · exact (hsame hys hrest).symm

/-- **Different places give different names**, whatever the kinds. -/
theorem placeName_inj {kind other : String} {m n : ℕ} (h : placeName kind m = placeName other n) :
    m = n := by
  have hlists := congrArg String.toList h
  simp only [placeName, String.toList_append, List.append_assoc, Nat.toString_eq_repr,
    Nat.toList_repr] at hlists
  have hdigits := suffix_unique Nat.underscore_not_in_toDigits Nat.underscore_not_in_toDigits hlists
  rw [← Nat.ofDigitChars_ten_toDigits (n := m), hdigits, Nat.ofDigitChars_ten_toDigits]

/-! ### One call -/

variable {g : Graph α} {f : Factor α}

theorem named_of_id (h : f.id ≠ none) : g.named f = f := by
  obtain ⟨name, hname⟩ := Option.ne_none_iff_exists'.mp h
  simp [named, hname]

theorem named_of_none (h : f.id = none) : g.named f = { f with id := some (g.givenId f) } := by
  simp [named, h]

theorem named_id (g : Graph α) (f : Factor α) : (g.named f).id = some (g.named f).label := by
  cases h : f.id <;> simp [named, h, Factor.label]

theorem label_named_of_none (h : f.id = none) : (g.named f).label = g.givenId f := by
  rw [named_of_none h]
  rfl

theorem label_named_of_some {name : String} (h : f.id = some name) : (g.named f).label = name := by
  rw [named_of_id (by simp [h]), Factor.label, h]
  rfl

theorem add_of_notMem (h : (g.named f).label ∉ g.ids) :
    g.add f = (g.named f, .ok ⟨g.factors ++ [g.named f]⟩) := by
  simp [add, h]

theorem add_of_mem (h : (g.named f).label ∈ g.ids) :
    g.add f = (g.named f, .error (.duplicateFactor (g.named f).label)) := by
  simp [add, h]

end Graph

/-! ### Several graphs and the factors that are handed to them -/

/-- Several graphs and factors, each with its number. -/
structure Workshop (α : Type) where
  graphs : ℕ → Graph α
  factors : ℕ → Factor α

/-- A call: the number of a graph, and that of the factor that is to be added to it. -/
structure Handover where
  graph : ℕ
  factor : ℕ

namespace Workshop

/-- Factors as they are given, while all graphs are empty. -/
def stocked (factors : ℕ → Factor α) : Workshop α := ⟨fun _ => .empty, factors⟩

/-- What a call returns, and what stands after it: the factor has its name also when it is refused. -/
def hand (w : Workshop α) (c : Handover) : Except Error Unit × Workshop α :=
  let (f, outcome) := (w.graphs c.graph).add (w.factors c.factor)
  let factors := Function.update w.factors c.factor f
  match outcome with
  | .ok g => (.ok (), ⟨Function.update w.graphs c.graph g, factors⟩)
  | .error e => (.error e, ⟨w.graphs, factors⟩)

/-- What stands after calls, one after another. -/
def run (w : Workshop α) (calls : List Handover) : Workshop α :=
  calls.foldl (fun w c => (w.hand c).2) w

/-- The factor of a call with the name that it has in its graph. -/
def called (w : Workshop α) (c : Handover) : Factor α :=
  (w.graphs c.graph).named (w.factors c.factor)

/-- Some call of a history hands a graph a factor that bears a name already. -/
def HandsAs (w : Workshop α) (calls : List Handover) (graph : ℕ) (name : String) : Prop :=
  ∃ before c after, calls = before ++ c :: after ∧ c.graph = graph ∧
    ((w.run before).factors c.factor).id = some name

variable {w : Workshop α} {c : Handover} {calls : List Handover}

@[simp] theorem run_append_singleton (w : Workshop α) (calls : List Handover) (c : Handover) :
    w.run (calls ++ [c]) = ((w.run calls).hand c).2 := List.foldl_concat ..

theorem hand_of_notMem (h : (w.called c).label ∉ (w.graphs c.graph).ids) :
    w.hand c = (.ok (), ⟨Function.update w.graphs c.graph ⟨(w.graphs c.graph).factors ++ [w.called c]⟩,
      Function.update w.factors c.factor (w.called c)⟩) := by
  rw [hand, Graph.add_of_notMem h]
  rfl

theorem hand_of_mem (h : (w.called c).label ∈ (w.graphs c.graph).ids) :
    w.hand c = (.error (.duplicateFactor (w.called c).label),
      ⟨w.graphs, Function.update w.factors c.factor (w.called c)⟩) := by
  rw [hand, Graph.add_of_mem h]
  rfl

/-- A call succeeds just where the name is free. -/
theorem hand_eq_ok_iff (w : Workshop α) (c : Handover) :
    (w.hand c).1 = .ok () ↔ (w.called c).label ∉ (w.graphs c.graph).ids := by
  by_cases hmem : (w.called c).label ∈ (w.graphs c.graph).ids
  · simp [hand_of_mem hmem, hmem]
  · simp [hand_of_notMem hmem, hmem]

/-- The factors after a call: the one that was handed over has its name. -/
theorem factors_hand (w : Workshop α) (c : Handover) :
    (w.hand c).2.factors = Function.update w.factors c.factor (w.called c) := by
  by_cases hmem : (w.called c).label ∈ (w.graphs c.graph).ids
  · rw [hand_of_mem hmem]
  · rw [hand_of_notMem hmem]

/-- A graph after a call: as it was, or with the factor of the call at its end, whose name was free. -/
theorem graphs_hand (w : Workshop α) (c : Handover) (i : ℕ) :
    (w.hand c).2.graphs i = w.graphs i ∨ i = c.graph ∧ (w.called c).label ∉ (w.graphs i).ids ∧
      (w.hand c).2.graphs i = ⟨(w.graphs i).factors ++ [w.called c]⟩ := by
  by_cases hmem : (w.called c).label ∈ (w.graphs c.graph).ids
  · exact .inl (by rw [hand_of_mem hmem])
  · rw [hand_of_notMem hmem]
    obtain rfl | hother := eq_or_ne i c.graph
    · exact .inr ⟨rfl, hmem, Function.update_self ..⟩
    · exact .inl (Function.update_of_ne hother ..)

/-! ### What every history keeps -/

/-- **Graphs that share factors**: in each the names are different, and each of their factors has a name
    and is one of the factors as these are now. -/
structure IsShared (w : Workshop α) : Prop where
  nodup : ∀ i, (w.graphs i).ids.Nodup
  named : ∀ i, ∀ f ∈ (w.graphs i).factors, f.id ≠ none
  present : ∀ i, ∀ f ∈ (w.graphs i).factors, ∃ j, w.factors j = f

theorem isShared_stocked (factors : ℕ → Factor α) : (stocked factors).IsShared :=
  ⟨fun _ => .nil, fun _ _ h => absurd h List.not_mem_nil, fun _ _ h => absurd h List.not_mem_nil⟩

/-- A factor that has got its name is not touched by naming it. -/
theorem IsShared.present_update (h : w.IsShared) (c : Handover) (i : ℕ) {f : Factor α}
    (hf : f ∈ (w.graphs i).factors) : ∃ j, Function.update w.factors c.factor (w.called c) j = f := by
  obtain ⟨j, rfl⟩ := h.present i f hf
  refine ⟨j, ?_⟩
  obtain rfl | hother := eq_or_ne j c.factor
  · rw [Function.update_self, called, Graph.named_of_id (h.named i _ hf)]
  · rw [Function.update_of_ne hother]

theorem IsShared.hand (h : w.IsShared) (c : Handover) : (w.hand c).2.IsShared := by
  have hmembers : ∀ i, ∀ f ∈ ((w.hand c).2.graphs i).factors, f ∈ (w.graphs i).factors ∨ f = w.called c := by
    intro i f hf
    obtain hsame | ⟨-, -, hadded⟩ := w.graphs_hand c i
    · exact .inl (hsame ▸ hf)
    · rw [hadded] at hf
      simpa using hf
  constructor
  case nodup =>
    intro i
    obtain hsame | ⟨-, hfree, hadded⟩ := w.graphs_hand c i
    · rw [hsame]
      exact h.nodup i
    · rw [hadded, Graph.ids, List.map_append, List.map_singleton, ← List.concat_eq_append]
      exact (h.nodup i).concat hfree
  case named =>
    intro i f hf
    obtain hold | rfl := hmembers i f hf
    · exact h.named i f hold
    · rw [called, Graph.named_id]
      exact Option.some_ne_none _
  case present =>
    intro i f hf
    rw [factors_hand]
    obtain hold | rfl := hmembers i f hf
    · exact h.present_update c i hold
    · exact ⟨c.factor, Function.update_self ..⟩

theorem IsShared.run (h : w.IsShared) (calls : List Handover) : (w.run calls).IsShared := by
  induction calls generalizing w with
  | nil => exact h
  | cons c calls ih => exact ih (h.hand c)

/-! ### Where a name that is to be given is taken -/

/-- Each factor of a graph has the name of its place, or was handed to the graph under its name. -/
def NamesExplained (w : Workshop α) (calls : List Handover) : Prop :=
  ∀ i place f, ((w.run calls).graphs i).factors[place]? = some f →
    f.label = Graph.placeName f.measurement.kind place ∨ w.HandsAs calls i f.label

theorem HandsAs.append {i : ℕ} {name : String} (h : w.HandsAs calls i name) (more : List Handover) :
    w.HandsAs (calls ++ more) i name := by
  obtain ⟨before, c, after, rfl, hgraph, hid⟩ := h
  exact ⟨before, c, after ++ more, by simp, hgraph, hid⟩

theorem namesExplained_run (factors : ℕ → Factor α) (calls : List Handover) :
    (stocked factors).NamesExplained calls := by
  induction calls using List.reverseRecOn with
  | nil => exact fun i place f hf => by simp [run, stocked, Graph.empty] at hf
  | append_singleton calls c ih =>
    intro i place f hf
    rw [run_append_singleton] at hf
    have hold (h : (((stocked factors).run calls).graphs i).factors[place]? = some f) :=
      (ih i place f h).imp_right (·.append [c])
    obtain hsame | ⟨rfl, -, hadded⟩ := graphs_hand ((stocked factors).run calls) c i
    · exact hold (hsame ▸ hf)
    -- the factor of the call stands at the end: it came with its name, or has got that of its place
    rw [hadded, getElem?_concat_eq_some] at hf
    obtain hbefore | ⟨rfl, rfl⟩ := hf
    · exact hold hbefore
    cases hid : (((stocked factors).run calls).factors c.factor).id with
    | none =>
      refine .inl ?_
      rw [called, Graph.label_named_of_none hid, Graph.named_measurement, Graph.givenId_eq]
      rfl
    | some name =>
      refine .inr ⟨calls, c, [], rfl, rfl, ?_⟩
      rw [hid, called, Graph.label_named_of_some hid]

/-- A graph keeps its names from call to call. -/
theorem ids_subset_hand (w : Workshop α) (c : Handover) (i : ℕ) :
    (w.graphs i).ids ⊆ ((w.hand c).2.graphs i).ids := by
  obtain hsame | ⟨-, -, hadded⟩ := w.graphs_hand c i
  · rw [hsame]
    exact List.Subset.refl _
  · rw [hadded, Graph.ids, Graph.ids, List.map_append]
    exact List.subset_append_left ..

theorem ids_subset_run (w : Workshop α) (calls : List Handover) (i : ℕ) :
    (w.graphs i).ids ⊆ ((w.run calls).graphs i).ids := by
  induction calls generalizing w with
  | nil => exact List.Subset.refl _
  | cons c calls ih => exact List.Subset.trans (w.ids_subset_hand c i) (ih _)

/-- After a call the graph has the name of the factor, whether that was taken before or not. -/
theorem label_mem_hand (w : Workshop α) (c : Handover) :
    (w.called c).label ∈ ((w.hand c).2.graphs c.graph).ids := by
  by_cases hmem : (w.called c).label ∈ (w.graphs c.graph).ids
  · exact w.ids_subset_hand c _ hmem
  · rw [hand_of_notMem hmem]
    dsimp only
    rw [Function.update_self, Graph.ids, List.map_append]
    exact List.mem_append_right _ (List.mem_singleton.mpr rfl)

theorem HandsAs.mem_ids {i : ℕ} {name : String} (h : w.HandsAs calls i name) :
    name ∈ ((w.run calls).graphs i).ids := by
  obtain ⟨before, c, after, rfl, rfl, hid⟩ := h
  have hmem := (w.run before).label_mem_hand c
  rw [called, Graph.label_named_of_some hid] at hmem
  rw [run, List.foldl_append, List.foldl_cons]
  exact ids_subset_run _ after _ hmem

/-- **A name that a graph is to give is taken just where the graph was handed a factor under it**: the
    names that it gave itself are those of places before. -/
theorem givenId_mem_iff (factors : ℕ → Factor α) (calls : List Handover) (i : ℕ) (f : Factor α) :
    (((stocked factors).run calls).graphs i).givenId f ∈ (((stocked factors).run calls).graphs i).ids ↔
      (stocked factors).HandsAs calls i ((((stocked factors).run calls).graphs i).givenId f) := by
  refine ⟨fun hmem => ?_, HandsAs.mem_ids⟩
  obtain ⟨m, hm, hlabel⟩ := List.mem_map.mp hmem
  obtain ⟨place, hplace⟩ := List.mem_iff_getElem?.mp hm
  obtain hown | hhanded := namesExplained_run factors calls i place m hplace
  · -- the place would be the one behind all factors
    have hend := Graph.placeName_inj ((hlabel.symm.trans hown).symm.trans (Graph.givenId_eq _ f))
    exact absurd (List.getElem?_eq_some_iff.mp hplace).1 (by rw [hend]; exact Nat.lt_irrefl _)
  · rwa [← hlabel]

/-! ### Every history of calls -/

/-- **What adding a factor does, after any history of calls on several graphs that share factors.**  The
    names in every graph are different, and its factors are the ones that were handed to it, as they are
    now.  A call that succeeds adds the factor at the end, under its own name or
    the one that the graph gives, which was free, and changes nothing else.  A call that fails says which
    name is taken; it changes no graph, and nothing at all if the factor came with the name.  A factor
    without a name succeeds unless the graph was handed, at some time, a factor that bore the name already
    which would be given now; and the name sticks to it in either case. -/
theorem hand_after_run (factors : ℕ → Factor α) (calls : List Handover) (c : Handover)
    {w : Workshop α} (hw : (stocked factors).run calls = w) :
    w.IsShared ∧
      ((w.hand c).1 = .ok () → (w.called c).label ∉ (w.graphs c.graph).ids ∧ (w.hand c).2 =
        ⟨Function.update w.graphs c.graph ⟨(w.graphs c.graph).factors ++ [w.called c]⟩,
          Function.update w.factors c.factor (w.called c)⟩) ∧
      (∀ e, (w.hand c).1 = .error e → e = .duplicateFactor (w.called c).label ∧
        (w.called c).label ∈ (w.graphs c.graph).ids ∧ (w.hand c).2.graphs = w.graphs ∧
        ((w.factors c.factor).id ≠ none → (w.hand c).2 = w)) ∧
      ((w.factors c.factor).id = none →
        w.called c = { w.factors c.factor with
          id := some ((w.graphs c.graph).givenId (w.factors c.factor)) } ∧
        ((w.hand c).1 = .ok () ↔ ¬(stocked factors).HandsAs calls c.graph (w.called c).label) ∧
        (w.hand c).2.factors = Function.update w.factors c.factor (w.called c)) := by
  subst hw
  refine ⟨(isShared_stocked factors).run calls, ?_, ?_, ?_⟩
  · intro hok
    have hfree := (hand_eq_ok_iff _ c).mp hok
    exact ⟨hfree, by rw [hand_of_notMem hfree]⟩
  · intro e he
    have hmem : (((stocked factors).run calls).called c).label ∈
        (((stocked factors).run calls).graphs c.graph).ids := by
      by_contra hfree
      rw [(hand_eq_ok_iff _ c).mpr hfree] at he
      cases he
    rw [hand_of_mem hmem] at he ⊢
    refine ⟨(Except.error.inj he).symm, hmem, rfl, ?_⟩
    intro hid
    rw [called, Graph.named_of_id hid, Function.update_eq_self]
  · intro hid
    refine ⟨Graph.named_of_none hid, ?_, factors_hand _ c⟩
    rw [hand_eq_ok_iff, called, Graph.label_named_of_none hid, givenId_mem_iff]

end Workshop

/-! ### Names from elsewhere -/

namespace Unnamed

/-- A factor that pulls a number to zero. -/
def factor (id : Option String) : Factor ℝ := ⟨.prior (.name "a") (.ofVector [0]), some ⟨[1], .none⟩, id⟩

/-- Two factors without a name were added to a graph, and then the second one to another graph. -/
def twoGraphs : Workshop ℝ := (Workshop.stocked fun _ => factor none).run [⟨0, 0⟩, ⟨0, 1⟩, ⟨1, 1⟩]

/-- The other graph refuses a third factor, since the name for its second place came with the first of its
    factors. -/
theorem hand_after_run_twoGraphs : (twoGraphs.factors 2).id = none ∧
    (twoGraphs.hand ⟨1, 2⟩).1 ≠ .ok () ∧ ((twoGraphs.hand ⟨1, 2⟩).2.factors 2).id = some "priorfactor_1" := by
  obtain ⟨-, -, -, homitted⟩ := Workshop.hand_after_run (fun _ => factor none)
    [⟨0, 0⟩, ⟨0, 1⟩, ⟨1, 1⟩] ⟨1, 2⟩ (w := twoGraphs) rfl
  have hid : (twoGraphs.factors 2).id = none := by decide +kernel
  obtain ⟨-, hok, hfactors⟩ := homitted hid
  have hlabel : (twoGraphs.called ⟨1, 2⟩).label = "priorfactor_1" := by decide +kernel
  refine ⟨hid, fun h => hok.mp h ⟨[⟨0, 0⟩, ⟨0, 1⟩], ⟨1, 1⟩, [], rfl, rfl, ?_⟩, ?_⟩
  · rw [hlabel]
    decide +kernel
  · rw [hfactors, Function.update_self]
    decide +kernel

/-- A factor that was named by hand is in a graph. -/
def oneGraph : Workshop ℝ :=
  (Workshop.stocked fun j => factor (if j = 0 then some "priorfactor_1" else none)).run [⟨0, 0⟩]

/-- **A name that was given by hand is taken**: the factor without a name is refused, and has it then. -/
theorem refused_unnamed : (oneGraph.factors 1).id = none ∧
    (oneGraph.hand ⟨0, 1⟩).1 = .error (.duplicateFactor "priorfactor_1") ∧
    ((oneGraph.hand ⟨0, 1⟩).2.factors 1).id = some "priorfactor_1" := by
  have hlabel : (oneGraph.called ⟨0, 1⟩).label = "priorfactor_1" := by decide +kernel
  have hmem : (oneGraph.called ⟨0, 1⟩).label ∈ (oneGraph.graphs 0).ids := by decide +kernel
  refine ⟨by decide +kernel, ?_, by decide +kernel⟩
  rw [Workshop.hand_of_mem hmem, hlabel]

end Unnamed

end LeastSquares
