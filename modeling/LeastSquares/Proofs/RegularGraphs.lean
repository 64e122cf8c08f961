/-
  LeastSquares/Proofs/RegularGraphs.lean
  ======================================
  **Graphs whose arrays are regular and whose factors are about different variables.**

  What is read from a description is regular: nested lists of one shape have a number at every place, and
  so has what a formula makes of regular arrays.  The variables of a factor are checked when it is made.
-/
import LeastSquares.Graph
import LeastSquares.Proofs.RegularArrays

namespace LeastSquares

variable {α : Type}

/-! ### Regular graphs -/

/-- The arrays that a measurement is given hold a number at every place, also those of a derivative. -/
def Measurement.ArraysRegular : Measurement α → Prop
  | prior _ value => value.IsRegular
  | between _ _ value => value.IsRegular
  | custom _ _ (some derivative) => ∀ xs arrays, derivative xs = .ok arrays → ∀ t ∈ arrays, t.IsRegular
  | _ => True

/-- The variables of a measurement are different, and its arrays are regular. -/
structure Measurement.IsRegular (m : Measurement α) : Prop where
  nodup : m.keys.Nodup
  arrays : m.ArraysRegular

theorem Measurement.isRegular_prior (key : Key) (z : Vec α) : (prior key (.ofVector z)).IsRegular :=
  ⟨List.nodup_singleton key, Tensor.isRegular_ofVector z⟩

def Graph.IsRegular (g : Graph α) : Prop := ∀ f ∈ g.factors, f.measurement.IsRegular

/-! ### Arrays of parts -/

namespace Tensor

theorem IsRegular.atLeastVector {t : Tensor α} (h : t.IsRegular) : t.atLeastVector.IsRegular := by
  rw [Tensor.atLeastVector]
  split
  · next hshape =>
    rw [List.isEmpty_iff] at hshape
    rw [IsRegular, hshape] at h
    exact h
  · exact h

theorem IsRegular.atLeastMatrix {t : Tensor α} (h : t.IsRegular) :
    t.atLeastMatrix.IsRegular := by
  obtain ⟨shape, data⟩ := t
  have hplaces : data.length = places shape := h
  match shape with
  | [] => exact hplaces
  | [n] =>
    rw [Tensor.atLeastMatrix, IsRegular, places_cons, one_mul]
    exact hplaces
  | m :: n :: shape => exact h

theorem length_flatMap_data {ts : List (Tensor α)} {shape : List ℕ}
    (h : ∀ t ∈ ts, t.IsRegular ∧ t.shape = shape) :
    (ts.flatMap (·.data)).length = ts.length * places shape := by
  have hlengths : ∀ t ∈ ts, t.data.length = places shape := fun t ht => (h t ht).2 ▸ (h t ht).1
  rw [List.length_flatMap, List.map_congr_left hlengths, List.map_const', List.sum_replicate,
    smul_eq_mul]

theorem stackShapes_eq_some {shapes : List (List ℕ)} {shape : List ℕ} (h : stackShapes shapes = some shape) :
    shape = [0] ∧ shapes = [] ∨ ∃ first, shape = shapes.length :: first ∧ ∀ s ∈ shapes, s = first := by
  cases shapes with
  | nil =>
    cases h
    exact .inl ⟨rfl, rfl⟩
  | cons first rest =>
    rw [stackShapes] at h
    split at h
    · next hall =>
      cases h
      exact .inr ⟨first, rfl, List.forall_mem_cons.mpr ⟨rfl, by simpa using hall⟩⟩
    · cases h

theorem isRegular_of_stack {ts : List (Tensor α)} {t : Tensor α} (hts : ∀ t ∈ ts, t.IsRegular)
    (h : stack ts = .ok t) : t.IsRegular := by
  rw [stack] at h
  split at h
  · next shape hshape =>
    split_ifs at h
    cases h
    rcases stackShapes_eq_some hshape with ⟨rfl, hnil⟩ | ⟨first, rfl, hall⟩
    · rw [List.map_eq_nil_iff.mp hnil]
      rfl
    · have hsame : ∀ t ∈ ts, t.IsRegular ∧ t.shape = first := fun t ht =>
        ⟨hts t ht, hall _ (List.mem_map_of_mem ht)⟩
      rw [IsRegular, length_flatMap_data hsame, places_cons, List.length_map]
  · cases h

theorem IsRegular.parts {t : Tensor α} (h : t.IsRegular) (hshape : t.shape ≠ []) :
    ∀ part ∈ t.parts, part.IsRegular ∧ part.shape = t.shape.tail := by
  obtain ⟨shape, data⟩ := t
  cases shape with
  | nil => exact (hshape rfl).elim
  | cons n inner =>
    rw [IsRegular, places_cons] at h
    exact List.forall_mem_map.mpr fun piece hpiece => ⟨length_of_mem_cut h piece hpiece, rfl⟩

/-! ### Nested lists -/

mutual

theorem length_leavesOf {g : Given α} {shape : List ℕ} (h : shapeOf g = some shape) :
    (leavesOf g).length = places shape := by
  cases g with
  | list items =>
    rw [shapeOf] at h
    obtain ⟨shapes, hshapes, hstack⟩ := Option.bind_eq_some_iff.mp h
    rw [leavesOf, length_leavesOfItems hshapes]
    rcases stackShapes_eq_some hstack with ⟨rfl, rfl⟩ | ⟨first, rfl, hall⟩
    · rfl
    · rw [List.map_congr_left fun s hs => congrArg places (hall s hs), List.map_const',
        List.sum_replicate, smul_eq_mul, places_cons]
  | null => cases h; rfl
  | flag _ => cases h; rfl
  | integer _ => cases h; rfl
  | real _ => cases h; rfl
  | text _ => cases h; rfl
  | record _ => cases h; rfl

theorem length_leavesOfItems {items : List (Given α)} {shapes : List (List ℕ)}
    (h : shapesOf items = some shapes) : (leavesOfItems items).length = (shapes.map places).sum := by
  cases items with
  | nil => cases h; rfl
  | cons item rest =>
    rw [shapesOf] at h
    obtain ⟨first, hfirst, h⟩ := Option.bind_eq_some_iff.mp h
    obtain ⟨others, hothers, h⟩ := Option.bind_eq_some_iff.mp h
    cases h
    rw [leavesOfItems, List.length_append, length_leavesOf hfirst, length_leavesOfItems hothers]
    rfl

end

/-- **Nested lists are read as regular arrays.** -/
theorem isRegular_of_ofNested {g : Given α} {t : Tensor (Given α)} (h : ofNested g = .ok t) :
    t.IsRegular := by
  rw [ofNested] at h
  split at h
  · next shape hshape =>
    split_ifs at h
    cases h
    exact length_leavesOf hshape
  · cases h

variable [Scalar α]

theorem isRegular_of_ofGiven {g : Given α} {t : Tensor α} (h : ofGiven g = .ok t) : t.IsRegular := by
  obtain ⟨nested, hnested, h⟩ := bind_eq_ok.mp h
  obtain ⟨data, hdata, h⟩ := bind_eq_ok.mp h
  cases h
  exact (mapM_eq_ok_iff.mp hdata).length_eq.symm.trans (isRegular_of_ofNested hnested)

end Tensor

/-! ### Places -/

theorem mem_of_itemAt {β : Type} {items : List β} {place : ℤ} {x : β} (h : itemAt items place = .ok x) :
    x ∈ items := by
  unfold itemAt at h
  simp only at h
  generalize (if place < 0 then place + (items.length : ℤ) else place) = index at h
  split_ifs at h
  split at h
  · next hitem =>
    cases h
    exact List.mem_of_getElem? hitem
  · cases h

namespace Place

/-- The numbers of several parts are a regular array. -/
def IsRegular : Place → Prop
  | parts numbers => numbers.IsRegular
  | _ => True

theorem isRegular_of_take {t r : Tensor α} (ht : t.IsRegular) {place : Place} (hplace : place.IsRegular)
    (h : place.take t = .ok r) : r.IsRegular := by
  have hparts : t.shape ≠ [] → ∀ part ∈ t.parts, part.IsRegular ∧ part.shape = t.shape.tail := ht.parts
  obtain ⟨shape, data⟩ := t
  cases place with
  | part number =>
    cases shape with
    | nil => cases h
    | cons n inner => exact (hparts (by simp) r (mem_of_itemAt h)).1
  | whole taken =>
    cases h
    cases taken
    · simp [Tensor.IsRegular]
    · simpa [Tensor.IsRegular] using ht
  | parts numbers =>
    cases shape with
    | nil => cases h
    | cons n inner =>
      obtain ⟨taken, htaken, h⟩ := bind_eq_ok.mp h
      cases h
      have hall : ∀ part ∈ taken, part.IsRegular ∧ part.shape = inner := by
        intro part hpart
        obtain ⟨number, -, hitem⟩ := exists_of_mem_mapM htaken hpart
        exact hparts (by simp) part (mem_of_itemAt hitem)
      rw [Tensor.IsRegular, Tensor.length_flatMap_data hall, Tensor.places_append,
        ← (mapM_eq_ok_iff.mp htaken).length_eq]
      exact congrArg (· * Tensor.places inner) hplace
  | chosen marks =>
    cases shape with
    | nil => cases h
    | cons n inner =>
      simp only [take] at h
      split_ifs at h
      cases h
      have hall : ∀ part ∈ (((Tensor.parts ⟨n :: inner, data⟩).zip marks).filter (·.2)).map (·.1),
          part.IsRegular ∧ part.shape = inner := by
        intro part hpart
        obtain ⟨⟨part, mark⟩, hmem, rfl⟩ := List.mem_map.mp hpart
        exact hparts (by simp) part (List.of_mem_zip (List.mem_filter.mp hmem).1).1
      rw [Tensor.IsRegular, Tensor.length_flatMap_data hall, Tensor.places_cons]
  | refused cause => cases h

theorem isRegular_ofGiven (g : Given α) : (ofGiven g).IsRegular := by
  have hlist : ∀ g : Given α, (ofList g).IsRegular := by
    intro g
    unfold ofList
    split
    · trivial
    · next t ht =>
      have hregular := Tensor.isRegular_of_ofNested ht
      split
      · next hmarks =>
        have hnil : t.data = [] := by
          cases hdata : t.data with
          | nil => rfl
          | cons item rest => simp [hdata, Option.bind_eq_some_iff] at hmarks
        exact (congrArg List.length hnil).symm.trans hregular
      · trivial
      · trivial
      · split
        · next hnumbers => exact (mapM_eq_ok_iff.mp hnumbers).length_eq.symm.trans hregular
        · trivial
  cases g with
  | list items => exact hlist _
  | _ => trivial

end Place

/-! ### Formulas -/

namespace Formula

/-- The places that a formula looks at are regular. -/
def IsRegular : Formula α → Prop
  | component _ place => place.IsRegular
  | negative e | sin e | cos e | exp e | sqrt e | abs e => e.IsRegular
  | sum a b | difference a b | product a b | ratio a b => a.IsRegular ∧ b.IsRegular
  | constant _ | failing _ => True

variable [Scalar α]

/-- **A formula makes a regular array of regular arrays.** -/
theorem isRegular_of_eval {arguments : List (Tensor α)} (harguments : ∀ t ∈ arguments, t.IsRegular)
    {e : Formula α} (he : e.IsRegular) {t : Tensor α} (h : e.eval arguments = .ok t) : t.IsRegular := by
  induction e generalizing t with
  | constant value =>
    cases h
    rfl
  | component argument place =>
    obtain ⟨x, hx, h⟩ := bind_eq_ok.mp h
    exact Place.isRegular_of_take (harguments x (mem_of_itemAt hx)) he h
  | negative e ih | sin e ih | cos e ih | exp e ih | sqrt e ih | abs e ih =>
    obtain ⟨x, hx, rfl⟩ := map_eq_ok.mp h
    exact (ih he hx).map _
  | sum a b iha ihb | difference a b iha ihb | product a b iha ihb | ratio a b iha ihb =>
    obtain ⟨x, hx, h⟩ := bind_eq_ok.mp h
    obtain ⟨y, hy, h⟩ := bind_eq_ok.mp h
    exact (iha he.1 hx).combine (ihb he.2 hy) h
  | failing cause => cases h

theorem isRegular_of_evalRows {rows : List (List (Formula α))} (hrows : ∀ row ∈ rows, ∀ e ∈ row, e.IsRegular)
    {arguments : List (Tensor α)} (harguments : ∀ t ∈ arguments, t.IsRegular) {t : Tensor α}
    (h : evalRows rows arguments = .ok t) : t.IsRegular := by
  obtain ⟨values, hvalues, h⟩ := bind_eq_ok.mp h
  obtain ⟨stacked, hstacked, h⟩ := bind_eq_ok.mp h
  refine Tensor.isRegular_of_stack (fun row hrow => ?_) h
  obtain ⟨parts, hparts, hrow⟩ := exists_of_mem_mapM hstacked hrow
  refine Tensor.isRegular_of_stack (fun part hpart => ?_) hrow
  obtain ⟨formulas, hformulas, hparts⟩ := exists_of_mem_mapM hvalues hparts
  obtain ⟨e, he, hpart⟩ := exists_of_mem_mapM hparts hpart
  exact isRegular_of_eval harguments (hrows formulas hformulas e he) hpart

/-! ### Described formulas -/

omit [Scalar α] in
theorem isRegular_operation (name : String) {operands : List (Given α × Formula α)}
    (h : ∀ o ∈ operands, o.2.IsRegular) : (operation name operands).IsRegular := by
  have hcomponent : ∀ argument place : Given α, (componentOf argument place : Formula α).IsRegular := by
    intro argument place
    unfold componentOf
    split
    · exact Place.isRegular_ofGiven place
    · trivial
  have hunary : ∀ f, unary? name = some f → ∀ e : Formula α, e.IsRegular → (f e).IsRegular := by
    intro f hf e he
    have hmem := mem_of_lookup hf
    simp only [List.mem_cons, Prod.mk.injEq, List.not_mem_nil, or_false] at hmem
    rcases hmem with ⟨-, rfl⟩ | ⟨-, rfl⟩ | ⟨-, rfl⟩ | ⟨-, rfl⟩ | ⟨-, rfl⟩ | ⟨-, rfl⟩ <;> exact he
  have hbinary : ∀ f, binary? name = some f → ∀ a b : Formula α, a.IsRegular → b.IsRegular →
      (f a b).IsRegular := by
    intro f hf a b ha hb
    have hmem := mem_of_lookup hf
    simp only [List.mem_cons, Prod.mk.injEq, List.not_mem_nil, or_false] at hmem
    rcases hmem with ⟨-, rfl⟩ | ⟨-, rfl⟩ | ⟨-, rfl⟩ | ⟨-, rfl⟩ <;> exact ⟨ha, hb⟩
  unfold operation
  split
  · split
    · exact hcomponent _ _
    · exact hcomponent _ _
    · trivial
  · split
    · next f _ a _ hf => exact hunary f hf a (h _ List.mem_cons_self)
    · next f _ a _ b _ hf _ =>
      exact hbinary f hf a b (h _ List.mem_cons_self) (h _ (List.mem_cons_of_mem _ List.mem_cons_self))
    · next f _ a hf _ => exact hbinary f hf a _ (h _ List.mem_cons_self) trivial
    · trivial
    · trivial

mutual

theorem isRegular_ofGiven (g : Given α) : (ofGiven g).IsRegular := by
  cases g with
  | list items =>
    cases items with
    | nil => trivial
    | cons head operands =>
      rw [ofGiven]
      exact isRegular_operation _ (isRegular_ofOperands operands)
  | null | flag _ | integer _ | real _ | text _ | record _ =>
    simp only [ofGiven]
    split <;> trivial

theorem isRegular_ofOperands (operands : List (Given α)) :
    ∀ o ∈ ofOperands operands, o.2.IsRegular := by
  cases operands with
  | nil => simp [ofOperands]
  | cons operand rest =>
    exact List.forall_mem_cons.mpr ⟨isRegular_ofGiven operand, isRegular_ofOperands rest⟩

end

theorem isRegular_of_derivative {fn : Given α}
    {derivative : List (Vec α) → Except Error (List (Tensor α))}
    (h : vectorDerivativeOf fn = some derivative) {xs : List (Vec α)} {arrays : List (Tensor α)}
    (harrays : derivative xs = .ok arrays) : ∀ t ∈ arrays, t.IsRegular := by
  obtain ⟨_, hof, rfl⟩ := Option.map_eq_some_iff.mp h
  obtain ⟨blocks, -, rfl⟩ := Option.map_eq_some_iff.mp hof
  intro t ht
  obtain ⟨block, hblock, hread⟩ := exists_of_mem_mapM harrays ht
  obtain ⟨g, -, rfl⟩ := List.mem_map.mp hblock
  obtain ⟨rows, hrows, heval⟩ := bind_eq_ok.mp hread
  obtain ⟨listed, -, hformulas⟩ := bind_eq_ok.mp hrows
  refine isRegular_of_evalRows (fun row hrow => ?_)
    (List.forall_mem_map.mpr fun x _ => Tensor.isRegular_ofVector x) heval
  obtain ⟨described, -, hdescribed⟩ := exists_of_mem_mapM hformulas hrow
  obtain ⟨items, -, rfl⟩ := map_eq_ok.mp hdescribed
  exact List.forall_mem_map.mpr fun item _ => isRegular_ofGiven item

end Formula

/-! ### Factors -/

namespace Factor

theorem nodup_of_checkKeys {keys : List Key} (h : checkKeys keys = .ok ()) : keys.Nodup := by
  unfold checkKeys at h
  split at h
  · next hlength =>
    have hsub : (distinct keys).Subperm keys :=
      (nodup_distinct keys).subperm fun key hkey => mem_distinct.mp hkey
    exact (hsub.perm_of_length_le hlength.ge).nodup_iff.mp (nodup_distinct keys)
  · cases h

theorem isRegular_of_custom {keys : List Key} {function : List (Vec α) → Except Error (Vec α)}
    {noise : Option (Noise α)} {derivative : Option (List (Vec α) → Except Error (List (Tensor α)))}
    (hderivative : ∀ d, derivative = some d → ∀ xs arrays, d xs = .ok arrays →
      ∀ t ∈ arrays, t.IsRegular)
    {id : Option String} {f : Factor α} (h : custom keys function noise derivative id = .ok f) :
    f.measurement.IsRegular := by
  obtain ⟨⟨⟩, hkeys, h⟩ := bind_eq_ok.mp h
  cases h
  refine ⟨nodup_of_checkKeys hkeys, ?_⟩
  cases derivative with
  | none => trivial
  | some d => exact hderivative d rfl

theorem isRegular_of_measuredArray {value given : Tensor α} (hvalue : value.IsRegular)
    {noise : Option (Noise α)} {refusal : ℕ → ℕ → Error}
    (h : measuredArray value noise refusal = .ok given) : given.IsRegular := by
  obtain ⟨noise, -, h⟩ := bind_eq_ok.mp h
  split_ifs at h
  cases h
  exact hvalue.atLeastVector

theorem isRegular_of_prior {key : Key} {value : Tensor α} (hvalue : value.IsRegular)
    {noise : Option (Noise α)} {id : Option String} {f : Factor α}
    (h : prior key value noise id = .ok f) : f.measurement.IsRegular := by
  obtain ⟨measured, hmeasured, h⟩ := bind_eq_ok.mp h
  cases h
  exact ⟨List.nodup_singleton key, isRegular_of_measuredArray hvalue hmeasured⟩

theorem isRegular_of_between {first second : Key} {value : Tensor α} (hvalue : value.IsRegular)
    {noise : Option (Noise α)} {id : Option String} {f : Factor α}
    (h : between first second value noise id = .ok f) : f.measurement.IsRegular := by
  obtain ⟨⟨⟩, hkeys, h⟩ := bind_eq_ok.mp h
  obtain ⟨measured, hmeasured, h⟩ := bind_eq_ok.mp h
  cases h
  exact ⟨nodup_of_checkKeys hkeys, isRegular_of_measuredArray hvalue hmeasured⟩

variable [Scalar α]

theorem isRegular_of_range {first second : Key} {distance : Given α} {noise : Option (Noise α)}
    {id : Option String} {f : Factor α} (h : range first second distance noise id = .ok f) :
    f.measurement.IsRegular := by
  obtain ⟨noise, -, h⟩ := bind_eq_ok.mp h
  obtain ⟨⟨⟩, hkeys, h⟩ := bind_eq_ok.mp h
  obtain ⟨distance, -, h⟩ := bind_eq_ok.mp h
  cases h
  exact ⟨nodup_of_checkKeys hkeys, trivial⟩

theorem isRegular_of_posePrior {key : Key} {pose : Given α} {noise : Option (Noise α)}
    {id : Option String} {f : Factor α} (h : posePrior key pose noise id = .ok f) :
    f.measurement.IsRegular := by
  obtain ⟨noise, -, h⟩ := bind_eq_ok.mp h
  obtain ⟨pose, -, h⟩ := bind_eq_ok.mp h
  cases h
  exact ⟨List.nodup_singleton key, trivial⟩

theorem isRegular_of_poseBetween {first second : Key} {pose : Given α} {noise : Option (Noise α)}
    {id : Option String} {f : Factor α} (h : poseBetween first second pose noise id = .ok f) :
    f.measurement.IsRegular := by
  obtain ⟨noise, -, h⟩ := bind_eq_ok.mp h
  obtain ⟨⟨⟩, hkeys, h⟩ := bind_eq_ok.mp h
  obtain ⟨pose, -, h⟩ := bind_eq_ok.mp h
  cases h
  exact ⟨nodup_of_checkKeys hkeys, trivial⟩

/-- **Every factor that is described is regular.** -/
theorem isRegular_of_ofGiven {number : α → String} {g : Given α} {f : Factor α}
    (h : ofGiven number g = .ok f) : f.measurement.IsRegular := by
  obtain ⟨noise, -, h⟩ := bind_eq_ok.mp h
  simp only at h
  split at h
  · obtain ⟨value, hvalue, h⟩ := bind_eq_ok.mp h
    exact isRegular_of_prior (Tensor.isRegular_of_ofGiven hvalue) h
  · obtain ⟨⟨⟩, -, h⟩ := bind_eq_ok.mp h
    obtain ⟨value, hvalue, h⟩ := bind_eq_ok.mp h
    exact isRegular_of_between (Tensor.isRegular_of_ofGiven hvalue) h
  · exact isRegular_of_range h
  · exact isRegular_of_posePrior h
  · exact isRegular_of_poseBetween h
  · exact isRegular_of_custom (fun d hd xs arrays => Formula.isRegular_of_derivative hd) h
  · cases h

end Factor

/-! ### Graphs -/

namespace Graph

theorem isRegular_of_add {g g' : Graph α} {f : Factor α} (hg : g.IsRegular) (hf : f.measurement.IsRegular)
    (h : (g.add f).2 = .ok g') : g'.IsRegular := by
  simp only [add] at h
  split_ifs at h
  cases h
  intro f' hf'
  rcases List.mem_append.mp hf' with hf' | hf'
  · exact hg f' hf'
  · rw [List.mem_singleton.mp hf', named_measurement]
    exact hf

/-- **A graph of regular factors is regular.** -/
theorem isRegular_of_ofFactors {factors : List (Factor α)} (hfactors : ∀ f ∈ factors, f.measurement.IsRegular)
    {g : Graph α} (h : ofFactors factors = .ok g) : g.IsRegular :=
  foldlM_keeps (fun _ f hf _ hg => isRegular_of_add hg (hfactors f hf)) (fun f hf => by cases hf) h

/-- **Every graph that is described is regular.** -/
theorem isRegular_of_ofGiven [Scalar α] {number : α → String} {given : Given α} {g : Graph α}
    (h : ofGiven number given = .ok g) : g.IsRegular := by
  obtain ⟨factors, hfactors, h⟩ := bind_eq_ok.mp h
  refine isRegular_of_ofFactors (fun f hf => ?_) h
  obtain ⟨item, -, hitem⟩ := exists_of_mem_mapM hfactors hf
  exact Factor.isRegular_of_ofGiven hitem

end Graph

end LeastSquares
